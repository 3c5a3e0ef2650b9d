import SmalltalkA.Interpreter.Exec

/-! The arithmetic primitives of SmallInteger (`primitive_table.c`). Values have 63 bits, while the
code computes and tests for overflow with 64. -/

set_option autoImplicit false

namespace SmalltalkA

def inWord (v : Int) : Prop := -2 ^ 63 ≤ v ∧ v < 2 ^ 63
def inSmallInt (v : Int) : Prop := -2 ^ 62 ≤ v ∧ v < 2 ^ 62

instance (v : Int) : Decidable (inWord v) := inferInstanceAs (Decidable (_ ∧ _))
instance (v : Int) : Decidable (inSmallInt v) := inferInstanceAs (Decidable (_ ∧ _))

def toSigned (v : Int) : Int := (v + 2 ^ 63) % 2 ^ 64 - 2 ^ 63

/-- `__builtin_…_overflow` for the exact result. -/
def builtinOverflow (v : Int) : Option Int := if inWord v then some v else none

/-- `(x ^ y) < 0`: the signs differ. -/
def signsDiffer (x y : Int) : Bool := decide (x < 0) != decide (y < 0)

/-- A primitive on two SmallIntegers; `op` gives none where the code fails. -/
def primSmallint (op : Int → Int → Option Int) (args : List Oop) : Except Nat Oop :=
  if !isSmallInt (args.getD 0 0) then .error primBadReceiver
  else if !isSmallInt (args.getD 1 0) then .error primBadArgument
  else match op (smallIntVal (args.getD 0 0)) (smallIntVal (args.getD 1 0)) with
    | none => .error primOutOfRange
    | some r => .ok (smallIntOop r)

/-- The primitives, by what they compute. -/
inductive SmallintOp
  | add | sub | mul | divExact | mod | divFloor | quo | bitshift
  deriving DecidableEq,Repr

/-- The body between the checks of the arguments and the tagging of the result. -/
def SmallintOp.compute : SmallintOp → Int → Int → Option Int
  | .add,a,b => builtinOverflow (a + b)
  | .sub,a,b => builtinOverflow (a - b)
  | .mul,a,b => builtinOverflow (a * b)
  | .divExact,a,b =>
    if b = 0 then none
    else if a.tmod b ≠ 0 then none
    else some (a.tdiv b)
  | .mod,a,b =>
    if b = 0 then none
    else if a.tmod b ≠ 0 ∧ signsDiffer (a.tmod b) b then some (a.tmod b + b)
    else some (a.tmod b)
  | .divFloor,a,b =>
    if b = 0 then none
    else if a.tmod b ≠ 0 ∧ signsDiffer a b then some (a.tdiv b - 1)
    else some (a.tdiv b)
  | .quo,a,b => if b = 0 then none else some (a.tdiv b)
  | .bitshift,a,shift =>
    if 63 ≤ shift ∨ shift ≤ -63 then none
    else if 0 ≤ shift then
      -- `>>` of a signed word is the division rounded down
      if toSigned (a * 2 ^ shift.toNat) / 2 ^ shift.toNat ≠ a then none
      else some (toSigned (a * 2 ^ shift.toNat))
    else some (a / 2 ^ (-shift).toNat)

def primSmallintAdd : List Oop → Except Nat Oop := primSmallint SmallintOp.add.compute
def primSmallintSub : List Oop → Except Nat Oop := primSmallint SmallintOp.sub.compute
def primSmallintMul : List Oop → Except Nat Oop := primSmallint SmallintOp.mul.compute
def primSmallintDivExact : List Oop → Except Nat Oop := primSmallint SmallintOp.divExact.compute
def primSmallintMod : List Oop → Except Nat Oop := primSmallint SmallintOp.mod.compute
def primSmallintDivFloor : List Oop → Except Nat Oop := primSmallint SmallintOp.divFloor.compute
def primSmallintQuo : List Oop → Except Nat Oop := primSmallint SmallintOp.quo.compute
def primSmallintBitshift : List Oop → Except Nat Oop := primSmallint SmallintOp.bitshift.compute

def SmallintOp.prim : SmallintOp → List Oop → Except Nat Oop
  | .add => primSmallintAdd
  | .sub => primSmallintSub
  | .mul => primSmallintMul
  | .divExact => primSmallintDivExact
  | .mod => primSmallintMod
  | .divFloor => primSmallintDivFloor
  | .quo => primSmallintQuo
  | .bitshift => primSmallintBitshift

theorem SmallintOp.prim_eq (op : SmallintOp) : op.prim = primSmallint op.compute := by
  cases op <;> rfl

/-- The exact result; none where there is none: the divisor is zero, the quotient is not an
integer, or the shift count is not supported. -/
def SmallintOp.exact : SmallintOp → Int → Int → Option Int
  | .add,a,b => some (a + b)
  | .sub,a,b => some (a - b)
  | .mul,a,b => some (a * b)
  | .divExact,a,b => if b ≠ 0 ∧ b ∣ a then some (a / b) else none
  | .mod,a,b => if b ≠ 0 then some (a.fmod b) else none
  | .divFloor,a,b => if b ≠ 0 then some (a.fdiv b) else none
  | .quo,a,b => if b ≠ 0 then some (a.tdiv b) else none
  | .bitshift,a,shift =>
    if -63 < shift ∧ shift < 63 then
      some (if 0 ≤ shift then a * 2 ^ shift.toNat else a / 2 ^ (-shift).toNat)
    else none

/-- Success with the exact result as a SmallInteger if it is one, and otherwise failure. -/
def SmallintOp.ExactAt (op : SmallintOp) (a b : Int) : Prop :=
  match (op.exact a b).filter (fun v => inSmallInt v) with
  | some v => ∃ o,op.prim [smallIntOop a,smallIntOop b] = .ok o ∧ isSmallInt o ∧ smallIntVal o = v
  | none => ∃ code,op.prim [smallIntOop a,smallIntOop b] = .error code

/-! ## Tagging -/

theorem wordSpan_cast : (wordSpan : Int) = 2 ^ 64 := by
  simp [wordSpan]

theorem isSmallInt_smallIntOop (n : Int) : isSmallInt (smallIntOop n) = true := by
  have h : (((2 * n + 1) % 2 ^ 64).toNat % 2 : Nat) = 1 := by omega
  simpa [isSmallInt,smallIntOop,wordSpan_cast] using h

theorem smallIntVal_smallIntOop (n : Int) :
    smallIntVal (smallIntOop n) = (n + 2 ^ 62) % 2 ^ 63 - 2 ^ 62 := by
  have h : (((2 * n + 1) % 2 ^ 64).toNat : Int) = (2 * n + 1) % 2 ^ 64 :=
    Int.toNat_of_nonneg (by omega)
  simp only [smallIntVal,smallIntOop,wordSpan_cast,h]
  by_cases hlt : ((2 * n + 1) % 2 ^ 64).toNat < 2 ^ 63
  · rw [if_pos hlt]
    omega
  · rw [if_neg hlt]
    omega

variable {v a b : Int}

theorem smallIntVal_smallIntOop_iff (hv : inWord v) :
    smallIntVal (smallIntOop v) = v ↔ inSmallInt v := by
  rw [smallIntVal_smallIntOop]
  unfold inWord at hv
  unfold inSmallInt
  omega

theorem smallIntVal_inSmallInt (hv : inSmallInt v) : smallIntVal (smallIntOop v) = v := by
  refine (smallIntVal_smallIntOop_iff ?_).mpr hv
  unfold inSmallInt at hv
  unfold inWord
  omega

theorem inSmallInt.inWord (h : inSmallInt v) : inWord v := by
  unfold inSmallInt at h
  unfold SmalltalkA.inWord
  omega

/-! ## What each primitive computes -/

theorem natAbs_le_word (ha : inSmallInt a) (h : v.natAbs ≤ a.natAbs) : inWord v := by
  unfold inSmallInt at ha
  unfold inWord
  omega

theorem tmod_ne_zero : a.tmod b ≠ 0 ↔ ¬ b ∣ a := by
  rw [ne_eq,Int.dvd_iff_tmod_eq_zero]

theorem signsDiffer_tmod (h : a.tmod b ≠ 0) : signsDiffer (a.tmod b) b = signsDiffer a b := by
  have hneg : a.tmod b < 0 ↔ a < 0 := by
    constructor
    · intro hlt
      by_contra hge
      have := Int.tmod_nonneg b (Int.not_lt.mp hge)
      omega
    · intro hlt
      have := Int.tmod_nonneg b (Int.neg_nonneg_of_nonpos (Int.le_of_lt hlt))
      rw [Int.neg_tmod] at this
      omega
  simp only [signsDiffer,hneg]

theorem divFloor_eq (hb : b ≠ 0) :
    (if a.tmod b ≠ 0 ∧ signsDiffer a b then a.tdiv b - 1 else a.tdiv b) = a.fdiv b := by
  simp only [Int.fdiv_eq_tdiv,tmod_ne_zero]
  by_cases hdvd : b ∣ a
  · simp [hdvd]
  · by_cases ha : 0 ≤ a <;> by_cases hb' : 0 ≤ b
    · simp [hdvd,ha,hb',signsDiffer,not_lt.mpr ha,not_lt.mpr hb']
    · simp [hdvd,ha,hb',signsDiffer,not_lt.mpr ha,not_le.mp hb']
    · have hsign : b.sign = 1 := Int.sign_eq_one_of_pos (by omega)
      simp [hdvd,ha,hb',signsDiffer,not_le.mp ha,not_lt.mpr hb',hsign]
    · have hsign : b.sign = -1 := Int.sign_eq_neg_one_of_neg (by omega)
      simp [hdvd,ha,hb',signsDiffer,not_le.mp ha,not_le.mp hb',hsign]

theorem mod_eq (hb : b ≠ 0) :
    (if a.tmod b ≠ 0 ∧ signsDiffer (a.tmod b) b then a.tmod b + b else a.tmod b) = a.fmod b := by
  have hfloor := divFloor_eq (a := a) hb
  rw [Int.fmod_def,← hfloor,Int.tmod_def]
  by_cases hr : a - b * a.tdiv b ≠ 0
  · have hdiffer : signsDiffer (a - b * a.tdiv b) b = signsDiffer a b := by
      rw [← Int.tmod_def] at hr ⊢
      exact signsDiffer_tmod hr
    rw [hdiffer]
    by_cases hs : signsDiffer a b = true
    · simp only [hr,hs,ne_eq,not_false_eq_true,and_self,if_true]
      rw [Int.mul_sub]
      omega
    · simp [hs]
  · simp [hr]

theorem shift_back_iff {n : Nat} (hn : n < 63) :
    toSigned (a * 2 ^ n) / 2 ^ n = a ↔ inWord (a * 2 ^ n) := by
  have hpos : (0 : Int) < 2 ^ n := by positivity
  constructor
  · intro h
    have hdvd : (2 ^ n : Int) ∣ toSigned (a * 2 ^ n) := by
      have h64 : (2 ^ n : Int) ∣ 2 ^ 64 := pow_dvd_pow 2 (by omega)
      have h63 : (2 ^ n : Int) ∣ 2 ^ 63 := pow_dvd_pow 2 (by omega)
      have hmod : (a * 2 ^ n + 2 ^ 63) % 2 ^ 64 =
          a * 2 ^ n + 2 ^ 63 - 2 ^ 64 * ((a * 2 ^ n + 2 ^ 63) / 2 ^ 64) := Int.emod_def _ _
      unfold toSigned
      rw [hmod]
      exact Int.dvd_sub (Int.dvd_sub (Int.dvd_add (Int.dvd_mul_left a _) h63) (h64.mul_right _)) h63
    have heq : toSigned (a * 2 ^ n) = a * 2 ^ n := by
      have := Int.ediv_mul_cancel hdvd
      rw [h] at this
      exact this.symm
    rw [← heq]
    unfold toSigned inWord
    omega
  · intro h
    have heq : toSigned (a * 2 ^ n) = a * 2 ^ n := by
      unfold inWord at h
      unfold toSigned
      omega
    rw [heq]
    exact Int.mul_ediv_cancel a (by omega)

theorem toSigned_of_inWord (h : inWord v) : toSigned v = v := by
  unfold inWord at h
  unfold toSigned
  omega

/-- Every primitive computes the exact result, as far as it fits in 64 bits. -/
theorem SmallintOp.compute_eq (op : SmallintOp) (ha : inSmallInt a) (hb : inSmallInt b) :
    op.compute a b = (op.exact a b).filter (fun v => inWord v) := by
  have hfilter : ∀ v : Int,inWord v → (some v).filter (fun v => decide (inWord v)) = some v := by
    intro v hv
    simp [Option.filter,hv]
  cases op with
  | add | sub | mul => simp [compute,exact,builtinOverflow,Option.filter]
  | divExact =>
    by_cases h0 : b = 0
    · simp [compute,exact,h0]
    · by_cases hdvd : b ∣ a
      · have hmod : a.tmod b = 0 := Int.dvd_iff_tmod_eq_zero.mp hdvd
        have hdiv : a.tdiv b = a / b := by simp [Int.tdiv_eq_ediv,hdvd]
        have hword : inWord (a / b) := by
          rw [← hdiv]
          exact natAbs_le_word ha (Int.natAbs_tdiv_le_natAbs a b)
        simp only [compute,exact,h0,hdvd,hmod,hdiv,if_false,ne_eq,not_true_eq_false,
          not_false_eq_true,and_self,if_true]
        exact (hfilter _ hword).symm
      · simp [compute,exact,h0,hdvd,tmod_ne_zero.mpr hdvd]
  | mod =>
    by_cases h0 : b = 0
    · simp [compute,exact,h0]
    · have hword : inWord (a.fmod b) := by
        have hlt : a.natAbs % b.natAbs < b.natAbs := Nat.mod_lt _ (by omega)
        have habs := Int.natAbs_tmod a b
        rw [← mod_eq h0]
        unfold inSmallInt at hb
        unfold inWord
        split <;> omega
      simp only [exact,h0,ne_eq,not_false_eq_true,if_true]
      rw [hfilter _ hword,← mod_eq h0]
      simp only [compute,h0,if_false]
      split <;> rfl
  | divFloor =>
    by_cases h0 : b = 0
    · simp [compute,exact,h0]
    · have hword : inWord (a.fdiv b) := by
        have := Int.natAbs_tdiv_le_natAbs a b
        rw [← divFloor_eq h0]
        unfold inSmallInt at ha
        unfold inWord
        split <;> omega
      simp only [exact,h0,ne_eq,not_false_eq_true,if_true]
      rw [hfilter _ hword,← divFloor_eq h0]
      simp only [compute,h0,if_false]
      split <;> rfl
  | quo =>
    by_cases h0 : b = 0
    · simp [compute,exact,h0]
    · have hword := natAbs_le_word ha (Int.natAbs_tdiv_le_natAbs a b)
      simp [compute,exact,h0,hfilter _ hword]
  | bitshift =>
    by_cases hrange : -63 < b ∧ b < 63
    · have hno : ¬ (63 ≤ b ∨ b ≤ -63) := by omega
      by_cases hpos : 0 ≤ b
      · have hback := shift_back_iff (a := a) (n := b.toNat) (by omega)
        by_cases hword : inWord (a * 2 ^ b.toNat)
        · have hsame := hback.mpr hword
          rw [toSigned_of_inWord hword] at hsame
          simp only [compute,exact,hno,hrange,hpos,hsame,toSigned_of_inWord hword,if_false,if_true,
            and_self,ne_eq,not_true_eq_false,hfilter _ hword]
        · simp only [compute,exact,hno,hrange,hpos,mt hback.mp hword,if_false,if_true,and_self,
            ne_eq,not_false_eq_true]
          simp [Option.filter,hword]
      · have hword : inWord (a / 2 ^ (-b).toNat) := by
          have hp : (0 : Int) < 2 ^ (-b).toNat := by positivity
          refine natAbs_le_word ha ?_
          exact Int.natAbs_ediv_le_natAbs a _
        simp only [compute,exact,hno,hrange,hpos,if_false,if_true,and_self,hfilter _ hword]
    · have hout : 63 ≤ b ∨ b ≤ -63 := by omega
      simp only [compute,exact,hrange,hout,if_false,if_true]
      rfl

/-- A primitive on SmallIntegers is exact unless the result is one of the values that fit in 64 bits
but not in 63: these come back with their top bit lost. -/
theorem smallint_exact_iff (op : SmallintOp) {a b : Int} (ha : inSmallInt a) (hb : inSmallInt b) :
    op.ExactAt a b ↔ ∀ v,op.exact a b = some v → inSmallInt v ∨ ¬ inWord v := by
  have hprim : op.prim [smallIntOop a,smallIntOop b] =
      match (op.exact a b).filter (fun v => inWord v) with
      | none => .error primOutOfRange
      | some r => .ok (smallIntOop r) := by
    rw [op.prim_eq,← op.compute_eq ha hb]
    have hva := (smallIntVal_smallIntOop_iff ha.inWord).mpr ha
    have hvb := (smallIntVal_smallIntOop_iff hb.inWord).mpr hb
    simp [primSmallint,isSmallInt_smallIntOop,hva,hvb]
  unfold SmallintOp.ExactAt
  rw [hprim]
  cases hexact : op.exact a b with
  | none => simp
  | some v =>
    by_cases hsmall : inSmallInt v
    · have hval := (smallIntVal_smallIntOop_iff hsmall.inWord).mpr hsmall
      simp [Option.filter,hsmall,hsmall.inWord,isSmallInt_smallIntOop,hval]
    · by_cases hword : inWord v
      · simp [Option.filter,hsmall,hword]
      · simp [Option.filter,hsmall,hword]

theorem smallint_max_times_zero :
    SmallintOp.mul.ExactAt (2 ^ 62 - 1) 0 ∧ SmallintOp.mul.ExactAt (2 ^ 62 - 1) (2 ^ 62 - 1) := by
  refine ⟨(smallint_exact_iff .mul (by decide) (by decide)).mpr ?_,
    (smallint_exact_iff .mul (by decide) (by decide)).mpr ?_⟩
  · rintro v ⟨⟩
    exact .inl (by decide)
  · rintro v ⟨⟩
    exact .inr (by decide)

/-- The largest SmallInteger plus one is the smallest one. -/
theorem smallint_wraps_to_min :
    primSmallintAdd [smallIntOop (2 ^ 62 - 1),smallIntOop 1] = .ok (smallIntOop (-2 ^ 62)) ∧
      ¬ SmallintOp.add.ExactAt (2 ^ 62 - 1) 1 := by
  have hwraps : primSmallintAdd [smallIntOop (2 ^ 62 - 1),smallIntOop 1] =
      .ok (smallIntOop (-2 ^ 62)) := by decide
  refine ⟨hwraps,fun hexact => ?_⟩
  obtain ⟨code,hfail⟩ : ∃ code,primSmallintAdd [smallIntOop (2 ^ 62 - 1),smallIntOop 1] =
      .error code := hexact
  rw [hwraps] at hfail
  cases hfail

end SmalltalkA
