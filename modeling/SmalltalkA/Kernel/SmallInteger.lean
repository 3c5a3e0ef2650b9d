import SmalltalkA.Vm.SmallIntegers

/-! Methods of SmallInteger and Number (`SmallInteger.st`, `Number.st`) on values. Recursion and
loops have a bound on their steps; they end if some bound is enough. -/

set_option autoImplicit false

namespace SmalltalkA

/-- What a computation comes to, given enough steps. -/
def Answers {α : Type} (run : Nat → Option α) (v : α) : Prop :=
  ∃ k,∀ steps,k ≤ steps → run steps = some v

/-- A send that a primitive answers: where it fails, its method returns the receiver. -/
def SmallintOp.send (op : SmallintOp) (a b : Int) : Int :=
  match op.prim [smallIntOop a,smallIntOop b] with
  | .ok o => smallIntVal o
  | .error _ => a

namespace SmallInteger

def negated (self : Int) : Int := SmallintOp.sub.send 0 self

def abs (self : Int) : Int := if self < 0 then SmallintOp.sub.send 0 self else self

/-- `gcd:`. -/
def gcd : Nat → Int → Int → Option Int
  | 0,_,_ => none
  | steps + 1,self,anInteger =>
    if anInteger = 0 then some (abs self)
    else gcd steps anInteger (SmallintOp.mod.send self anInteger)

/-- `lcm:`. -/
def lcm (steps : Nat) (self anInteger : Int) : Option Int :=
  if self = 0 then some 0
  else if anInteger = 0 then some 0
  else (gcd steps self anInteger).map fun g =>
    SmallintOp.divFloor.send (abs (SmallintOp.mul.send self anInteger)) g

def radixDigits : List Char :=
  ['0','1','2','3','4','5','6','7','8','9','A','B','C','D','E','F']

/-- The `whileTrue:` loop of `printString:`; none also where there is no such digit. -/
def printDigits (base : Int) : Nat → Int → List Char → Option (List Char)
  | 0,_,_ => none
  | steps + 1,n,result =>
    if 0 < n then
      radixDigits[(SmallintOp.add.send (SmallintOp.mod.send n base) 1 - 1).toNat]?.bind fun c =>
        printDigits base steps (SmallintOp.divFloor.send n base) (c :: result)
    else some result

/-- `printString:`. -/
def printString (base : Int) : Nat → Int → Option (List Char)
  | 0,_ => none
  | steps + 1,self =>
    if self = 0 then some ['0']
    else if self < 0 then (printString base steps (negated self)).map ('-' :: ·)
    else printDigits base steps self []

end SmallInteger

variable {a b v n base : Int} {op : SmallintOp}

/-- The exact result with 63 bits, or the receiver if it does not fit in 64. -/
theorem SmallintOp.send_eq (ha : inSmallInt a) (hb : inSmallInt b) (h : op.exact a b = some v) :
    op.send a b = if inWord v then (v + 2 ^ 62) % 2 ^ 63 - 2 ^ 62 else a := by
  have hcompute := op.compute_eq ha hb
  rw [h] at hcompute
  unfold send
  rw [op.prim_eq]
  simp only [primSmallint,List.getD_cons_zero,List.getD_cons_succ,isSmallInt_smallIntOop,
    Bool.not_true,Bool.false_eq_true,if_false,smallIntVal_inSmallInt ha,smallIntVal_inSmallInt hb,
    hcompute]
  by_cases hv : inWord v
  · simp [Option.filter,hv,smallIntVal_smallIntOop]
  · simp [Option.filter,hv]

theorem SmallintOp.send_exact (ha : inSmallInt a) (hb : inSmallInt b) (h : op.exact a b = some v)
    (hv : inSmallInt v) : op.send a b = v := by
  rw [send_eq ha hb h,if_pos hv.inWord]
  unfold inSmallInt at hv
  omega

namespace SmallInteger

section

variable (ha : inSmallInt a)

include ha

/-- The smallest SmallInteger is its own negation. -/
theorem negated_eq : negated a = if a = -2 ^ 62 then a else -a := by
  have hsend : negated a = _ := SmallintOp.send_eq (by decide) ha rfl
  unfold inSmallInt at ha
  rw [hsend,if_pos (by unfold inWord; omega)]
  split <;> omega

theorem abs_eq : abs a = if a = -2 ^ 62 then a else a.natAbs := by
  have hneg : SmallintOp.sub.send 0 a = _ := negated_eq ha
  unfold abs
  rw [hneg]
  split <;> split <;> omega

theorem mod_send (hb : inSmallInt b) (h0 : b ≠ 0) :
    SmallintOp.mod.send a b = a.fmod b ∧ (a.fmod b).natAbs < b.natAbs := by
  have hlt : (a.fmod b).natAbs < b.natAbs := by
    have h₁ := Int.emod_nonneg a h0
    have h₂ := Int.emod_lt a h0
    have h₃ := @Int.dvd_iff_emod_eq_zero b a
    rw [Int.fmod_eq_emod]
    split <;> omega
  refine ⟨SmallintOp.send_exact ha hb (if_pos h0) ?_,hlt⟩
  unfold inSmallInt at hb ⊢
  omega

theorem divFloor_send (hb : inSmallInt b) (h0 : 0 < b) :
    SmallintOp.divFloor.send a b = a / b := by
  have hle := Int.natAbs_ediv_le_natAbs a b
  have hneg := Int.ediv_nonneg_iff_of_pos (a := a) h0
  refine SmallintOp.send_exact ha hb ?_ ?_
  · simp [SmallintOp.exact,h0.ne',Int.fdiv_eq_ediv_of_nonneg a h0.le]
  · unfold inSmallInt at ha ⊢
    omega

theorem mul_send_inSmallInt (hb : inSmallInt b) :
    inSmallInt (SmallintOp.mul.send a b) := by
  rw [SmallintOp.send_eq ha hb rfl]
  unfold inSmallInt at ha ⊢
  split <;> omega

theorem abs_inSmallInt : inSmallInt (abs a) := by
  rw [abs_eq ha]
  unfold inSmallInt at ha ⊢
  split <;> omega

/-- Euclid's algorithm ends, as the second number gets smaller. -/
theorem gcd_eq {steps : Nat} (hb : inSmallInt b)
    (hgcd : Int.gcd a b < 2 ^ 62) (hsteps : b.natAbs < steps) :
    gcd steps a b = some (Int.gcd a b : Int) := by
  induction steps generalizing a b with
  | zero => omega
  | succ steps ih =>
    unfold gcd
    split
    · next h0 =>
      subst h0
      rw [Int.gcd_zero_right] at hgcd ⊢
      rw [abs_eq ha,if_neg (by omega)]
    · next h0 =>
      obtain ⟨hmod,hlt⟩ := mod_send ha hb h0
      have heq : Int.gcd b (a.fmod b) = Int.gcd a b := by
        rw [Int.fmod_def,Int.gcd_sub_mul_left_right,Int.gcd_comm]
      have hsmall : inSmallInt (a.fmod b) := by
        unfold inSmallInt at hb ⊢
        omega
      rw [hmod,ih hb hsmall (heq ▸ hgcd) (by omega),heq]

theorem lcm_eq {steps : Nat} (hb : inSmallInt b) (ha0 : a ≠ 0) (hb0 : b ≠ 0)
    (hgcd : Int.gcd a b < 2 ^ 62) (hsteps : b.natAbs < steps) :
    lcm steps a b = some (abs (SmallintOp.mul.send a b) / (Int.gcd a b : Int)) := by
  have hpos := Int.gcd_pos_of_ne_zero_left b ha0
  unfold lcm
  rw [if_neg ha0,if_neg hb0,gcd_eq ha hb hgcd hsteps,Option.map_some,
    divFloor_send (abs_inSmallInt (mul_send_inSmallInt ha hb)) (by unfold inSmallInt; omega)
      (by omega)]

/-- A product that is no SmallInteger comes back smaller in size. -/
theorem abs_mul_send (hb : inSmallInt b) :
    if (a * b).natAbs < 2 ^ 62 then abs (SmallintOp.mul.send a b) = (a * b).natAbs
    else abs (SmallintOp.mul.send a b) < (a * b).natAbs := by
  have hmul : SmallintOp.mul.send a b = _ := SmallintOp.send_eq ha hb rfl
  rw [abs_eq (mul_send_inSmallInt ha hb),hmul]
  unfold inSmallInt at ha
  unfold inWord
  split_ifs <;> omega

theorem lcm_correct_iff (hb : inSmallInt b) (hlcm : Int.lcm a b < 2 ^ 62) :
    Answers (lcm · a b) (Int.lcm a b : Int) ↔ (a * b).natAbs < 2 ^ 62 := by
  by_cases h0 : a = 0 ∨ b = 0
  · have hzero : ∀ steps,lcm steps a b = some 0 := by
      intro steps
      unfold lcm
      split_ifs <;> tauto
    rcases h0 with rfl | rfl <;> simp [Answers,hzero]
  obtain ⟨ha0,hb0⟩ := not_or.mp h0
  have hpos := Int.gcd_pos_of_ne_zero_left b ha0
  have hprod : Int.gcd a b * Int.lcm a b = (a * b).natAbs := by
    rw [Int.gcd_mul_lcm,Int.natAbs_mul]
  have hgcd : Int.gcd a b < 2 ^ 62 := by
    have hdvd := (Nat.gcd_dvd_left a.natAbs b.natAbs).trans (Nat.dvd_lcm_left _ b.natAbs)
    exact (Nat.le_of_dvd (Int.lcm_pos ha0 hb0) hdvd).trans_lt hlcm
  have hrun : ∀ steps,b.natAbs < steps → lcm steps a b = _ := fun steps hsteps =>
    lcm_eq ha hb ha0 hb0 hgcd hsteps
  have hmul := abs_mul_send ha hb
  constructor
  · rintro ⟨k,hk⟩
    by_contra hbig
    have hanswer := (hrun (k + b.natAbs + 1) (by omega)).symm.trans (hk _ (by omega))
    rw [if_neg hbig,← hprod] at hmul
    have hle := Int.mul_ediv_self_le (x := abs (SmallintOp.mul.send a b)) (k := Int.gcd a b)
      (by omega)
    rw [Option.some.inj hanswer] at hle
    push_cast at hmul
    omega
  · intro hsmall
    refine ⟨b.natAbs + 1,fun steps hsteps => (hrun steps hsteps).trans ?_⟩
    rw [if_pos hsmall,← hprod] at hmul
    rw [hmul,Nat.cast_mul,Int.mul_ediv_cancel_left _ (by omega)]

end

/-- `gcd:` is right wherever the result is a SmallInteger; `lcm:` exactly if the product is one,
up to the smallest. -/
theorem gcd_lcm_correct_iff {a b : Int} (ha : inSmallInt a) (hb : inSmallInt b) :
    ((Int.gcd a b < 2 ^ 62 → Answers (gcd · a b) (Int.gcd a b : Int)) ∧
        (Int.lcm a b < 2 ^ 62 → Answers (lcm · a b) (Int.lcm a b : Int))) ↔
      (Int.lcm a b < 2 ^ 62 → (a * b).natAbs < 2 ^ 62) := by
  constructor
  · intro h hlcm
    exact (lcm_correct_iff ha hb hlcm).mp (h.2 hlcm)
  · intro h
    refine ⟨fun hgcd => ⟨b.natAbs + 1,fun steps hsteps => gcd_eq ha hb hgcd hsteps⟩,fun hlcm => ?_⟩
    exact (lcm_correct_iff ha hb hlcm).mpr (h hlcm)

theorem gcd_lcm_of_negative : Answers (gcd · (-4) 6) 2 ∧ Answers (lcm · (-4) 6) 12 := by
  have h := (gcd_lcm_correct_iff (a := -4) (b := 6) (by decide) (by decide)).mpr (by decide)
  exact ⟨h.1 (by decide),h.2 (by decide)⟩

/-- The product of 2 ^ 31 with itself is not a SmallInteger, their least multiple is. -/
theorem lcm_of_equal_wraps : Int.lcm (2 ^ 31) (2 ^ 31) = 2 ^ 31 ∧
    lcm 2 (2 ^ 31) (2 ^ 31) = some (-2 ^ 31) := by decide

/-! ## Printing -/

/-- The number that digits stand for. -/
def readDigits (base : Int) (digits : List Char) : Int :=
  digits.foldl (fun v c => v * base + radixDigits.idxOf c) 0

/-- The digits of a number that is not negative, with no zero in front. -/
structure Digits (base n : Int) (digits : List Char) : Prop where
  nonempty : digits ≠ []
  valid : ∀ c ∈ digits,(radixDigits.idxOf c : Int) < base
  plain : digits.head? = some '0' → digits = ['0']
  value : readDigits base digits = n

def Numeral (base n : Int) (text : List Char) : Prop :=
  ∃ digits,text = (if n < 0 then ['-'] else []) ++ digits ∧ Digits base n.natAbs digits

theorem radixDigit :
    ∀ d < 16,∃ c ∈ radixDigits,radixDigits[d]? = some c ∧ radixDigits.idxOf c = d := by
  intro d hd
  interval_cases d <;> exact ⟨_,by decide,rfl,rfl⟩

theorem printDigits_eq (hbase : 2 ≤ base) (hbase' : base ≤ 16) (h0 : 0 ≤ n) (hn : inSmallInt n) :
    ∃ digits,(∀ c ∈ digits,(radixDigits.idxOf c : Int) < base) ∧ digits.head? ≠ some '0' ∧
      readDigits base digits = n ∧ ∀ steps result,n.natAbs < steps →
        printDigits base steps n result = some (digits ++ result) := by
  induction hk : n.natAbs using Nat.strong_induction_on generalizing n with
  | _ k ih =>
  by_cases hpos : 0 < n
  · have hb : inSmallInt base := by
      unfold inSmallInt
      omega
    have hmod := (mod_send hn hb (by omega)).1
    rw [Int.fmod_eq_emod_of_nonneg n (by omega)] at hmod
    have h₁ := Int.emod_nonneg n (by omega : base ≠ 0)
    have h₂ := Int.emod_lt_of_pos n (by omega : 0 < base)
    have hindex : SmallintOp.add.send (n % base) 1 = n % base + 1 :=
      SmallintOp.send_exact (by unfold inSmallInt; omega) (by decide) rfl
        (by unfold inSmallInt; omega)
    obtain ⟨c,-,hc,hidx⟩ := radixDigit (n % base).toNat (by omega)
    have hsum := Int.ediv_mul_add_emod n base
    have hdiv0 := Int.ediv_nonneg h0 (by omega : 0 ≤ base)
    have hdiv : n / base < n := by nlinarith
    obtain ⟨digits,hvalid,hhead,hread,hrun⟩ := ih (n / base).natAbs (by omega) hdiv0
      (by unfold inSmallInt at hn ⊢; omega) rfl
    refine ⟨digits ++ [c],?_,?_,?_,fun steps result hsteps => ?_⟩
    · intro d hd
      rcases List.mem_append.mp hd with hd | hd
      · exact hvalid d hd
      · rw [List.mem_singleton.mp hd,hidx]
        omega
    · intro hzero
      cases digits with
      | nil =>
        have hc0 : radixDigits.idxOf c = 0 := by
          rw [Option.some.inj hzero]
          rfl
        rw [← hread,readDigits,List.foldl_nil] at hsum
        omega
      | cons d digits => exact hhead hzero
    · rw [readDigits,List.foldl_append,← readDigits,hread]
      simp only [List.foldl_cons,List.foldl_nil,hidx]
      omega
    · cases steps with
      | zero => omega
      | succ steps =>
        rw [printDigits,if_pos hpos,hmod,hindex,Int.add_sub_cancel,hc,
          divFloor_send hn hb (by omega)]
        simpa using hrun steps (c :: result) (by omega)
  · refine ⟨[],by simp,by simp,?_,fun steps result hsteps => ?_⟩
    · rw [readDigits,List.foldl_nil]
      omega
    · cases steps with
      | zero => omega
      | succ steps => exact if_neg hpos

theorem printString_of_nonneg (hbase : 2 ≤ base) (hbase' : base ≤ 16) (h0 : 0 ≤ n)
    (hn : inSmallInt n) : ∃ digits,Digits base n digits ∧
      ∀ steps,n.natAbs < steps → printString base (steps + 1) n = some digits := by
  by_cases hzero : n = 0
  · subst hzero
    refine ⟨['0'],⟨by simp,?_,fun _ => rfl,by simp [readDigits,radixDigits]⟩,fun _ _ => rfl⟩
    intro c hc
    rw [List.mem_singleton.mp hc]
    exact lt_of_lt_of_le (by decide) hbase
  · obtain ⟨digits,hvalid,hhead,hvalue,hrun⟩ := printDigits_eq hbase hbase' h0 hn
    refine ⟨digits,⟨?_,hvalid,fun h => absurd h hhead,hvalue⟩,fun steps hsteps => ?_⟩
    · rintro rfl
      exact hzero hvalue.symm
    · rw [printString,if_neg hzero,if_neg (by omega),hrun steps [] hsteps,List.append_nil]

theorem printString_of_min (steps : Nat) : printString base steps (-2 ^ 62) = none := by
  induction steps with
  | zero => rfl
  | succ steps ih =>
    rw [printString,if_neg (by decide),if_pos (by decide),negated_eq (by decide),if_pos rfl,ih]
    rfl

/-- `printString:` answers the numeral of every number but the smallest one, its own negation, on
which the method calls itself without end. -/
theorem printString_numeral_iff {n base : Int} (hn : inSmallInt n) (hbase : 2 ≤ base)
    (hbase' : base ≤ 16) :
    (∃ text,Answers (printString base · n) text ∧ Numeral base n text) ↔ n ≠ -2 ^ 62 := by
  constructor
  · rintro ⟨text,⟨k,hk⟩,-⟩ rfl
    exact absurd ((printString_of_min k).symm.trans (hk k (Nat.le_refl k))) (by simp)
  · intro hmin
    rcases Int.lt_or_le n 0 with hneg | h0
    · have hnegated := (negated_eq hn).trans (if_neg hmin)
      obtain ⟨digits,hdigits,hrun⟩ := printString_of_nonneg hbase hbase' (by omega : 0 ≤ -n)
        (by unfold inSmallInt at hn ⊢; omega)
      refine ⟨'-' :: digits,⟨n.natAbs + 3,fun steps hsteps => ?_⟩,digits,by simp [hneg],
        (by omega : -n = n.natAbs) ▸ hdigits⟩
      obtain ⟨steps,rfl⟩ := Nat.exists_eq_add_of_le' (by omega : 2 ≤ steps)
      show printString base (steps + 1 + 1) n = _
      rw [printString,if_neg (by omega),if_pos hneg,hnegated,hrun steps (by omega)]
      rfl
    · obtain ⟨digits,hdigits,hrun⟩ := printString_of_nonneg hbase hbase' h0 hn
      refine ⟨digits,⟨n.natAbs + 2,fun steps hsteps => ?_⟩,digits,by simp [h0],
        (by omega : n = n.natAbs) ▸ hdigits⟩
      obtain ⟨steps,rfl⟩ := Nat.exists_eq_add_of_le' (by omega : 1 ≤ steps)
      exact hrun steps (by omega)

theorem printString_hex : ∃ text,Answers (printString 16 · (-255)) text ∧ Numeral 16 (-255) text :=
  (printString_numeral_iff (by decide) (by decide) (by decide)).mpr (by decide)

theorem printString_of_min_never_answers :
    ¬ ∃ steps text,printString 10 steps (-2 ^ 62) = some text := by
  rintro ⟨steps,text,h⟩
  exact absurd ((printString_of_min steps).symm.trans h) (by simp)

end SmallInteger

end SmalltalkA
