import SmalltalkA.Vm.SymbolTable

/-! Runs of interning and lookup, with other allocations in the immutable space in between. -/

set_option autoImplicit false

namespace SmalltalkA

open Probing ByteCodec List Option

/-- The immutable space, its objects and the symbol table over them. -/
structure Interner where
  immutable : ImmutableSpace
  mem : Memory
  symbols : SymbolTable

inductive SymbolCall
  | intern (bytes : List Nat)
  | lookup (bytes : List Nat)
  /-- Another object is allocated and filled. -/
  | other (obj : Obj)
  deriving DecidableEq,Repr

def SymbolCall.bytes : SymbolCall → Option (List Nat)
  | .intern bytes => some bytes
  | .lookup bytes => some bytes
  | .other _ => none

def symbolStep (s : Interner) : SymbolCall → Option (Oop × Interner)
  | .intern bytes =>
    (symbolIntern s.immutable s.mem s.symbols bytes).map (fun (o,sp,m,st) => (o,⟨sp,m,st⟩))
  | .lookup bytes => (symbolLookup s.mem s.symbols bytes).map (fun o => (o,s))
  | .other obj =>
    match immutableAlloc s.immutable s.mem obj.classIndex obj.payload.length with
    | none => some (0,s)
    | some (o,sp,m) => some (o,{ s with immutable := sp,mem := m.put o (some obj) })

def symbolRun (s : Interner) : List SymbolCall → Option (List (SymbolCall × Oop) × Interner)
  | [] => some ([],s)
  | c :: cs => do
    let (o,s) ← symbolStep s c
    let (hist,s) ← symbolRun s cs
    return ((c,o) :: hist,s)

/-! ## The bytes of a new Symbol -/

theorem symbolHash_lt (bytes : List Nat) : symbolHash bytes < 2 ^ 32 := by
  have hfold : ∀ (bs : List Nat) (h : Nat),h < 2 ^ 32 →
      bs.foldl (fun h b => (h ^^^ b) * 16777619 % 2 ^ 32) h < 2 ^ 32 := by
    intro bs
    induction bs with
    | nil => exact fun h hh => hh
    | cons b bs ih => exact fun h _ => ih _ (Nat.mod_lt _ (by decide))
  exact hfold bytes _ (by decide)

theorem packWords_bytes {n : Nat} {bytes : List Nat} (hlen : bytes.length ≤ 8 * n)
    (hbytes : ∀ b ∈ bytes,b < 256) :
    (packWords n bytes).flatMap (toLe 8) = bytes ++ List.replicate (8 * n - bytes.length) 0 := by
  induction n generalizing bytes with
  | zero => simp [packWords,eq_nil_of_length_eq_zero (Nat.le_zero.mp hlen)]
  | succ n ih =>
    have hrest := @ih (bytes.drop 8) (by rw [length_drop]; omega)
      (fun b hb => hbytes b (mem_of_mem_drop hb))
    have hword := @toLe_ofLe 8 (bytes.take 8) (by simp) (fun b hb => hbytes b (mem_of_mem_take hb))
    rw [packWords,flatMap_cons,hword,hrest]
    rcases Nat.lt_or_ge bytes.length 8 with hshort | hlong
    · rw [take_of_length_le (by omega),drop_of_length_le (by omega),nil_append,
        append_assoc,length_nil,replicate_append_replicate]
      congr 2
      omega
    · rw [length_take,Nat.min_eq_left hlong,Nat.sub_self,replicate_zero,append_nil,
        ← append_assoc,take_append_drop,length_drop]
      congr 2
      omega

def NulFree (bytes : List Nat) : Prop := ∀ b ∈ bytes,0 < b ∧ b < 256

def ShortString (bytes : List Nat) : Prop := bytes.length < 2 ^ 35 - 16

def symbolWords (len : Nat) : Nat := if len = 0 then 0 else (len + 8) / 8

def newSymbol (bytes : List Nat) : Obj where
  classIndex := clsSymbol
  gcFlags := 0
  objFlags := sharedImmutable
  reserved := (symbolWords bytes.length * 8 - bytes.length) % 8
  payload := symbolHash bytes :: packWords (symbolWords bytes.length) bytes

theorem length_packWords (n : Nat) (bytes : List Nat) : (packWords n bytes).length = n := by
  induction n generalizing bytes with
  | zero => rfl
  | succ n ih => simp [packWords,ih]

variable {bytes : List Nat} {m : Memory} {o : Oop}

theorem newSymbol_field (hb : ∀ b ∈ bytes,b < 256) :
    ∃ rest,symbolField (newSymbol bytes) = bytes ++ 0 :: rest := by
  have hwords := @packWords_bytes (symbolWords bytes.length) bytes
    (by unfold symbolWords; split <;> omega) hb
  rcases Nat.eq_zero_or_pos bytes.length with h0 | hpos
  · obtain rfl := eq_nil_of_length_eq_zero h0
    exact ⟨[],rfl⟩
  · obtain ⟨k,hk⟩ : ∃ k,8 * symbolWords bytes.length - bytes.length = k + 1 :=
      ⟨8 * symbolWords bytes.length - bytes.length - 1,by unfold symbolWords; split <;> omega⟩
    simp only [symbolField,newSymbol,drop_succ_cons,drop_zero,hwords,hk,
      replicate_succ,append_assoc,cons_append]
    exact ⟨_,rfl⟩

theorem takeWhile_nul (bytes rest : List Nat) :
    (bytes ++ 0 :: rest).takeWhile (fun b => decide (b ≠ 0)) =
      bytes.takeWhile (fun b => decide (b ≠ 0)) := by
  induction bytes with
  | nil => simp
  | cons b bytes ih => simp only [cons_append,takeWhile_cons,ih]

theorem symbolGetBytes_cString (hb : ∀ b ∈ bytes,b < 256) (ho : m o = some (newSymbol bytes)) :
    symbolGetBytes m o = some (bytes.takeWhile (fun b => decide (b ≠ 0))) := by
  obtain ⟨rest,hfield⟩ := newSymbol_field hb
  simp only [symbolGetBytes,ho,bind_some,hfield]
  rw [if_pos (by simp),takeWhile_nul]

theorem symbolGetBytes_newSymbol (hb : NulFree bytes) (ho : m o = some (newSymbol bytes)) :
    symbolGetBytes m o = some bytes := by
  rw [symbolGetBytes_cString (fun b h => (hb b h).2) ho]
  exact congrArg some (takeWhile_eq_self_iff.mpr fun b h => by
    simpa using Nat.ne_of_gt (hb b h).1)

theorem symbolGetHash_newSymbol (ho : m o = some (newSymbol bytes)) :
    symbolGetHash m o = some (symbolHash bytes) := by
  simpa [symbolGetHash,Memory.slot,ho,newSymbol] using symbolHash_lt bytes

/-! ## Allocation -/

theorem immutableAlloc_some {sp sp' : ImmutableSpace} {m' : Memory} {classIndex nwords : Nat}
    (h : immutableAlloc sp m classIndex nwords = some (o,sp',m')) :
    ∃ start,sp.used ≤ start ∧ start + allocSize nwords ≤ sp.capacity ∧ o = sp.base + start ∧
      sp' = { sp with used := start + allocSize nwords } ∧ (∃ obj,m' = m.put o (some obj)) ∧
      start % 16 = 0 := by
  unfold immutableAlloc at h
  dsimp only at h
  split at h
  · cases h
  · next hroom =>
    simp only [some.injEq,Prod.mk.injEq] at h
    obtain ⟨rfl,rfl,rfl⟩ := h
    exact ⟨(sp.used + 15) / 16 * 16,by omega,by omega,rfl,rfl,⟨_,rfl⟩,by omega⟩

theorem put_put_same (m : Memory) (o : Oop) (x y : Option Obj) : (m.put o x).put o y = m.put o y := by
  simp [Memory.put]

theorem allocSymbol_short (sp : ImmutableSpace) (m : Memory) (hshort : ShortString bytes) :
    immutableAlloc sp m clsSymbol (1 + symbolWords bytes.length) = none ∧
        allocSymbol sp m bytes (symbolHash bytes) = some (0,sp,m) ∨
      ∃ start used,sp.used ≤ start ∧ start + 16 ≤ used ∧ used ≤ sp.capacity ∧ start % 16 = 0 ∧
        allocSymbol sp m bytes (symbolHash bytes) = some (sp.base + start,{ sp with used := used },
          m.put (sp.base + start) (some (newSymbol bytes))) := by
  unfold ShortString at hshort
  have hwords : (if bytes.length = 0 then 0 else (bytes.length + 8) / 8 % 2 ^ 32) =
      symbolWords bytes.length := by
    unfold symbolWords
    split
    · rfl
    · exact Nat.mod_eq_of_lt (by omega)
  have hlt : 1 + symbolWords bytes.length < 2 ^ 32 := by
    unfold symbolWords
    split <;> omega
  have hfit : ¬ (1 + symbolWords bytes.length) * 8 < 8 + bytes.length := by
    unfold symbolWords
    split <;> omega
  unfold allocSymbol
  simp only [hwords,Nat.mod_eq_of_lt hlt]
  cases halloc : immutableAlloc sp m clsSymbol (1 + symbolWords bytes.length) with
  | none => exact .inl ⟨rfl,rfl⟩
  | some p =>
    obtain ⟨o,sp',m'⟩ := p
    obtain ⟨start,hused,hroom,rfl,rfl,⟨obj,rfl⟩,halign⟩ := immutableAlloc_some halloc
    refine .inr ⟨start,_,hused,?_,hroom,halign,?_⟩
    · unfold allocSize
      omega
    · simp only [if_neg hfit,put_put_same]
      rfl

/-! ## One call -/

/-- What holds between calls: the table is sound, every entry took room in the space, and the rest
of the space is free. -/
structure Interner.Inv (s : Interner) : Prop where
  sound : s.symbols.Sound s.mem
  slots : s.symbols.slots.length ≤ 2 ^ 29
  counted : s.symbols.count * 16 ≤ s.immutable.used
  used : s.immutable.used ≤ s.immutable.capacity
  capacity : s.immutable.capacity ≤ 2 ^ 31
  free : ∀ o,s.immutable.base + s.immutable.used ≤ o →
    o < s.immutable.base + s.immutable.capacity → s.mem o = none
  mapped : 0 < s.immutable.base
  nonzero : ∀ o ∈ entries s.symbols.slots,o ≠ 0

def Interner.Holds (s : Interner) (bytes : List Nat) (o : Oop) : Prop :=
  o ∈ entries s.symbols.slots ∧ symbolGetBytes s.mem o = some bytes

section

variable {s s' : Interner} {bytes : List Nat} {o : Oop}

theorem Interner.Inv.entry_ne (h : s.Inv) (ho : o ∈ entries s.symbols.slots) {start : Nat}
    (hstart : s.immutable.used ≤ start) (hend : start < s.immutable.capacity) :
    o ≠ s.immutable.base + start := by
  rintro rfl
  obtain ⟨b,hb,-⟩ := h.sound.hashed _ ho
  have hnone := h.free (s.immutable.base + start) (Nat.add_le_add_left hstart _)
    (Nat.add_lt_add_left hend _)
  simp [symbolGetBytes,hnone] at hb

theorem Interner.Holds.unique (h : s.Inv) {p : Oop} (ho : s.Holds bytes o)
    (hp : s.Holds bytes p) : o = p := by
  obtain ⟨i,hi⟩ := mem_entries.mp ho.1
  obtain ⟨j,hj⟩ := mem_entries.mp hp.1
  obtain rfl := slot_unique h.sound.distinct hi hj (ho.2.trans hp.2.symm)
  exact Option.some.inj (Option.some.inj (hi.symm.trans hj))

theorem Interner.Inv.put (h : s.Inv) {start used : Nat} (hstart : s.immutable.used ≤ start)
    (hused : start < used) (hroom : used ≤ s.immutable.capacity) (obj : Obj) :
    let s' : Interner := ⟨{ s.immutable with used := used },
      s.mem.put (s.immutable.base + start) (some obj),s.symbols⟩
    s'.Inv ∧ ∀ b o,s'.Holds b o ↔ s.Holds b o := by
  have hother : ∀ o ∈ entries s.symbols.slots,
      s.mem.put (s.immutable.base + start) (some obj) o = s.mem o :=
    fun o ho => Memory.put_other (h.entry_ne ho hstart (by omega)) _
  refine ⟨⟨h.sound.congr hother,h.slots,?_,hroom,h.capacity,fun o hlow hhigh => ?_,h.mapped,
    h.nonzero⟩,fun b o => and_congr_right (fun ho => ?_)⟩
  · have := h.counted
    dsimp only
    omega
  · dsimp only at hlow hhigh ⊢
    have hne : o ≠ s.immutable.base + start := by
      intro heq
      rw [heq] at hlow
      omega
    rw [Memory.put_other hne]
    exact h.free o (by omega) hhigh
  · simp only [symbolGetBytes,hother o ho]

/-- What a call with an answer does: Symbols stay, and the only new one is the answer. -/
structure Answered (s : Interner) (c : SymbolCall) (o : Oop) (s' : Interner) : Prop where
  inv : s'.Inv
  kept : ∀ b p,s.Holds b p → s'.Holds b p
  new : ∀ b p,s'.Holds b p → s.Holds b p ∨ c = .intern b ∧ p = o
  answer : ∀ b,c.bytes = some b → o ≠ 0 → s'.Holds b o
  found : ∀ b p,c.bytes = some b → s.Holds b p → o ≠ 0

variable {c : SymbolCall} {hist : List (SymbolCall × Oop)}

theorem Answered.same (hinv : s'.Inv) (hsame : ∀ b p,s'.Holds b p ↔ s.Holds b p)
    (hanswer : ∀ b,c.bytes = some b → o ≠ 0 → s.Holds b o)
    (hfound : ∀ b p,c.bytes = some b → s.Holds b p → o ≠ 0) : Answered s c o s' :=
  ⟨hinv,fun b p => (hsame b p).mpr,fun b p hp => .inl ((hsame b p).mp hp),
    fun b hc ho => (hsame b o).mpr (hanswer b hc ho),hfound⟩

theorem lookup_answered (h : s.Inv) (bytes : List Nat) :
    ∃ o s',symbolStep s (.lookup bytes) = some (o,s') ∧ Answered s (.lookup bytes) o s' := by
  by_cases hold : ∃ p,s.Holds bytes p
  · obtain ⟨p,hp⟩ := hold
    obtain ⟨i,hi,hget⟩ := h.sound.probe_entry hp.1 hp.2
    refine ⟨p,s,?_,.same h (fun _ _ => Iff.rfl) ?_ (fun _ _ _ _ => h.nonzero p hp.1)⟩
    · simp only [symbolStep,symbolLookup,hi,map_some,hget,getD_some]
    · rintro b ⟨⟩ -
      exact hp
  · obtain ⟨i,hi,hempty⟩ := h.sound.probe_new (fun r hr hb => hold ⟨r,hr,hb⟩) (symbolHash bytes)
    refine ⟨0,s,?_,.same h (fun _ _ => Iff.rfl) (fun _ _ h0 => absurd rfl h0) ?_⟩
    · simp [symbolStep,symbolLookup,hi,List.getD,hempty]
    · rintro b p ⟨⟩ hp
      exact absurd ⟨p,hp⟩ hold

theorem other_answered (h : s.Inv) (obj : Obj) :
    ∃ o s',symbolStep s (.other obj) = some (o,s') ∧ Answered s (.other obj) o s' := by
  simp only [symbolStep]
  cases halloc : immutableAlloc s.immutable s.mem obj.classIndex obj.payload.length with
  | none => exact ⟨0,s,rfl,.same h (fun _ _ => Iff.rfl) nofun nofun⟩
  | some r =>
    obtain ⟨o,sp,m⟩ := r
    obtain ⟨start,hused,hroom,rfl,rfl,⟨obj',rfl⟩,-⟩ := immutableAlloc_some halloc
    refine ⟨_,_,rfl,?_⟩
    rw [put_put_same]
    obtain ⟨hinv,hsame⟩ := h.put hused (by unfold allocSize; omega) hroom obj
    exact .same hinv hsame nofun nofun

/-- A new Symbol for a string that none has, added where the search for it has ended. -/
theorem add_answered {s₁ s₂ : Interner} (hsame₁ : ∀ b p,s₁.Holds b p ↔ s.Holds b p) (h₂ : s₂.Inv)
    (hsame₂ : ∀ b p,s₂.Holds b p ↔ s₁.Holds b p) (hst : s₂.symbols = s₁.symbols)
    (hold : ¬ ∃ p,s.Holds bytes p) {j : Nat}
    (hj : s₁.symbols.probe s₁.mem bytes (symbolHash bytes) = some j)
    (hempty : s₁.symbols.slots[j]? = some none)
    (hload : (s₁.symbols.count + 1) * 10 ≤ s₁.symbols.slots.length * 7) (ho : o ≠ 0)
    (hobj : s₂.mem o = some (newSymbol bytes)) (hb : NulFree bytes)
    (hcount : (s₁.symbols.count + 1) * 16 ≤ s₂.immutable.used) :
    Answered s (.intern bytes) o { s₂ with symbols := s₂.symbols.add j o } := by
  have hbytes := symbolGetBytes_newSymbol hb hobj
  have hnew : ∀ r ∈ entries s₂.symbols.slots,symbolGetBytes s₂.mem r ≠ some bytes :=
    fun r hr heq => hold ⟨r,(hsame₁ _ r).mp ((hsame₂ _ r).mp ⟨hr,heq⟩)⟩
  have hprobe : s₂.symbols.probe s₂.mem bytes (symbolHash bytes) = some j := by
    rw [← hj,hst]
    refine probe_congr (fun r i hr => ?_) _
    have hmem₁ : r ∈ entries s₁.symbols.slots := mem_entries.mpr ⟨i,hr⟩
    have hmem₂ : r ∈ entries s₂.symbols.slots := by rw [hst]; exact hmem₁
    have hiff := hsame₂ bytes r
    simp only [Interner.Holds,hmem₁,hmem₂,true_and] at hiff
    exact Bool.eq_iff_iff.mpr (by simpa using hiff)
  rw [← hst] at hempty hload hcount
  obtain ⟨hsound,hperm⟩ := h₂.sound.add hprobe hempty hload hbytes
    (symbolGetHash_newSymbol hobj) hnew
  have hholds : ∀ b p,({ s₂ with symbols := s₂.symbols.add j o } : Interner).Holds b p ↔
      s.Holds b p ∨ b = bytes ∧ p = o := by
    intro b p
    rw [← hsame₁,← hsame₂]
    simp only [Interner.Holds,hperm.mem_iff,mem_cons]
    constructor
    · rintro ⟨rfl | hp,hpb⟩
      · exact .inr ⟨Option.some.inj (hpb.symm.trans hbytes),rfl⟩
      · exact .inl ⟨hp,hpb⟩
    · rintro (⟨hp,hpb⟩ | ⟨rfl,rfl⟩)
      · exact ⟨.inr hp,hpb⟩
      · exact ⟨.inl rfl,hbytes⟩
  refine ⟨⟨hsound,?_,hcount,h₂.used,h₂.capacity,h₂.free,h₂.mapped,fun p hp => ?_⟩,
    fun b p hp => (hholds b p).mpr (.inl hp),fun b p hp => ?_,?_,fun _ _ _ _ => ho⟩
  · simpa [SymbolTable.add] using h₂.slots
  · rcases mem_cons.mp (hperm.mem_iff.mp hp) with rfl | hp
    · exact ho
    · exact h₂.nonzero p hp
  · rcases (hholds b p).mp hp with hp | ⟨rfl,rfl⟩
    · exact .inl hp
    · exact .inr ⟨rfl,rfl⟩
  · rintro b ⟨⟩ -
    exact (hholds _ _).mpr (.inr ⟨rfl,rfl⟩)

theorem Interner.Inv.intern_new (h : s.Inv)
    (hnew : ∀ r ∈ entries s.symbols.slots,symbolGetBytes s.mem r ≠ some bytes) :
    ∃ st j,st.Sound s.mem ∧ st.probe s.mem bytes (symbolHash bytes) = some j ∧
      st.slots[j]? = some none ∧ (st.count + 1) * 10 ≤ st.slots.length * 7 ∧
      st.count = s.symbols.count ∧ st.slots.length ≤ 2 ^ 29 ∧
      (entries st.slots).Perm (entries s.symbols.slots) ∧
      symbolIntern s.immutable s.mem s.symbols bytes =
        (allocSymbol s.immutable s.mem bytes (symbolHash bytes)).map
          (fun (o,sp,m) => (o,sp,m,if o = 0 then st else st.add j o)) := by
  obtain ⟨i,hi,hempty⟩ := h.sound.probe_new hnew (symbolHash bytes)
  have hsmall : s.symbols.Small (0 + 1) := ⟨h.slots,by
    have := h.counted
    have := h.used
    have := h.capacity
    omega⟩
  obtain ⟨st,j,hroom,hsound,hj,hjempty,hload,hcount,hlen,hperm⟩ :=
    h.sound.makeRoom hsmall hi hempty hnew
  refine ⟨st,j,hsound,hj,hjempty,hload,hcount,hlen,hperm,?_⟩
  simp only [symbolIntern,hi,bind_eq_bind,bind_some,List.getD,hempty,
    getD_some,hroom,Option.pure_def]
  cases allocSymbol s.immutable s.mem bytes (symbolHash bytes) <;> rfl

theorem intern_answered (h : s.Inv) (hb : NulFree bytes) (hshort : ShortString bytes) :
    ∃ o s',symbolStep s (.intern bytes) = some (o,s') ∧ Answered s (.intern bytes) o s' := by
  simp only [symbolStep]
  by_cases hold : ∃ p,s.Holds bytes p
  · obtain ⟨p,hp⟩ := hold
    have hintern := symbolIntern_entry s.immutable h.sound hp.1 hp.2
    refine ⟨p,s,by rw [hintern]; rfl,.same h (fun _ _ => Iff.rfl) ?_
      (fun _ _ _ _ => h.nonzero p hp.1)⟩
    rintro b ⟨⟩ -
    exact hp
  · obtain ⟨st,j,hsound,hj,hjempty,hload,hcount,hlen,hperm,hintern⟩ :=
      h.intern_new (fun r hr heq => hold ⟨r,hr,heq⟩)
    -- the table may have grown; its entries have not changed
    let s₁ : Interner := { s with symbols := st }
    have hinv₁ : s₁.Inv := ⟨hsound,hlen,by have := h.counted; simpa [s₁,hcount] using this,h.used,
      h.capacity,h.free,h.mapped,fun o ho => h.nonzero o (hperm.mem_iff.mp ho)⟩
    have hsame₁ : ∀ b p,s₁.Holds b p ↔ s.Holds b p := fun b p => and_congr_left' hperm.mem_iff
    rw [hintern]
    rcases allocSymbol_short s.immutable s.mem hshort with ⟨-,hfull⟩ |
      ⟨start,used,hstart,hused,hcap,-,halloc⟩
    · refine ⟨0,s₁,by rw [hfull]; rfl,.same hinv₁ hsame₁ (fun _ _ h0 => absurd rfl h0) ?_⟩
      rintro b p ⟨⟩ hp
      exact absurd ⟨p,hp⟩ hold
    · obtain ⟨hinv₂,hsame₂⟩ := hinv₁.put hstart (by omega) hcap (newSymbol bytes)
      have hne : s.immutable.base + start ≠ 0 := by
        have := h.mapped
        omega
      refine ⟨s.immutable.base + start,⟨{ s.immutable with used := used },
        s.mem.put (s.immutable.base + start) (some (newSymbol bytes)),
        st.add j (s.immutable.base + start)⟩,?_,?_⟩
      · rw [halloc]
        simp only [map_some,if_neg hne]
      · refine add_answered hsame₁ hinv₂ hsame₂ rfl hold hj hjempty hload hne
          (Memory.put_same _ _ _) hb ?_
        have := h.counted
        dsimp only [s₁]
        omega

def SymbolCall.Valid (c : SymbolCall) : Prop := ∀ b,c.bytes = some b → NulFree b

def SymbolCall.Fits : SymbolCall → Prop
  | .intern bytes => ShortString bytes
  | _ => True

theorem symbolStep_answered (h : s.Inv) (hvalid : c.Valid) (hfits : c.Fits) :
    ∃ o s',symbolStep s c = some (o,s') ∧ Answered s c o s' := by
  cases c with
  | intern bytes => exact intern_answered h (hvalid bytes rfl) hfits
  | lookup bytes => exact lookup_answered h bytes
  | other obj => exact other_answered h obj

/-! ## Runs -/

def InternedIn (hist : List (SymbolCall × Oop)) (b : List Nat) : Prop :=
  ∃ p,p ≠ 0 ∧ (SymbolCall.intern b,p) ∈ hist

/-- The table knows what was interned, and the answers are its entries. -/
structure Known (hist : List (SymbolCall × Oop)) (s : Interner) : Prop where
  interned : ∀ b p,s.Holds b p → InternedIn hist b
  answers : ∀ c o b,(c,o) ∈ hist → c.bytes = some b → o ≠ 0 → s.Holds b o

/-- Interning and lookup give one object for each string: answers are the same if and only if the
strings are, and a string is found if and only if it was interned before. -/
structure CanonicalAnswers (hist : List (SymbolCall × Oop)) : Prop where
  same : ∀ c d o p b b',(c,o) ∈ hist → (d,p) ∈ hist → c.bytes = some b → d.bytes = some b' →
    o ≠ 0 → p ≠ 0 → (o = p ↔ b = b')
  lookups : ∀ pre post o b,hist = pre ++ (SymbolCall.lookup b,o) :: post →
    (o ≠ 0 ↔ InternedIn pre b)
  again : ∀ pre post o b,hist = pre ++ (SymbolCall.intern b,o) :: post → InternedIn pre b → o ≠ 0

theorem InternedIn.mono {hist' : List (SymbolCall × Oop)} {b : List Nat} (h : InternedIn hist b)
    (hsub : ∀ x ∈ hist,x ∈ hist') : InternedIn hist' b := by
  obtain ⟨p,hp,hmem⟩ := h
  exact ⟨p,hp,hsub _ hmem⟩

theorem Known.step (hk : Known hist s) (ha : Answered s c o s') : Known (hist ++ [(c,o)]) s' where
  interned := by
    intro b p hp
    rcases ha.new b p hp with hp | ⟨rfl,rfl⟩
    · exact (hk.interned b p hp).mono (by simp +contextual)
    · exact ⟨p,ha.inv.nonzero p hp.1,by simp⟩
  answers := by
    intro d q b hmem hb hq
    rcases mem_append.mp hmem with hmem | hmem
    · exact ha.kept b q (hk.answers d q b hmem hb hq)
    · obtain ⟨rfl,rfl⟩ := Prod.mk.inj (mem_singleton.mp hmem)
      exact ha.answer b hb hq

theorem Known.found_iff {b : List Nat} (hk : Known hist s) (ha : Answered s c o s')
    (hb : c.bytes = some b) :
    (InternedIn hist b → o ≠ 0) ∧ (o ≠ 0 → c ≠ .intern b → InternedIn hist b) := by
  constructor
  · rintro ⟨p,hp,hmem⟩
    exact ha.found b p hb (hk.answers _ p b hmem rfl hp)
  · intro ho hc
    rcases ha.new b o (ha.answer b hb ho) with hold | ⟨rfl,-⟩
    · exact hk.interned b o hold
    · exact absurd rfl hc

theorem symbolRun_answered {calls : List SymbolCall} (hvalid : ∀ c ∈ calls,c.Valid)
    (hfits : ∀ c ∈ calls,c.Fits) (h : s.Inv) (hk : Known hist s) :
    ∃ hist' s',symbolRun s calls = some (hist',s') ∧ s'.Inv ∧ Known (hist ++ hist') s' ∧
      ∀ pre post c o b,hist' = pre ++ (c,o) :: post → c.bytes = some b →
        (InternedIn (hist ++ pre) b → o ≠ 0) ∧
          (o ≠ 0 → c ≠ .intern b → InternedIn (hist ++ pre) b) := by
  induction calls generalizing s hist with
  | nil => exact ⟨[],s,rfl,h,by simpa using hk,by simp⟩
  | cons c cs ih =>
    obtain ⟨o,s₁,hstep,ha⟩ := symbolStep_answered h (hvalid c mem_cons_self) (hfits c mem_cons_self)
    obtain ⟨hist',s',hrun,hinv,hk',hrest⟩ := ih (fun d hd => hvalid d (mem_cons_of_mem c hd))
      (fun d hd => hfits d (mem_cons_of_mem c hd)) ha.inv (hk.step ha)
    refine ⟨(c,o) :: hist',s',by simp [symbolRun,hstep,hrun],hinv,by simpa using hk',?_⟩
    intro pre post d p b heq hb
    cases pre with
    | nil =>
      obtain ⟨⟨rfl,rfl⟩,-⟩ := by simpa using heq
      simpa using hk.found_iff ha hb
    | cons x pre =>
      obtain ⟨rfl,hpost⟩ := by simpa using heq
      simpa using hrest pre post d p b hpost hb

theorem symbolRun_calls {calls : List SymbolCall} (h : symbolRun s calls = some (hist,s')) :
    hist.map Prod.fst = calls := by
  induction calls generalizing s hist with
  | nil =>
    cases h
    rfl
  | cons c cs ih =>
    simp only [symbolRun,bind_eq_bind,bind_eq_some_iff,Prod.exists,Option.pure_def,
      some.injEq,Prod.mk.injEq] at h
    obtain ⟨o,s₁,-,hist',s₂,hrun,rfl,rfl⟩ := h
    rw [map_cons,ih hrun]

/-- A new table over a space of at most 2 GiB. -/
structure Interner.Start (s : Interner) : Prop where
  symbols : ∃ n,0 < n ∧ n ≤ 2 ^ 29 ∧ s.symbols = ⟨List.replicate n none,0⟩
  used : s.immutable.used ≤ s.immutable.capacity
  capacity : s.immutable.capacity ≤ 2 ^ 31
  mapped : 0 < s.immutable.base
  free : ∀ o,s.immutable.base + s.immutable.used ≤ o →
    o < s.immutable.base + s.immutable.capacity → s.mem o = none

theorem SymbolTable.sound_empty (m : Memory) {n : Nat} (hn : 0 < n) :
    SymbolTable.Sound m ⟨List.replicate n none,0⟩ where
  counted := by simp [entries_replicate]
  load := by simp
  nonempty := by simpa using hn
  chained := chained_replicate _ n
  hashed := by simp [entries_replicate]
  distinct := by simp [entries_replicate]

theorem Interner.Start.inv (h : s.Start) : s.Inv ∧ Known [] s := by
  obtain ⟨n,hn,hslots,hsymbols⟩ := h.symbols
  refine ⟨⟨by rw [hsymbols]; exact SymbolTable.sound_empty _ hn,by simpa [hsymbols] using hslots,
    by simp [hsymbols],h.used,h.capacity,h.free,h.mapped,by simp [hsymbols,entries_replicate]⟩,
    ⟨fun b p hp => ?_,nofun⟩⟩
  have hmem := hp.1
  rw [hsymbols,entries_replicate] at hmem
  cases hmem

/-- From a new table on, all calls are answered and the answers are canonical, as long as no string
is too long for its Symbol. -/
theorem interning_canonical {calls : List SymbolCall} (h : s.Start)
    (hvalid : ∀ c ∈ calls,c.Valid) (hfits : ∀ c ∈ calls,c.Fits) :
    ∃ hist s',symbolRun s calls = some (hist,s') ∧ hist.map Prod.fst = calls ∧
      CanonicalAnswers hist := by
  obtain ⟨hinv₀,hk₀⟩ := h.inv
  obtain ⟨hist,s',hrun,hinv,hk,hsplit⟩ := symbolRun_answered hvalid hfits hinv₀ hk₀
  refine ⟨hist,s',hrun,symbolRun_calls hrun,?_,fun pre post o b heq => ?_,
    fun pre post o b heq => ?_⟩
  · intro c d o p b b' hc hd hcb hdb ho hp
    have hob := hk.answers c o b hc hcb ho
    have hpb := hk.answers d p b' hd hdb hp
    constructor
    · rintro rfl
      exact Option.some.inj (hob.2.symm.trans hpb.2)
    · rintro rfl
      exact hob.unique hinv hpb
  · have hfound := hsplit pre post _ o b heq rfl
    exact ⟨fun ho => hfound.2 ho nofun,hfound.1⟩
  · exact (hsplit pre post _ o b heq rfl).1

end

def newInterner : Interner :=
  ⟨⟨65536,4194304,0,false⟩,fun _ => none,⟨List.replicate 512 none,0⟩⟩

theorem newInterner_start : newInterner.Start :=
  ⟨⟨512,by decide,by decide,rfl⟩,by decide,by decide,by decide,fun _ _ _ => rfl⟩

/-- The empty string, a string twice, and one that is not there. -/
theorem interning_canonical_some :
    ∃ hist s',symbolRun newInterner [.intern [],.intern [97],.other (newObj clsArray 3),
        .lookup [97],.lookup [98]] = some (hist,s') ∧
      hist.map Prod.fst = [.intern [],.intern [97],.other (newObj clsArray 3),.lookup [97],
        .lookup [98]] ∧ CanonicalAnswers hist := by
  refine interning_canonical newInterner_start ?_ ?_
  · simp [SymbolCall.Valid,SymbolCall.bytes,NulFree]
  · simp [SymbolCall.Fits,ShortString]

theorem overrun_of_length (hlen : bytes.length = 2 ^ 35) :
    symbolRun newInterner [.intern bytes] = none := by
  obtain ⟨hinv,-⟩ := newInterner_start.inv
  have hnew : ∀ r ∈ entries newInterner.symbols.slots,
      symbolGetBytes newInterner.mem r ≠ some bytes := by
    rw [show entries newInterner.symbols.slots = [] from entries_replicate 512]
    nofun
  obtain ⟨_,_,-,-,-,-,-,-,-,hintern⟩ := hinv.intern_new hnew
  have halloc : allocSymbol newInterner.immutable newInterner.mem bytes (symbolHash bytes) =
      none := by
    rw [show newInterner.immutable = ⟨65536,4194304,0,false⟩ from rfl]
    simp [allocSymbol,hlen,immutableAlloc,allocSize]
  simp [symbolRun,symbolStep,hintern,halloc]

/-- The bytes of the string are copied over the end of its Symbol. -/
theorem long_symbol_overruns :
    symbolRun newInterner [.intern (List.replicate (2 ^ 35) 97)] = none :=
  overrun_of_length length_replicate

end SmalltalkA
