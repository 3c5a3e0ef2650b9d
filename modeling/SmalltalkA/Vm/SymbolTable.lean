import SmalltalkA.Memory
import SmalltalkA.Lib.Probing
import SmalltalkA.Lib.ByteCodec

/-! Interned symbols (`symbol_table.c`) and the shared immutable space they live in
(`immutable_space.c`). -/

set_option autoImplicit false

namespace SmalltalkA

open Probing ByteCodec List

/-- `STA_ImmutableSpace`. -/
structure ImmutableSpace where
  base : Nat
  capacity : Nat
  used : Nat
  isSealed : Bool
  deriving DecidableEq,Repr

/-- `STA_OBJ_IMMUTABLE | STA_OBJ_SHARED_IMM`. -/
def sharedImmutable : Nat := 9

/-- `sta_immutable_alloc`. -/
def immutableAlloc (sp : ImmutableSpace) (m : Memory) (classIndex nwords : Nat) :
    Option (Oop × ImmutableSpace × Memory) :=
  let aligned := (sp.used + 15) / 16 * 16
  if sp.isSealed ∨ aligned + allocSize nwords > sp.capacity then none
  else
    let o := sp.base + aligned
    some (o,{ sp with used := aligned + allocSize nwords },
      m.put o (some { newObj classIndex nwords with objFlags := sharedImmutable }))

/-- `sta_symbol_hash`: FNV-1a in 32 bits. -/
def symbolHash (bytes : List Nat) : Nat :=
  bytes.foldl (fun h b => (h ^^^ b) * 16777619 % 2 ^ 32) 2166136261

/-- The bytes of a Symbol from its second word on, with the gap up to the next allocation unit.
The gap is never written. -/
def symbolField (obj : Obj) : List Nat :=
  (obj.payload.drop 1).flatMap (toLe 8) ++ if obj.payload.length % 2 = 1 then [0] else []

/-- `sta_symbol_get_bytes`: up to the first NUL; without one the read leaves the object. -/
def symbolGetBytes (m : Memory) (s : Oop) : Option (List Nat) :=
  (m s).bind (fun obj =>
    if 0 ∈ symbolField obj then some ((symbolField obj).takeWhile (· ≠ 0)) else none)

/-- `sta_symbol_get_hash`. -/
def symbolGetHash (m : Memory) (s : Oop) : Option Nat := (m.slot s 0).map (· % 2 ^ 32)

/-- `STA_SymbolTable`; an empty slot is none. The capacity is a power of two, so that masking an
index is taking a remainder. -/
structure SymbolTable where
  slots : List (Option Oop)
  count : Nat
  deriving DecidableEq,Repr

namespace SymbolTable

/-- `probe`; an entry whose bytes do not end equals nothing. -/
def probe (m : Memory) (st : SymbolTable) (bytes : List Nat) (hash : Nat) : Option Nat :=
  Probing.probe (fun s => symbolGetBytes m s == some bytes) st.slots hash

def home (m : Memory) (s : Oop) : Nat := (symbolGetHash m s).getD 0

/-- `table_grow`. -/
def grow (m : Memory) (st : SymbolTable) : Option SymbolTable :=
  (insertAll (home m) (entries st.slots)
    (List.replicate (st.slots.length * 2 % 2 ^ 32) none)).map (fun slots => { st with slots := slots })

def crowded (st : SymbolTable) : Bool :=
  st.slots.length * 7 % 2 ^ 32 < (st.count + 1) * 10 % 2 ^ 32

/-- The slot for a symbol that is not in the table, after growth if that is due. -/
def makeRoom (m : Memory) (st : SymbolTable) (bytes : List Nat) (hash idx : Nat) :
    Option (SymbolTable × Nat) :=
  if st.crowded then do
    let st ← st.grow m
    return (st,← st.probe m bytes hash)
  else some (st,idx)

def add (st : SymbolTable) (idx : Nat) (s : Oop) : SymbolTable :=
  ⟨st.slots.set idx (some s),st.count + 1⟩

end SymbolTable

def packWords : Nat → List Nat → List Oop
  | 0,_ => []
  | n + 1,bytes => ofLe (bytes.take 8) :: packWords n (bytes.drop 8)

/-- `alloc_symbol`: the new Symbol, or 0 if the space is exhausted. The number of words is cut to 32
bits; none if the bytes then do not fit in the object. -/
def allocSymbol (sp : ImmutableSpace) (m : Memory) (bytes : List Nat) (hash : Nat) :
    Option (Oop × ImmutableSpace × Memory) :=
  let byteWords := if bytes.length = 0 then 0 else (bytes.length + 8) / 8 % 2 ^ 32
  let nwords := (1 + byteWords) % 2 ^ 32
  match immutableAlloc sp m clsSymbol nwords with
  | none => some (0,sp,m)
  | some (o,sp,m) =>
    if nwords * 8 < 8 + bytes.length then none
    else some (o,sp,m.put o (some {
      newObj clsSymbol nwords with
      objFlags := sharedImmutable
      reserved := (byteWords * 8 - bytes.length) % 8
      payload := hash :: packWords byteWords bytes }))

/-- `sta_symbol_lookup`: 0 if the bytes are not interned. -/
def symbolLookup (m : Memory) (st : SymbolTable) (bytes : List Nat) : Option Oop :=
  (st.probe m bytes (symbolHash bytes)).map (fun idx => (st.slots.getD idx none).getD 0)

/-- `sta_symbol_intern`: 0 if the space is exhausted. -/
def symbolIntern (sp : ImmutableSpace) (m : Memory) (st : SymbolTable) (bytes : List Nat) :
    Option (Oop × ImmutableSpace × Memory × SymbolTable) := do
  let hash := symbolHash bytes
  let idx ← st.probe m bytes hash
  match st.slots.getD idx none with
  | some s => some (s,sp,m,st)
  | none =>
    let (st,idx) ← st.makeRoom m bytes hash idx
    let (s,sp,m) ← allocSymbol sp m bytes hash
    return (s,sp,m,if s = 0 then st else st.add idx s)

/-! ## Sound tables -/

/-- The table is as interning leaves it: at most 70 % full, entries are found by the hash of their
bytes, and no two have the same bytes. -/
structure SymbolTable.Sound (m : Memory) (st : SymbolTable) : Prop where
  counted : st.count = (entries st.slots).length
  load : st.count * 10 ≤ st.slots.length * 7
  nonempty : 0 < st.slots.length
  chained : Probing.Chained (SymbolTable.home m) st.slots
  hashed : ∀ s ∈ entries st.slots,∃ bytes,symbolGetBytes m s = some bytes ∧
    symbolGetHash m s = some (symbolHash bytes)
  distinct : ((entries st.slots).map (symbolGetBytes m)).Nodup

/-- So few symbols that the products of 32 bits do not wrap, when `n` more come. -/
structure SymbolTable.Small (st : SymbolTable) (n : Nat) : Prop where
  slots : st.slots.length ≤ 2 ^ 29
  symbols : (st.count + n) * 10 ≤ 7 * 2 ^ 28

section

variable {m m' : Memory} {st st' : SymbolTable} {s : Oop} {bytes : List Nat}

namespace SymbolTable

theorem Sound.congr (h : st.Sound m) (heq : ∀ s ∈ entries st.slots,m' s = m s) : st.Sound m' := by
  have hbytes : ∀ s ∈ entries st.slots,symbolGetBytes m' s = symbolGetBytes m s := by
    intro s hs
    simp only [symbolGetBytes,heq s hs]
  have hhash : ∀ s ∈ entries st.slots,symbolGetHash m' s = symbolGetHash m s := by
    intro s hs
    simp only [symbolGetHash,Memory.slot,heq s hs]
  refine ⟨h.counted,h.load,h.nonempty,fun i s hi => ?_,fun s hs => ?_,?_⟩
  · have hhome : home m' s = home m s := by
      rw [home,home,hhash s (mem_entries.mpr ⟨i,hi⟩)]
    rw [hhome]
    exact h.chained i s hi
  · rw [hbytes s hs,hhash s hs]
    exact h.hashed s hs
  · rw [map_congr_left hbytes]
    exact h.distinct

theorem Sound.exists_empty (h : st.Sound m) : ∃ i : Nat,st.slots[i]? = some none := by
  refine Probing.exists_empty ?_
  have := h.load
  have := h.counted
  have := h.nonempty
  omega

theorem home_of {b : List Nat} (hh : symbolGetHash m s = some (symbolHash b)) :
    home m s = symbolHash b := by
  rw [home,hh]
  rfl

theorem Sound.probe_entry (h : st.Sound m) (hs : s ∈ entries st.slots)
    (hb : symbolGetBytes m s = some bytes) :
    ∃ i,st.probe m bytes (symbolHash bytes) = some i ∧ st.slots.getD i none = some s := by
  obtain ⟨i,hi⟩ := mem_entries.mp hs
  obtain ⟨b,hb',hhash⟩ := h.hashed s hs
  cases hb.symm.trans hb'
  have hfound := probe_found (p := fun s => symbolGetBytes m s == some bytes) h.chained hi
    (by simp [hb]) (fun j r hj hr => ?_)
  · rw [home_of hhash] at hfound
    exact ⟨i,hfound,by simp [List.getD,hi]⟩
  · have hr' : symbolGetBytes m r = some bytes := by simpa using hr
    exact slot_unique h.distinct hj hi (hr'.trans hb.symm)

theorem Sound.probe_new (h : st.Sound m)
    (hnew : ∀ r ∈ entries st.slots,symbolGetBytes m r ≠ some bytes) (hash : Nat) :
    ∃ i,st.probe m bytes hash = some i ∧ st.slots[i]? = some none := by
  obtain ⟨e,he⟩ := h.exists_empty
  obtain ⟨i,hi⟩ := probe_isSome (p := fun s => symbolGetBytes m s == some bytes) hash he
  obtain ⟨-,-,-,-,hstop⟩ := probe_some hi
  refine ⟨i,hi,?_⟩
  rcases hstop with hempty | ⟨r,hr,hmatch⟩
  · exact hempty
  · exact absurd (by simpa using hmatch) (hnew r (mem_entries.mpr ⟨i,hr⟩))

theorem Sound.grow (h : st.Sound m) (hsmall : st.slots.length * 2 < 2 ^ 32) :
    ∃ st',st.grow m = some st' ∧ st'.Sound m ∧ st'.slots.length = st.slots.length * 2 ∧
      st'.count = st.count ∧ (entries st'.slots).Perm (entries st.slots) := by
  have hempty := chained_replicate (home m) (st.slots.length * 2)
  obtain ⟨slots,hslots,hlen,hc,hperm⟩ := insertAll_spec (entries st.slots) hempty (by
    have := entries_length_le st.slots
    rw [entries_replicate,length_replicate,length_nil]
    omega)
  rw [entries_replicate,append_nil] at hperm
  rw [length_replicate] at hlen
  refine ⟨{ st with slots := slots },?_,⟨?_,?_,?_,hc,fun s hs => ?_,?_⟩,hlen,rfl,hperm⟩
  · rw [SymbolTable.grow,Nat.mod_eq_of_lt hsmall,hslots]
    rfl
  · exact h.counted.trans hperm.length_eq.symm
  · have := h.load
    dsimp only
    omega
  · have := h.nonempty
    dsimp only
    omega
  · exact h.hashed s (hperm.mem_iff.mp hs)
  · exact (hperm.map _).nodup_iff.mpr h.distinct

theorem Sound.add (h : st.Sound m) {i : Nat} (hi : st.probe m bytes (symbolHash bytes) = some i)
    (hempty : st.slots[i]? = some none) (hload : (st.count + 1) * 10 ≤ st.slots.length * 7)
    (hb : symbolGetBytes m s = some bytes) (hh : symbolGetHash m s = some (symbolHash bytes))
    (hnew : ∀ r ∈ entries st.slots,symbolGetBytes m r ≠ some bytes) :
    (st.add i s).Sound m ∧ (entries (st.add i s).slots).Perm (s :: entries st.slots) := by
  have hperm : (entries (st.slots.set i (some s))).Perm (s :: entries st.slots) :=
    entries_set hempty
  refine ⟨⟨?_,?_,?_,?_,fun r hr => ?_,?_⟩,hperm⟩
  · rw [SymbolTable.add,hperm.length_eq,length_cons,h.counted]
  · simpa [SymbolTable.add] using hload
  · simpa [SymbolTable.add] using h.nonempty
  · rw [← home_of hh] at hi
    exact h.chained.set hi hempty
  · rcases mem_cons.mp (hperm.mem_iff.mp hr) with rfl | hr
    · exact ⟨bytes,hb,hh⟩
    · exact h.hashed r hr
  · refine (hperm.map _).nodup_iff.mpr ?_
    rw [map_cons,nodup_cons]
    refine ⟨fun hmem => ?_,h.distinct⟩
    obtain ⟨r,hr,heq⟩ := List.mem_map.mp hmem
    exact hnew r hr (heq.trans hb)

theorem Sound.makeRoom (h : st.Sound m) {n i : Nat} (hsmall : st.Small (n + 1))
    (hi : st.probe m bytes (symbolHash bytes) = some i) (hempty : st.slots[i]? = some none)
    (hnew : ∀ r ∈ entries st.slots,symbolGetBytes m r ≠ some bytes) :
    ∃ st' j,st.makeRoom m bytes (symbolHash bytes) i = some (st',j) ∧ st'.Sound m ∧
      st'.probe m bytes (symbolHash bytes) = some j ∧ st'.slots[j]? = some none ∧
      (st'.count + 1) * 10 ≤ st'.slots.length * 7 ∧ st'.count = st.count ∧
      st'.slots.length ≤ 2 ^ 29 ∧ (entries st'.slots).Perm (entries st.slots) := by
  have hslots := hsmall.slots
  have hsymbols := hsmall.symbols
  have hcrowded : st.crowded = decide (st.slots.length * 7 < (st.count + 1) * 10) := by
    rw [crowded,Nat.mod_eq_of_lt (by omega),Nat.mod_eq_of_lt (by omega)]
  unfold SymbolTable.makeRoom
  rw [hcrowded]
  by_cases hgrow : st.slots.length * 7 < (st.count + 1) * 10
  · obtain ⟨st',hst',hsound,hlen,hcount,hperm⟩ := h.grow (by omega)
    have hnew' : ∀ r ∈ entries st'.slots,symbolGetBytes m r ≠ some bytes :=
      fun r hr => hnew r (hperm.mem_iff.mp hr)
    obtain ⟨j,hj,hjempty⟩ := hsound.probe_new hnew' (symbolHash bytes)
    have hload : (st.count + 1) * 10 ≤ st.slots.length * 2 * 7 := by
      have := h.load
      have := h.nonempty
      rcases Nat.eq_zero_or_pos st.count with h0 | hpos <;> omega
    refine ⟨st',j,?_,hsound,hj,hjempty,by rw [hcount,hlen]; exact hload,hcount,by omega,hperm⟩
    simp [hgrow,hst',hj]
  · exact ⟨st,i,by simp [hgrow],h,hi,hempty,by omega,rfl,hslots,.refl _⟩

end SymbolTable

theorem symbolIntern_entry (sp : ImmutableSpace) (h : st.Sound m) (hs : s ∈ entries st.slots)
    (hb : symbolGetBytes m s = some bytes) : symbolIntern sp m st bytes = some (s,sp,m,st) := by
  obtain ⟨i,hi,hget⟩ := h.probe_entry hs hb
  unfold symbolIntern
  simp only [hi,Option.bind_eq_bind,Option.bind_some,hget]

end

end SmalltalkA
