import SmalltalkA.Gc.Objects
import SmalltalkA.Lib.Layout

/-! The copying collector (`gc.c`): `gc_copy` with its forwarding pointers, the scan of the to-space
and `sta_gc_collect`. -/

set_option autoImplicit false

namespace SmalltalkA

open ObjectGraph Layout List

/-- What stays fixed during a collection; the table for objects without payload gets memory for
`sideRoom` entries. -/
structure GcSpaces where
  fromBase : Nat
  fromLimit : Nat
  toBase : Nat
  toLimit : Nat
  immBase : Nat
  immLimit : Nat
  formats : Formats
  sideRoom : Nat

/-- `GCState` as far as it changes. -/
structure GcState where
  mem : Memory
  toAlloc : Nat
  side : List (Oop × Oop)

def GcSpaces.inFrom (g : GcSpaces) (o : Oop) : Bool :=
  decide (g.fromBase ≤ o) && decide (o < g.fromLimit)

def GcSpaces.inTo (g : GcSpaces) (o : Oop) : Bool :=
  decide (g.toBase ≤ o) && decide (o < g.toLimit)

def GcSpaces.inImmutable (g : GcSpaces) (o : Oop) : Bool :=
  decide (g.immBase ≤ o) && decide (o < g.immLimit)

/-- `STA_GC_FORWARDED`. -/
def Obj.isForwarded (obj : Obj) : Bool := obj.gcFlags.testBit 2

def Obj.forward (obj : Obj) (new : Oop) : Obj :=
  { obj with gcFlags := obj.gcFlags ||| 4,payload := obj.payload.set 0 new }

/-- `fwd_table_put`, whose failure `gc_copy` does not look at, and `fwd_table_get`. -/
def fwdTablePut (room : Nat) (side : List (Oop × Oop)) (o new : Oop) : List (Oop × Oop) :=
  if side.length < room then (o,new) :: side else side

def fwdTableGet (side : List (Oop × Oop)) (o : Oop) : Oop := (side.lookup o).getD 0

/-- `gc_copy`; a word that leads to no object is no defined behaviour. -/
def gcCopy (g : GcSpaces) (o : Oop) (st : GcState) : Option (GcState × Oop) :=
  if isHeap o = false ∨ o = 0 ∨ g.inImmutable o ∨ g.inTo o ∨ g.inFrom o = false then some (st,o)
  else
    match st.mem o with
    | none => none
    | some h =>
      if h.isForwarded then
        match h.payload with
        | [] => some (st,fwdTableGet st.side o)
        | new :: _ => some (st,new)
      else if st.toAlloc + alignedSize h.payload.length > g.toLimit then some (st,o)
      else
        let new := st.toAlloc
        some ({
          mem := (st.mem.put new (some { h with gcFlags := 0 })).put o (some (h.forward new))
          toAlloc := new + alignedSize h.payload.length
          side := if h.payload = [] then fwdTablePut g.sideRoom st.side o new else st.side },new)

/-- `gc_copy` on one word after the other. -/
def gcCopyAll (g : GcSpaces) : List Oop → GcState → Option (GcState × List Oop)
  | [],st => some (st,[])
  | v :: vs,st => do
    let (st,w) ← gcCopy g v st
    let (st,ws) ← gcCopyAll g vs st
    return (st,w :: ws)

/-- `gc_scan_object`. -/
def gcScanObject (g : GcSpaces) (o : Oop) (obj : Obj) (st : GcState) : Option GcState :=
  let n := gcScannableSlots g.formats obj
  if n ≤ obj.payload.length then do
    let (st,ws) ← gcCopyAll g (obj.payload.take n) st
    return { st with mem := st.mem.put o (some { obj with payload := ws ++ obj.payload.drop n }) }
  else none

/-- The Cheney scan from address `scan` on. -/
def gcScan (g : GcSpaces) : Nat → Nat → GcState → Option GcState
  | 0,_,_ => none
  | fuel + 1,scan,st =>
    if scan < st.toAlloc then do
      let obj ← st.mem scan
      let st ← gcScanObject g scan obj st
      gcScan g fuel (scan + alignedSize obj.payload.length) st
    else some st

/-- `free` of a region. -/
def Memory.free (m : Memory) (base size : Nat) : Memory := fun o =>
  if base ≤ o ∧ o < base + size then none else m o

theorem Memory.free_outside {m : Memory} {base size o : Nat} (h : o < base ∨ base + size ≤ o) :
    m.free base size o = m o := by
  refine if_neg (fun hin => ?_)
  exact h.elim (Nat.not_lt.mpr hin.1) (Nat.not_le.mpr hin.2)

theorem Memory.free_inside {m : Memory} {base size o : Nat} (hlo : base ≤ o)
    (hhi : o < base + size) : m.free base size o = none :=
  if_pos ⟨hlo,hhi⟩

/-- `sta_gc_collect` on the words that `gc_scan_roots` visits; `region` is what `aligned_alloc`
returns. -/
def staGcCollect (formats : Formats) (immBase immLimit sideRoom : Nat) (region : Option Nat)
    (heap : Heap) (mem : Memory) (roots : List Oop) :
    Option (Option (Heap × Memory × List Oop)) :=
  match region with
  | none => some none
  | some toBase => do
    let g : GcSpaces := ⟨heap.base,heap.base + heap.capacity,toBase,toBase + heap.capacity,
      immBase,immLimit,formats,sideRoom⟩
    let (st,roots) ← gcCopyAll g roots ⟨mem,toBase,[]⟩
    let st ← gcScan g (heap.capacity + 1) toBase st
    return some ({ heap with base := toBase,used := st.toAlloc - toBase },
      st.mem.free heap.base heap.capacity,roots)

/-! The collection as a renaming: the objects copied so far, in order, determine where each copy
lies. -/

def Memory.sizeAt (m : Memory) (o : Oop) : Nat :=
  alignedSize (((m o).map (fun h => h.payload.length)).getD 0)

def Memory.emptyAt (m : Memory) (o : Oop) : Bool :=
  ((m o).map (fun h => h.payload.isEmpty)).getD false

/-- An object outside of collections, with the words that its format promises. -/
structure Obj.Sound (formats : Formats) (obj : Obj) : Prop where
  unforwarded : obj.isForwarded = false
  fits : gcScannableSlots formats obj ≤ obj.payload.length
  header : ∀ fmt,formats obj.classIndex = some fmt → formatType fmt = fmtCompiledMethod →
    ∀ v ∈ obj.payload.head?,isHeap v = false

instance (formats : Formats) (obj : Obj) : Decidable (obj.Sound formats) :=
  decidable_of_iff (obj.isForwarded = false ∧
    gcScannableSlots formats obj ≤ obj.payload.length ∧
    ∀ fmt ∈ formats obj.classIndex,formatType fmt = fmtCompiledMethod →
      ∀ v ∈ obj.payload.head?,isHeap v = false)
    ⟨fun h => ⟨h.1,h.2.1,h.2.2⟩,fun h => ⟨h.1,h.2,h.3⟩⟩

def GcSpaces.Inert (g : GcSpaces) (v : Oop) : Prop :=
  isHeap v = false ∨ v = 0 ∨ g.inFrom v = false ∧ g.inTo v = false

/-- `live` are objects in the from-space that refer to nothing else there. They fit into the
to-space, and those without payload into the side table. -/
structure Collectable (g : GcSpaces) (m : Memory) (live : List Oop) : Prop where
  nodup : live.Nodup
  room : g.toBase + extent m.sizeAt live ≤ g.toLimit
  side : (live.filter m.emptyAt).length ≤ g.sideRoom
  places : ∀ o ∈ live,isHeap o = true ∧ o ≠ 0 ∧ g.inImmutable o = false ∧ g.inTo o = false ∧
    g.inFrom o = true
  objects : ∀ o ∈ live,∃ h,m o = some h ∧ h.Sound g.formats ∧
    ∀ v ∈ h.references g.formats,g.Inert v ∨ v ∈ live

section Collection

variable {g : GcSpaces} {m₀ : Memory} {live keys : List Oop} {st st' : GcState}

def copies (g : GcSpaces) (m₀ : Memory) (keys : List Oop) : List (Nat × Oop) :=
  listing m₀.sizeAt g.toBase keys

def MovedAs (g : GcSpaces) (m₀ : Memory) (keys : List Oop) (v w : Oop) : Prop :=
  g.Inert v ∧ w = v ∨ (w,v) ∈ copies g m₀ keys

/-- The collection after the objects `keys` have been copied. -/
structure Moving (g : GcSpaces) (m₀ : Memory) (live keys : List Oop) (st : GcState) : Prop where
  nodup : keys.Nodup
  sub : keys ⊆ live
  alloc : st.toAlloc = g.toBase + extent m₀.sizeAt keys
  forwarded : ∀ n o h,(n,o) ∈ copies g m₀ keys → m₀ o = some h → st.mem o = some (h.forward n)
  unmoved : ∀ o,o ∉ keys → g.inTo o = false → st.mem o = m₀ o
  above : ∀ o : Nat,o ∉ keys → st.toAlloc ≤ o → st.mem o = m₀ o
  side : ∀ n o,(n,o) ∈ copies g m₀ keys → m₀.emptyAt o = true → st.side.lookup o = some n
  sideCount : st.side.length ≤ (keys.filter m₀.emptyAt).length

/-- From `st` to `st'` the objects `new` have been copied, and the earlier copies not touched. -/
structure Extends (g : GcSpaces) (m₀ : Memory) (st : GcState) (new : List Oop)
    (st' : GcState) : Prop where
  fresh : ∀ n o h,(n,o) ∈ listing m₀.sizeAt st.toAlloc new → m₀ o = some h →
    st'.mem n = some { h with gcFlags := 0 }
  kept : ∀ n : Nat,g.toBase ≤ n → n < st.toAlloc → st'.mem n = st.mem n

variable {h : Obj} {m : Memory} {o v : Oop}

theorem Memory.sizeAt_some (ho : m o = some h) : m.sizeAt o = alignedSize h.payload.length := by
  simp [Memory.sizeAt,ho]

theorem Memory.sizeAt_pos (m : Memory) (o : Oop) : 0 < m.sizeAt o := alignedSize_pos _

theorem Memory.sizeAt_mod (m : Memory) (o : Oop) : m.sizeAt o % 16 = 0 := alignedSize_mod _

theorem Memory.emptyAt_some (ho : m o = some h) : m.emptyAt o = h.payload.isEmpty := by
  simp [Memory.emptyAt,ho]

theorem Obj.forward_isForwarded (obj : Obj) (n : Oop) : (obj.forward n).isForwarded = true := by
  simp [Obj.isForwarded,Obj.forward,Nat.testBit_or,show Nat.testBit 4 2 = true by decide]

theorem MovedAs.mono {new : List Oop} {w : Oop} (h : MovedAs g m₀ keys v w) :
    MovedAs g m₀ (keys ++ new) v w := by
  refine h.imp_right (fun hmem => ?_)
  rw [copies,listing_append]
  exact mem_append_left _ hmem

theorem gcCopy_inert (hv : g.Inert v) : gcCopy g v st = some (st,v) := by
  unfold gcCopy
  rw [if_pos]
  rcases hv with h | h | ⟨h,-⟩
  · exact .inl h
  · exact .inr (.inl h)
  · exact .inr (.inr (.inr (.inr h)))

theorem gcCopy_again (hg : Collectable g m₀ live) (hst : Moving g m₀ live keys st) {n : Oop}
    (hmem : (n,o) ∈ copies g m₀ keys) : gcCopy g o st = some (st,n) := by
  have hlive := hst.sub (mem_of_mem_listing _ hmem)
  obtain ⟨hheap,hzero,himm,hto,hfrom⟩ := hg.places o hlive
  obtain ⟨h,ho,-,-⟩ := hg.objects o hlive
  have hnow := hst.forwarded n o h hmem ho
  unfold gcCopy
  rw [if_neg (by simp [hheap,hzero,himm,hto,hfrom])]
  simp only [hnow,Obj.forward_isForwarded,if_true]
  cases hp : h.payload with
  | nil =>
    have hside := hst.side n o hmem (by simp [Memory.emptyAt_some ho,hp])
    simp [Obj.forward,hp,fwdTableGet,hside]
  | cons v vs => simp [Obj.forward,hp]

/-- The state after the object `h` at `o` has been copied. -/
def GcState.copied (g : GcSpaces) (st : GcState) (o : Oop) (h : Obj) : GcState where
  mem := (st.mem.put st.toAlloc (some { h with gcFlags := 0 })).put o
    (some (h.forward st.toAlloc))
  toAlloc := st.toAlloc + alignedSize h.payload.length
  side := if h.payload = [] then fwdTablePut g.sideRoom st.side o st.toAlloc else st.side

theorem GcState.copied_mem {a : Oop} (hao : a ≠ o) (ha : a ≠ st.toAlloc) :
    (st.copied g o h).mem a = st.mem a := by
  simp only [GcState.copied,Memory.put_other hao,Memory.put_other ha]

theorem GcState.copied_source (o : Oop) (h : Obj) :
    (st.copied g o h).mem o = some (h.forward st.toAlloc) := by
  simp [GcState.copied]

theorem GcState.copied_target (h : Obj) (ho : st.toAlloc ≠ o) :
    (st.copied g o h).mem st.toAlloc = some { h with gcFlags := 0 } := by
  simp [GcState.copied,Memory.put_other ho]

theorem GcState.copied_side (hroom : h.payload = [] → st.side.length < g.sideRoom) :
    (st.copied g o h).side = if h.payload = [] then (o,st.toAlloc) :: st.side else st.side := by
  simp only [GcState.copied,fwdTablePut]
  split
  · rename_i hp
    rw [if_pos (hroom hp)]
  · rfl

theorem GcSpaces.inTo_iff {o : Nat} : g.inTo o = true ↔ g.toBase ≤ o ∧ o < g.toLimit := by
  simp [GcSpaces.inTo]

theorem GcSpaces.inFrom_iff {o : Nat} : g.inFrom o = true ↔ g.fromBase ≤ o ∧ o < g.fromLimit := by
  simp [GcSpaces.inFrom]

theorem GcSpaces.inImmutable_iff {o : Nat} :
    g.inImmutable o = true ↔ g.immBase ≤ o ∧ o < g.immLimit := by
  simp [GcSpaces.inImmutable]

section

variable (hg : Collectable g m₀ live) (hst : Moving g m₀ live keys st) (hlive : o ∈ live) (hnew :
  o ∉ keys)

include hg hst hlive hnew

theorem Moving.room (ho : m₀ o = some h) :
    (keys ++ [o]).Nodup ∧ keys ++ [o] ⊆ live ∧
    st.toAlloc + alignedSize h.payload.length ≤ g.toLimit ∧
    (h.payload = [] → st.side.length < g.sideRoom) := by
  have hnodup : (keys ++ [o]).Nodup :=
    List.Nodup.append hst.nodup (nodup_singleton o) (by simpa using hnew)
  have hsub : keys ++ [o] ⊆ live := append_subset.mpr ⟨hst.sub,cons_subset.mpr ⟨hlive,nil_subset _⟩⟩
  refine ⟨hnodup,hsub,?_,fun hp => ?_⟩
  · have hroom := Nat.le_trans
      (Nat.add_le_add_left (extent_le_of_subset m₀.sizeAt hnodup hsub) g.toBase) hg.room
    rw [extent_append] at hroom
    simp only [extent,Memory.sizeAt_some ho] at hroom
    have := hst.alloc
    omega
  · have hempty : m₀.emptyAt o = true := by simp [Memory.emptyAt_some ho,hp]
    have hcount : ((keys ++ [o]).filter m₀.emptyAt).length ≤ (live.filter m₀.emptyAt).length := by
      refine (subperm_of_subset (hnodup.filter _) (fun a ha => ?_)).length_le
      rw [mem_filter] at ha ⊢
      exact ⟨hsub ha.1,ha.2⟩
    simp only [filter_append,length_append,filter_cons,hempty,if_true,
      filter_nil,length_singleton] at hcount
    have := hst.sideCount
    have := hg.side
    omega

/-- `gc_copy` of an object that has not been copied. -/
theorem gcCopy_new :
    ∃ st',gcCopy g o st = some (st',st.toAlloc) ∧ Moving g m₀ live (keys ++ [o]) st' ∧
      Extends g m₀ st [o] st' := by
  obtain ⟨hheap,hzero,himm,hto,hfrom⟩ := hg.places o hlive
  obtain ⟨h,ho,hsound,-⟩ := hg.objects o hlive
  have hnow : st.mem o = some h := (hst.unmoved o hnew hto).trans ho
  have hpos := alignedSize_pos h.payload.length
  have halloc := hst.alloc
  obtain ⟨hnodup,hsub,hroom,hside⟩ := hst.room hg hlive hnew ho
  have hinTo : g.inTo st.toAlloc = true := GcSpaces.inTo_iff.mpr ⟨by omega,by omega⟩
  have hne : ∀ a,g.inTo a = false → a ≠ st.toAlloc := by
    rintro a ha rfl
    simp [hinTo] at ha
  have hsplit : ∀ n a,(n,a) ∈ copies g m₀ (keys ++ [o]) →
      (n,a) ∈ copies g m₀ keys ∧ a ≠ o ∨ n = st.toAlloc ∧ a = o := by
    intro n a hna
    simp only [copies,listing_append,listing,← halloc,mem_append,mem_singleton,Prod.mk.injEq] at hna
    refine hna.imp_left (fun hold => ⟨hold,?_⟩)
    rintro rfl
    exact hnew (mem_of_mem_listing _ hold)
  refine ⟨st.copied g o h,?_,⟨hnodup,hsub,?_,fun n a ha hna hma => ?_,fun a ha hato => ?_,
    fun a ha habove => ?_,fun n a hna hempty => ?_,?_⟩,fun n a ha hna hma => ?_,
    fun n hlo hhi => ?_⟩
  · unfold gcCopy
    rw [if_neg (by simp [hheap,hzero,himm,hto,hfrom])]
    simp only [hnow,hsound.unforwarded]
    rw [if_neg Bool.false_ne_true,if_neg (by omega)]
    rfl
  · simp only [extent_append,extent,Nat.add_zero,Memory.sizeAt_some ho,GcState.copied]
    omega
  · rcases hsplit n a hna with ⟨hold,hao⟩ | ⟨rfl,rfl⟩
    · have hato := (hg.places a (hst.sub (mem_of_mem_listing _ hold))).2.2.2.1
      rw [GcState.copied_mem hao (hne a hato)]
      exact hst.forwarded n a ha hold hma
    · obtain rfl : h = ha := by simpa [ho] using hma
      exact GcState.copied_source _ _
  · simp only [mem_append,mem_singleton,not_or] at ha
    rw [GcState.copied_mem ha.2 (hne a hato)]
    exact hst.unmoved a ha.1 hato
  · simp only [mem_append,mem_singleton,not_or] at ha
    simp only [GcState.copied] at habove
    rw [GcState.copied_mem ha.2 (Nat.ne_of_gt (by omega))]
    exact hst.above a ha.1 (by omega)
  · rw [GcState.copied_side hside]
    rcases hsplit n a hna with ⟨hold,hao⟩ | ⟨rfl,rfl⟩
    · have hlook := hst.side n a hold hempty
      split
      · simpa [lookup_cons,beq_eq_false_iff_ne.mpr hao] using hlook
      · exact hlook
    · have hp : h.payload = [] := by simpa [Memory.emptyAt_some ho] using hempty
      simp [hp]
  · have hcount := hst.sideCount
    rw [GcState.copied_side hside]
    by_cases hp : h.payload = []
    · simpa [hp,Memory.emptyAt_some ho,filter_append] using hcount
    · simpa [hp,Memory.emptyAt_some ho,filter_append] using hcount
  · simp only [listing,mem_singleton,Prod.mk.injEq] at hna
    obtain ⟨rfl,rfl⟩ := hna
    obtain rfl : h = ha := by simpa [ho] using hma
    exact GcState.copied_target _ (hne a hto).symm
  · have hnTo : g.inTo n = true := GcSpaces.inTo_iff.mpr ⟨hlo,by omega⟩
    refine GcState.copied_mem ?_ (Nat.ne_of_lt hhi)
    rintro rfl
    simp [hnTo] at hto

end

theorem Moving.start (g : GcSpaces) (m : Memory) (live : List Oop) :
    Moving g m live [] ⟨m,g.toBase,[]⟩ :=
  ⟨nodup_nil,nil_subset _,rfl,nofun,fun _ _ _ => rfl,fun _ _ _ => rfl,nofun,Nat.le_refl _⟩

theorem Extends.refl (st : GcState) : Extends g m₀ st [] st := ⟨nofun,fun _ _ _ => rfl⟩

theorem Moving.le_alloc (h : Moving g m₀ live keys st) : g.toBase ≤ st.toAlloc := by
  have := h.alloc
  omega

theorem Extends.trans {st'' : GcState} {new new' : List Oop} (h : Extends g m₀ st new st')
    (h' : Extends g m₀ st' new' st'') (hlow : g.toBase ≤ st.toAlloc)
    (halloc : st'.toAlloc = st.toAlloc + extent m₀.sizeAt new) :
    Extends g m₀ st (new ++ new') st'' := by
  refine ⟨fun n o obj hno ho => ?_,fun n hlo hhi => ?_⟩
  · rw [listing_append,mem_append,← halloc] at hno
    rcases hno with hno | hno
    · obtain ⟨hlo,hhi⟩ := listing_bounds _ hno
      have hpos := m₀.sizeAt_pos o
      rw [h'.kept n (by omega) (by omega)]
      exact h.fresh n o obj hno ho
    · exact h'.fresh n o obj hno ho
  · rw [h'.kept n hlo (by omega)]
    exact h.kept n hlo hhi

theorem gcCopy_spec (hg : Collectable g m₀ live) (hst : Moving g m₀ live keys st)
    (hv : g.Inert v ∨ v ∈ live) :
    ∃ st' new w,gcCopy g v st = some (st',w) ∧ Moving g m₀ live (keys ++ new) st' ∧
      Extends g m₀ st new st' ∧ MovedAs g m₀ (keys ++ new) v w := by
  by_cases hinert : g.Inert v
  · exact ⟨st,[],v,gcCopy_inert hinert,by simpa using hst,.refl st,.inl ⟨hinert,rfl⟩⟩
  · have hlive := hv.resolve_left hinert
    by_cases hkey : v ∈ keys
    · obtain ⟨n,hn⟩ := mem_listing_of_mem m₀.sizeAt hkey g.toBase
      refine ⟨st,[],n,gcCopy_again hg hst hn,by simpa using hst,.refl st,.inr ?_⟩
      rw [append_nil]
      exact hn
    · obtain ⟨st',hcopy,hst',hext⟩ := gcCopy_new hg hst hlive hkey
      refine ⟨st',[v],_,hcopy,hst',hext,.inr ?_⟩
      simp [copies,listing_append,listing,hst.alloc]

theorem gcCopyAll_spec (hg : Collectable g m₀ live) {vs : List Oop} (hst : Moving g m₀ live keys st)
    (hvs : ∀ v ∈ vs,g.Inert v ∨ v ∈ live) :
    ∃ st' new ws,gcCopyAll g vs st = some (st',ws) ∧ Moving g m₀ live (keys ++ new) st' ∧
      Extends g m₀ st new st' ∧ List.Forall₂ (MovedAs g m₀ (keys ++ new)) vs ws := by
  induction vs generalizing keys st with
  | nil => exact ⟨st,[],[],rfl,by simpa using hst,.refl st,.nil⟩
  | cons v vs ih =>
    obtain ⟨st₁,new₁,w,hcopy,hst₁,hext₁,hw⟩ := gcCopy_spec hg hst (hvs v mem_cons_self)
    obtain ⟨st₂,new₂,ws,hall,hst₂,hext₂,hws⟩ := ih hst₁ (fun u hu => hvs u (mem_cons_of_mem _ hu))
    rw [append_assoc] at hst₂ hws
    have halloc : st₁.toAlloc = st.toAlloc + extent m₀.sizeAt new₁ := by
      rw [hst₁.alloc,hst.alloc,extent_append,Nat.add_assoc]
    refine ⟨st₂,new₁ ++ new₂,w :: ws,?_,hst₂,hext₁.trans hext₂ hst.le_alloc halloc,.cons ?_ hws⟩
    · simp [gcCopyAll,hcopy,hall]
    · rw [← append_assoc]
      exact hw.mono

/-! ### The scan -/

/-- The copy at `n` of the object at `o`, its words replaced. -/
def Scanned (g : GcSpaces) (m₀ : Memory) (keys : List Oop) (m : Memory) (n o : Oop) : Prop :=
  ∃ h ws,m₀ o = some h ∧ List.Forall₂ (MovedAs g m₀ keys) (h.references g.formats) ws ∧
    m n = some { h with
      gcFlags := 0
      payload := ws ++ h.payload.drop (gcScannableSlots g.formats h) }

/-- The scan is through the copies of `done`; those of `todo` are as they were made. -/
structure Scanning (g : GcSpaces) (m₀ : Memory) (live done todo : List Oop)
    (st : GcState) : Prop where
  moving : Moving g m₀ live (done ++ todo) st
  scanned : ∀ n o,(n,o) ∈ copies g m₀ done → Scanned g m₀ (done ++ todo) st.mem n o
  fresh : ∀ n o h,(n,o) ∈ listing m₀.sizeAt (g.toBase + extent m₀.sizeAt done) todo →
    m₀ o = some h → st.mem n = some { h with gcFlags := 0 }

theorem gcScannableSlots_flags (formats : Formats) (h : Obj) (flags : Nat) :
    gcScannableSlots formats { h with gcFlags := flags } = gcScannableSlots formats h := rfl

theorem Moving.store (hg : Collectable g m₀ live) (h : Moving g m₀ live keys st) {n : Nat}
    (hn : g.inTo n = true) (hlt : n < st.toAlloc) (obj : Option Obj) :
    Moving g m₀ live keys { st with mem := st.mem.put n obj } := by
  have hne : ∀ a,g.inTo a = false → a ≠ n := by
    rintro a ha rfl
    simp [hn] at ha
  refine ⟨h.nodup,h.sub,h.alloc,fun k o ho hko hobj => ?_,fun o ho hto => ?_,
    fun o ho habove => ?_,h.side,h.sideCount⟩
  · have hto := (hg.places o (h.sub (mem_of_mem_listing _ hko))).2.2.2.1
    exact (Memory.put_other (hne o hto) obj).trans (h.forwarded k o ho hko hobj)
  · exact (Memory.put_other (hne o hto) obj).trans (h.unmoved o ho hto)
  · exact (Memory.put_other (Nat.ne_of_gt (Nat.lt_of_lt_of_le hlt habove)) obj).trans
      (h.above o ho habove)

theorem Scanned.mono {new : List Oop} {m' : Memory} {n : Oop} (h : Scanned g m₀ keys m n o)
    (hm : m' n = m n) : Scanned g m₀ (keys ++ new) m' n o := by
  obtain ⟨obj,ws,ho,hws,hn⟩ := h
  exact ⟨obj,ws,ho,hws.imp (fun _ _ hvw => hvw.mono),hm.trans hn⟩

/-- `gc_scan_object` on the next copy. -/
theorem Scanning.next (hg : Collectable g m₀ live) {done todo : List Oop} {scan : Nat}
    (hst : Scanning g m₀ live done (o :: todo) st) (hscan : scan = g.toBase + extent m₀.sizeAt done)
    :
    ∃ h new st',m₀ o = some h ∧ st.mem scan = some { h with gcFlags := 0 } ∧
      gcScanObject g scan { h with gcFlags := 0 } st = some st' ∧
      Scanning g m₀ live (done ++ [o]) (todo ++ new) st' := by
  have hmem : o ∈ done ++ o :: todo := by simp
  obtain ⟨h,ho,hsound,hrefs⟩ := hg.objects o (hst.moving.sub hmem)
  have hnow : st.mem scan = some { h with gcFlags := 0 } :=
    hst.fresh scan o h (by rw [← hscan]; exact mem_cons_self) ho
  obtain ⟨st₁,new,ws,hall,hmoving,hext,hws⟩ := gcCopyAll_spec hg hst.moving hrefs
  have hpos := m₀.sizeAt_pos o
  have halloc := hst.moving.alloc
  have halloc₁ := hmoving.alloc
  have hroom := Nat.le_trans (Nat.add_le_add_left
    (extent_le_of_subset m₀.sizeAt hmoving.nodup hmoving.sub) g.toBase) hg.room
  simp only [extent_append,extent] at halloc halloc₁ hroom
  have hinTo : g.inTo scan = true := GcSpaces.inTo_iff.mpr ⟨by omega,by omega⟩
  have hkeys : (done ++ [o]) ++ (todo ++ new) = (done ++ o :: todo) ++ new := by simp
  refine ⟨h,new,{ st₁ with mem := st₁.mem.put scan (some { h with
    gcFlags := 0
    payload := ws ++ h.payload.drop (gcScannableSlots g.formats h) }) },ho,hnow,?_,
    ⟨hkeys ▸ hmoving.store hg hinTo (by omega) _,fun n a hna => ?_,fun n a obj hna ha => ?_⟩⟩
  · simp only [gcScanObject,gcScannableSlots_flags,hsound.fits,if_true]
    rw [show List.take (gcScannableSlots g.formats h) h.payload = h.references g.formats from rfl,
      hall]
    rfl
  · rw [hkeys]
    rw [copies,listing_append,← hscan,mem_append] at hna
    rcases hna with hna | hna
    · obtain ⟨hlo,hhi⟩ := listing_bounds _ hna
      have := m₀.sizeAt_pos a
      refine (hst.scanned n a hna).mono ?_
      exact (Memory.put_other (Nat.ne_of_lt (by omega)) _).trans (hext.kept n hlo (by omega))
    · simp only [listing,mem_singleton,Prod.mk.injEq] at hna
      obtain ⟨rfl,rfl⟩ := hna
      exact ⟨h,ws,ho,hws,Memory.put_same ..⟩
  · simp only [listing_append,extent_append,extent,Nat.add_zero,mem_append] at hna
    rcases hna with hna | hna
    · obtain ⟨hlo,hhi⟩ := listing_bounds _ hna
      have := m₀.sizeAt_pos a
      refine (Memory.put_other (Nat.ne_of_gt (by omega)) _).trans ?_
      rw [hext.kept n (by omega) (by omega)]
      refine hst.fresh n a obj (mem_cons_of_mem _ ?_) ha
      rwa [Nat.add_assoc]
    · obtain ⟨hlo,-⟩ := listing_bounds _ hna
      refine (Memory.put_other (Nat.ne_of_gt (by omega)) _).trans (hext.fresh n a obj ?_ ha)
      rwa [show st.toAlloc = g.toBase + (extent m₀.sizeAt done + m₀.sizeAt o) +
        extent m₀.sizeAt todo by omega]

theorem gcScan_spec (hg : Collectable g m₀ live) :
    ∀ (fuel : Nat) {done todo : List Oop} {st : GcState},Scanning g m₀ live done todo st →
      g.toLimit < g.toBase + extent m₀.sizeAt done + fuel →
      ∃ more st',gcScan g fuel (g.toBase + extent m₀.sizeAt done) st = some st' ∧
        Scanning g m₀ live (done ++ todo ++ more) [] st' := by
  intro fuel
  induction fuel with
  | zero =>
    intro done todo st hst hfuel
    have hroom := Nat.le_trans (Nat.add_le_add_left
      (extent_le_of_subset m₀.sizeAt hst.moving.nodup hst.moving.sub) g.toBase) hg.room
    rw [extent_append] at hroom
    omega
  | succ fuel ih =>
    intro done todo st hst hfuel
    have halloc := hst.moving.alloc
    rw [extent_append] at halloc
    cases todo with
    | nil =>
      simp only [extent] at halloc
      refine ⟨[],st,?_,by simpa using hst⟩
      rw [gcScan,if_neg (by omega)]
    | cons o todo =>
      have hpos := m₀.sizeAt_pos o
      obtain ⟨h,new,st₁,ho,hnow,hscan,hst₁⟩ := hst.next hg rfl
      have hsize := Memory.sizeAt_some ho
      have hend : g.toBase + extent m₀.sizeAt (done ++ [o]) =
          g.toBase + extent m₀.sizeAt done + alignedSize h.payload.length := by
        simp only [extent_append,extent]
        omega
      obtain ⟨more,st',hrest,hst'⟩ := ih hst₁ (by omega)
      refine ⟨new ++ more,st',?_,by simpa using hst'⟩
      simp only [extent] at halloc
      rw [gcScan,if_pos (by omega)]
      simp only [hnow,Option.bind_eq_bind,Option.bind_some,hscan]
      rw [← hend]
      exact hrest

end Collection

end SmalltalkA
