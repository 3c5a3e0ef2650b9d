import SmalltalkA.Gc.Grow

/-! The graph of the objects on one heap, and what a collection does to it. -/

set_option autoImplicit false

namespace SmalltalkA

open ObjectGraph Layout List Option

def Heap.holds (heap : Heap) (v : Oop) : Bool :=
  isHeap v && v != 0 && decide (heap.base ≤ v) && decide (v < heap.base + heap.capacity)

def heapGraph (formats : Formats) (heap : Heap) (m : Memory) : ObjectGraph.Graph Oop ObjLabel :=
  objectGraph formats (fun v => heap.holds v = false) m

/-- A word an actor may hold: no pointer, a pointer elsewhere, or one to an object of its own in
use. -/
def HeapWord (heap : Heap) (m : Memory) (live : List Oop) (v : Oop) : Prop :=
  isHeap v = false ∨ v = 0 ∨ (heap.holds v = false ∧ (m v).isSome = true) ∨ v ∈ live
deriving Decidable

/-- A heap with the objects `live` in use. They do not overlap, so they take no more than the used
part. -/
structure HeapOk (formats : Formats) (heap : Heap) (m : Memory) (live : List Oop) : Prop where
  aligned : heap.base % 16 = 0 ∧ heap.used % 16 = 0
  positive : 0 < heap.base
  used : heap.used ≤ heap.capacity
  nodup : live.Nodup
  within : ∀ o : Nat,o ∈ live → o % 16 = 0 ∧ heap.base ≤ o ∧ o < heap.base + heap.used
  size : extent m.sizeAt live ≤ heap.used
  objects : ∀ o ∈ live,∃ h,m o = some h ∧ h.Sound formats ∧
    ∀ v ∈ h.references formats,HeapWord heap m live v
  free : ∀ o : Nat,heap.base + heap.used ≤ o → o < heap.base + heap.capacity → m o = none

instance decidableExistsSome {α : Type} (x : Option α) (P : α → Prop) [DecidablePred P] :
    Decidable (∃ a,x = some a ∧ P a) :=
  decidable_of_iff (∃ a ∈ x,P a) Iff.rfl

/-- `aligned_alloc` returns a region where there is nothing yet. -/
structure FreshRegion (m : Memory) (heap : Heap) (base size : Nat) : Prop where
  aligned : base % 16 = 0
  positive : 0 < base
  free : ∀ o : Nat,base ≤ o → o < base + size → m o = none
  apart : ∀ o : Nat,base ≤ o → o < base + size →
    o < heap.base ∨ heap.base + heap.capacity ≤ o

def Heap.Mutable (heap : Heap) (immBase immLimit : Nat) : Prop :=
  ∀ o : Nat,heap.base ≤ o → o < heap.base + heap.capacity → ¬ (immBase ≤ o ∧ o < immLimit)
deriving Decidable

theorem isHeap_of_aligned {o : Nat} (h : o % 16 = 0) : isHeap o = true := by
  have hmod : o % 4 = 0 := by omega
  simp [isHeap,hmod]

theorem Heap.holds_iff {heap : Heap} {v : Nat} : heap.holds v = true ↔
      isHeap v = true ∧ v ≠ 0 ∧ heap.base ≤ v ∧ v < heap.base + heap.capacity := by
  simp [Heap.holds,and_assoc]

section

variable {formats : Formats} {heap : Heap} {m : Memory} {live : List Oop}

theorem HeapOk.holds (h : HeapOk formats heap m live) {o : Nat} (ho : o ∈ live) :
    heap.holds o = true := by
  obtain ⟨hal,hlo,hhi⟩ := h.within o ho
  have := h.positive
  have := h.used
  exact Heap.holds_iff.mpr ⟨isHeap_of_aligned hal,by omega,hlo,by omega⟩

theorem HeapOk.atom (h : HeapOk formats heap m live) {v : Oop} (hv : HeapWord heap m live v) :
    heap.holds v = false ∧ v ∉ live ∨ heap.holds v = true ∧ v ∈ live := by
  by_cases hlive : v ∈ live
  · exact .inr ⟨h.holds hlive,hlive⟩
  · refine .inl ⟨?_,hlive⟩
    rcases hv with hv | hv | ⟨hv,-⟩ | hv
    · simp [Heap.holds,hv]
    · simp [Heap.holds,hv]
    · exact hv
    · exact absurd hv hlive

theorem HeapOk.closed (h : HeapOk formats heap m live) :
    Closed (heapGraph formats heap m) (· ∈ live) := by
  intro o ho
  obtain ⟨obj,hobj,-,hrefs⟩ := h.objects o ho
  refine ⟨obj.label formats,obj.references formats,by simp [heapGraph,objectGraph,hobj],?_⟩
  intro v hv
  exact (h.atom (hrefs v hv)).imp And.left And.right

/-! ### A collection -/

def gcSpaces (formats : Formats) (immBase immLimit sideRoom toBase : Nat) (heap : Heap) :
    GcSpaces :=
  ⟨heap.base,heap.base + heap.capacity,toBase,toBase + heap.capacity,immBase,immLimit,formats,
    sideRoom⟩

variable {immBase immLimit sideRoom toBase : Nat}

theorem HeapWord.inert
    (hregion : FreshRegion m heap toBase heap.capacity) {v : Nat} (hv : HeapWord heap m live v) :
    (gcSpaces formats immBase immLimit sideRoom toBase heap).Inert v ∨ v ∈ live := by
  rcases hv with hv | hv | ⟨hv,hsome⟩ | hv
  · exact .inl (.inl hv)
  · exact .inl (.inr (.inl hv))
  · by_cases hheap : isHeap v = true
    · by_cases hzero : v = 0
      · exact .inl (.inr (.inl hzero))
      · refine .inl (.inr (.inr ⟨?_,?_⟩))
        · rw [Bool.eq_false_iff]
          intro hin
          rw [Heap.holds_iff.mpr ⟨hheap,hzero,GcSpaces.inFrom_iff.mp hin⟩] at hv
          cases hv
        · rw [Bool.eq_false_iff]
          intro hin
          obtain ⟨hlo,hhi⟩ := GcSpaces.inTo_iff.mp hin
          rw [hregion.free v hlo hhi] at hsome
          cases hsome
    · exact .inl (.inl (by simpa using hheap))
  · exact .inr hv

theorem HeapOk.collectable (h : HeapOk formats heap m live)
    (hregion : FreshRegion m heap toBase heap.capacity) (himm : heap.Mutable immBase immLimit)
    (hside : (live.filter m.emptyAt).length ≤ sideRoom) :
    Collectable (gcSpaces formats immBase immLimit sideRoom toBase heap) m live where
  nodup := h.nodup
  room := Nat.add_le_add_left (Nat.le_trans h.size h.used) _
  side := hside
  places := by
    intro o ho
    obtain ⟨hheap,hzero,hlo,hhi⟩ := Heap.holds_iff.mp (h.holds ho)
    refine ⟨hheap,hzero,?_,?_,GcSpaces.inFrom_iff.mpr ⟨hlo,hhi⟩⟩
    · exact Bool.eq_false_iff.mpr (fun hin => himm o hlo hhi (GcSpaces.inImmutable_iff.mp hin))
    · refine Bool.eq_false_iff.mpr (fun hin => ?_)
      obtain ⟨hlo',hhi'⟩ := GcSpaces.inTo_iff.mp hin
      have := hregion.apart o hlo' hhi'
      omega
  objects := by
    intro o ho
    obtain ⟨obj,hobj,hsound,hrefs⟩ := h.objects o ho
    exact ⟨obj,hobj,hsound,fun v hv => (hrefs v hv).inert hregion⟩

section Moved

variable {g : GcSpaces} {keys ws : List Oop} {h : Obj}

def Obj.moved (formats : Formats) (h : Obj) (ws : List Oop) : Obj :=
  { h with gcFlags := 0,payload := ws ++ h.payload.drop (gcScannableSlots formats h) }

theorem references_length (hsound : h.Sound formats) :
    (h.references formats).length = gcScannableSlots formats h := by
  simp [Obj.references,hsound.fits]

theorem moved_head (hg : Collectable g m live) (hsub : keys ⊆ live) (hsound : h.Sound g.formats)
    (hws : List.Forall₂ (MovedAs g m keys) (h.references g.formats) ws) {fmt : Oop}
    (hfmt : g.formats h.classIndex = some fmt) (htype : formatType fmt = fmtCompiledMethod) :
    (h.moved g.formats ws).payload.head? = h.payload.head? := by
  cases hp : h.payload with
  | nil =>
    have hnil : h.references g.formats = [] := by simp [Obj.references,hp]
    rw [hnil] at hws
    cases hws
    simp [Obj.moved,hp]
  | cons v vs =>
    have hcount : gcScannableSlots g.formats h = min (1 + methodNumLiterals v) (vs.length + 1) := by
      simp [gcScannableSlots,slotsToScan,hfmt,htype,fmtCompiledMethod,fmtVariableByte,hp]
    obtain ⟨k,hk⟩ : ∃ k,gcScannableSlots g.formats h = k + 1 := ⟨gcScannableSlots g.formats h - 1,by
        rw [hcount]
        omega⟩
    have hrefs : h.references g.formats = v :: vs.take k := by simp [Obj.references,hp,hk]
    rw [hrefs] at hws
    cases hws with
    | cons hv hrest =>
      have hplain : isHeap v = false := hsound.header fmt hfmt htype v (by simp [hp])
      rcases hv with ⟨-,rfl⟩ | hmem
      · simp [Obj.moved]
      · rw [(hg.places v (hsub (mem_of_mem_listing _ hmem))).1] at hplain
        cases hplain

theorem moved_length (hsound : h.Sound formats) (hlen : ws.length = (h.references formats).length) :
    (h.moved formats ws).payload.length = h.payload.length := by
  have := hsound.fits
  rw [references_length hsound] at hlen
  simp [Obj.moved,hlen]
  omega

section

variable (hg : Collectable g m live) (hsub : keys ⊆ live) (hsound : h.Sound g.formats) (hws :
  List.Forall₂ (MovedAs g m keys) (h.references g.formats) ws)

include hg hsub hsound hws

theorem moved_scannable :
    gcScannableSlots g.formats (h.moved g.formats ws) = gcScannableSlots g.formats h :=
  gcScannableSlots_congr rfl (moved_length hsound hws.length_eq.symm)
    (fun _ hfmt htype => moved_head hg hsub hsound hws hfmt htype)

theorem moved_references :
    (h.moved g.formats ws).references g.formats = ws ∧
      (h.moved g.formats ws).label g.formats = h.label g.formats := by
  have hlen : ws.length = gcScannableSlots g.formats h :=
    hws.length_eq.symm.trans (references_length hsound)
  unfold Obj.references Obj.label
  rw [moved_scannable hg hsub hsound hws]
  simp [Obj.moved,← hlen]

theorem moved_sound :
    (h.moved g.formats ws).Sound g.formats := by
  refine ⟨by simp [Obj.isForwarded,Obj.moved],?_,fun fmt hfmt htype => ?_⟩
  · rw [moved_scannable hg hsub hsound hws,moved_length hsound hws.length_eq.symm]
    exact hsound.fits
  · rw [moved_head hg hsub hsound hws hfmt htype]
    exact hsound.header fmt hfmt htype

end

end Moved

/-- The objects in use of one heap have become those of another; nothing is left of the old region,
and no other memory is different. -/
structure HeapMoved (formats : Formats) (heap : Heap) (m : Memory) (heap' : Heap) (m' : Memory)
    (live' : List Oop) (R : Oop → Oop → Prop) : Prop where
  ok : HeapOk formats heap' m' live'
  iso : Iso (heapGraph formats heap m) (heapGraph formats heap' m') R
  gone : ∀ o : Nat,heap.base ≤ o → o < heap.base + heap.capacity → m' o = none
  elsewhere : ∀ o : Nat,(o < heap.base ∨ heap.base + heap.capacity ≤ o) →
    (o < heap'.base ∨ heap'.base + heap'.capacity ≤ o) → m' o = m o

def WordMoved (formats : Formats) (heap : Heap) (m : Memory) (heap' : Heap) (m' : Memory)
    (live' : List Oop) (R : Oop → Oop → Prop) (v w : Oop) : Prop :=
  Related (heapGraph formats heap m) (heapGraph formats heap' m') R v w ∧
    HeapWord heap' m' live' w

section Collected

variable {keys : List Oop} {st : GcState}

/-- A collection whose scan has ended, with `keys` copied. -/
structure Collection (formats : Formats) (immBase immLimit sideRoom toBase : Nat) (heap : Heap)
    (m : Memory) (live keys : List Oop) (st : GcState) : Prop where
  ok : HeapOk formats heap m live
  region : FreshRegion m heap toBase heap.capacity
  immutable : heap.Mutable immBase immLimit
  side : (live.filter m.emptyAt).length ≤ sideRoom
  scanned : Scanning (gcSpaces formats immBase immLimit sideRoom toBase heap) m live keys [] st

def collectedHeap (toBase : Nat) (heap : Heap) (st : GcState) : Heap :=
  ⟨toBase,heap.capacity,st.toAlloc - toBase⟩

def collectedMemory (heap : Heap) (st : GcState) : Memory :=
  st.mem.free heap.base heap.capacity

/-- The copies as objects of the new heap, and which object each one is a copy of. -/
def movedObjects (m : Memory) (toBase : Nat) (keys : List Oop) : List Oop :=
  (listing m.sizeAt toBase keys).map Prod.fst

def MovedTo (m : Memory) (toBase : Nat) (keys : List Oop) (a b : Oop) : Prop :=
  (b,a) ∈ listing m.sizeAt toBase keys

namespace Collection

variable (c : Collection formats immBase immLimit sideRoom toBase heap m live keys st)

include c

theorem collectable : Collectable (gcSpaces formats immBase immLimit sideRoom toBase heap) m live :=
  c.ok.collectable c.region c.immutable c.side

theorem moving :
    Moving (gcSpaces formats immBase immLimit sideRoom toBase heap) m live keys st := by
  simpa using c.scanned.moving

theorem alloc : st.toAlloc = toBase + extent m.sizeAt keys ∧ extent m.sizeAt keys ≤ heap.used := by
  refine ⟨c.moving.alloc,Nat.le_trans ?_ c.ok.size⟩
  exact extent_le_of_subset m.sizeAt c.moving.nodup c.moving.sub

variable {n o : Nat}

theorem place (h : (n,o) ∈ listing m.sizeAt toBase keys) :
    n % 16 = 0 ∧ toBase ≤ n ∧ n < toBase + (collectedHeap toBase heap st).used := by
  obtain ⟨hlo,hhi⟩ := listing_bounds _ h
  have := m.sizeAt_pos o
  have := c.alloc.1
  refine ⟨listing_aligned _ m.sizeAt_mod c.region.aligned h,hlo,?_⟩
  simp only [collectedHeap]
  omega

theorem used_le : (collectedHeap toBase heap st).used ≤ heap.used := by
  have := c.alloc
  simp only [collectedHeap]
  omega

theorem holds (h : (n,o) ∈ listing m.sizeAt toBase keys) :
    (collectedHeap toBase heap st).holds n = true := by
  obtain ⟨hal,hlo,hhi⟩ := c.place h
  have := c.region.positive
  have := c.used_le
  have := c.ok.used
  refine Heap.holds_iff.mpr ⟨isHeap_of_aligned hal,by omega,hlo,?_⟩
  change n < toBase + heap.capacity
  omega

theorem object (h : (n,o) ∈ listing m.sizeAt toBase keys) :
    ∃ obj ws,m o = some obj ∧ obj.Sound formats ∧ o ∈ live ∧
      (∀ v ∈ obj.references formats,HeapWord heap m live v) ∧
      List.Forall₂ (MovedAs (gcSpaces formats immBase immLimit sideRoom toBase heap) m keys)
        (obj.references formats) ws ∧
      collectedMemory heap st n = some (obj.moved formats ws) := by
  obtain ⟨obj,ws,hobj,hws,hn⟩ := c.scanned.scanned n o h
  rw [append_nil] at hws
  have hlive : o ∈ live := c.moving.sub (mem_of_mem_listing _ h)
  obtain ⟨obj',hobj',hsound,hrefs⟩ := c.ok.objects o hlive
  obtain rfl : obj' = obj := by simpa [hobj] using hobj'.symm
  refine ⟨obj',ws,hobj',hsound,hlive,hrefs,hws,?_⟩
  obtain ⟨-,hlo,hhi⟩ := c.place h
  have hused := c.used_le
  have hcap := c.ok.used
  rw [collectedMemory,Memory.free_outside (c.region.apart n hlo (by omega))]
  exact hn

theorem elsewhere (hfrom : o < heap.base ∨ heap.base + heap.capacity ≤ o)
    (hto : o < toBase ∨ toBase + heap.capacity ≤ o) : collectedMemory heap st o = m o := by
  rw [collectedMemory,Memory.free_outside hfrom]
  refine c.moving.unmoved o (fun hkey => ?_) (Bool.eq_false_iff.mpr (fun hin => ?_))
  · obtain ⟨-,hlo,hhi⟩ := c.ok.within o (c.moving.sub hkey)
    have := c.ok.used
    omega
  · have := GcSpaces.inTo_iff.mp hin
    simp only [gcSpaces] at this
    omega

theorem functional (a b b' : Oop) (h : MovedTo m toBase keys a b)
    (h' : MovedTo m toBase keys a b') : b = b' :=
  listing_offset_unique _ c.moving.nodup h h'

theorem wordMoved {v w : Oop} (hv : HeapWord heap m live v)
    (hvw : MovedAs (gcSpaces formats immBase immLimit sideRoom toBase heap) m keys v w) :
    WordMoved formats heap m (collectedHeap toBase heap st) (collectedMemory heap st)
      (movedObjects m toBase keys) (MovedTo m toBase keys) v w := by
  rcases hvw with ⟨hinert,rfl⟩ | hmem
  · have hfrom : heap.holds w = false := by
      refine Bool.eq_false_iff.mpr (fun hh => ?_)
      obtain ⟨hheap,hzero,hlo,hhi⟩ := Heap.holds_iff.mp hh
      rcases hinert with h | h | ⟨h,-⟩
      · simp [hheap] at h
      · exact hzero h
      · rw [GcSpaces.inFrom_iff.mpr ⟨hlo,hhi⟩] at h
        cases h
    have hto : (collectedHeap toBase heap st).holds w = false := by
      refine Bool.eq_false_iff.mpr (fun hh => ?_)
      obtain ⟨hheap,hzero,hlo,hhi⟩ := Heap.holds_iff.mp hh
      rcases hinert with h | h | ⟨-,h⟩
      · simp [hheap] at h
      · exact hzero h
      · rw [GcSpaces.inTo_iff.mpr ⟨hlo,hhi⟩] at h
        cases h
    refine ⟨.inl ⟨hfrom,hto,rfl⟩,?_⟩
    by_cases hheap : isHeap w = true
    · by_cases hzero : w = 0
      · exact .inr (.inl hzero)
      · refine .inr (.inr (.inl ⟨hto,?_⟩))
        have hold : (m w).isSome = true := by
          rcases hv with h | h | ⟨-,h⟩ | h
          · simp [hheap] at h
          · exact absurd h hzero
          · exact h
          · rw [c.ok.holds h] at hfrom
            cases hfrom
        rw [c.elsewhere]
        · exact hold
        · by_contra hin
          rw [Heap.holds_iff.mpr ⟨hheap,hzero,by omega,by omega⟩] at hfrom
          cases hfrom
        · by_contra hin
          rw [Heap.holds_iff.mpr ⟨hheap,hzero,by simp only [collectedHeap]; omega,by
            simp only [collectedHeap]; omega⟩] at hto
          cases hto
    · exact .inl (by simpa using hheap)
  · have hlive : v ∈ live := c.moving.sub (mem_of_mem_listing _ hmem)
    refine ⟨.inr ⟨?_,?_,hmem⟩,.inr (.inr (.inr (List.mem_map.mpr ⟨_,hmem,rfl⟩)))⟩
    · simp [heapGraph,objectGraph,c.ok.holds hlive]
    · simp [heapGraph,objectGraph,c.holds hmem]

theorem heapOk : HeapOk formats (collectedHeap toBase heap st) (collectedMemory heap st)
    (movedObjects m toBase keys) := by
  have halloc := c.alloc
  have hused := c.used_le
  have hcap := c.ok.used
  have hmemory : ∀ o : Nat,toBase + (collectedHeap toBase heap st).used ≤ o →
      o < toBase + heap.capacity → collectedMemory heap st o = none := by
    intro o hlo hhi
    rw [collectedMemory,Memory.free_outside (c.region.apart o (by omega) hhi),c.moving.above o]
    · exact c.region.free o (by omega) hhi
    · intro hkey
      obtain ⟨-,hlo',hhi'⟩ := c.ok.within o (c.moving.sub hkey)
      have := c.region.apart o (by omega) hhi
      omega
    · simp only [collectedHeap] at hlo
      omega
  refine ⟨⟨c.region.aligned,?_⟩,c.region.positive,Nat.le_trans hused hcap,
    listing_offsets_nodup _ m.sizeAt_pos _ _,fun n hn => ?_,?_,fun n hn => ?_,hmemory⟩
  · simp only [collectedHeap,halloc.1,Nat.add_sub_cancel_left]
    exact extent_aligned _ m.sizeAt_mod _
  · obtain ⟨⟨n,o⟩,hno,rfl⟩ := List.mem_map.mp hn
    exact c.place hno
  · rw [movedObjects,extent_offsets _ (fun n o hno => ?_)]
    · simp only [collectedHeap]
      omega
    · obtain ⟨obj,ws,hobj,hsound,-,-,hws,hn⟩ := c.object hno
      rw [Memory.sizeAt_some hn,Memory.sizeAt_some hobj,moved_length hsound hws.length_eq.symm]
  · obtain ⟨⟨n,o⟩,hno,rfl⟩ := List.mem_map.mp hn
    obtain ⟨obj,ws,-,hsound,-,hrefs,hws,hn⟩ := c.object hno
    refine ⟨_,hn,moved_sound c.collectable c.moving.sub hsound hws,fun w hw => ?_⟩
    have hrefs' := (moved_references c.collectable c.moving.sub hsound hws).1
    simp only [gcSpaces] at hrefs'
    rw [hrefs'] at hw
    obtain ⟨v,hv,hvw⟩ := forall₂_mem_right hws hw
    exact (c.wordMoved (hrefs v hv) hvw).2

theorem words {vs ws : List Oop} (hvs : ∀ v ∈ vs,HeapWord heap m live v)
    (hws : List.Forall₂ (MovedAs (gcSpaces formats immBase immLimit sideRoom toBase heap) m keys)
      vs ws) :
    List.Forall₂ (WordMoved formats heap m (collectedHeap toBase heap st)
      (collectedMemory heap st) (movedObjects m toBase keys) (MovedTo m toBase keys)) vs ws := by
  refine forall₂_iff_get.mpr ⟨hws.length_eq,fun i hi hi' => ?_⟩
  exact c.wordMoved (hvs _ (List.get_mem _ _)) ((forall₂_iff_get.mp hws).2 i hi hi')

theorem heapMoved : HeapMoved formats heap m (collectedHeap toBase heap st)
    (collectedMemory heap st) (movedObjects m toBase keys) (MovedTo m toBase keys) := by
  refine ⟨c.heapOk,⟨c.functional,fun a a' b h h' => listing_unique _ m.sizeAt_pos h h',?_⟩,
    fun o hlo hhi => Memory.free_inside hlo hhi,fun o hfrom hto => c.elsewhere hfrom hto⟩
  intro a b hab
  obtain ⟨obj,ws,hobj,hsound,-,hrefs,hws,hb⟩ := c.object hab
  obtain ⟨hrefs',hlabel⟩ := moved_references c.collectable c.moving.sub hsound hws
  simp only [gcSpaces] at hrefs' hlabel
  refine ⟨obj.label formats,obj.references formats,ws,by simp [heapGraph,objectGraph,hobj],?_,?_⟩
  · simp only [heapGraph,objectGraph,hb,map_some,hrefs',hlabel]
  · exact (c.words hrefs hws).imp (fun _ _ h => h.1)

end Collection

/-- The collection runs to its end. -/
theorem staGcCollect_collection (hok : HeapOk formats heap m live)
    (hregion : FreshRegion m heap toBase heap.capacity) (himm : heap.Mutable immBase immLimit)
    (hside : (live.filter m.emptyAt).length ≤ sideRoom) {roots : List Oop}
    (hroots : ∀ v ∈ roots,HeapWord heap m live v) :
    ∃ keys st roots',Collection formats immBase immLimit sideRoom toBase heap m live keys st ∧
      staGcCollect formats immBase immLimit sideRoom (some toBase) heap m roots =
        some (some (collectedHeap toBase heap st,collectedMemory heap st,roots')) ∧
      List.Forall₂ (MovedAs (gcSpaces formats immBase immLimit sideRoom toBase heap) m keys)
        roots roots' := by
  have hg : Collectable (gcSpaces formats immBase immLimit sideRoom toBase heap) m live :=
    hok.collectable hregion himm hside
  have hstart : Moving (gcSpaces formats immBase immLimit sideRoom toBase heap) m live []
      ⟨m,toBase,[]⟩ := .start _ m live
  obtain ⟨st,new,roots',hcopy,hmoving,hext,hws⟩ := gcCopyAll_spec hg hstart
    (fun v hv => (hroots v hv).inert hregion)
  rw [nil_append] at hmoving hws
  have hscanning : Scanning (gcSpaces formats immBase immLimit sideRoom toBase heap) m live []
      new st := ⟨hmoving,nofun,hext.fresh⟩
  obtain ⟨more,st',hscan,hst'⟩ := gcScan_spec hg (heap.capacity + 1) hscanning (by
    simp only [gcSpaces,extent]
    omega)
  rw [nil_append] at hst'
  refine ⟨new ++ more,st',roots',⟨hok,hregion,himm,hside,hst'⟩,?_,hws.imp (fun _ _ h => h.mono)⟩
  change gcScan _ _ toBase st = some st' at hscan
  change gcCopyAll _ roots _ = some (st,roots') at hcopy
  simp only [staGcCollect]
  simp only [gcSpaces] at hscan hcopy
  simp only [hcopy,bind_eq_bind,bind_some,hscan]
  rfl

theorem staGcCollect_moves (hok : HeapOk formats heap m live)
    (hregion : FreshRegion m heap toBase heap.capacity) (himm : heap.Mutable immBase immLimit)
    (hside : (live.filter m.emptyAt).length ≤ sideRoom) {roots : List Oop}
    (hroots : ∀ v ∈ roots,HeapWord heap m live v) :
    ∃ heap' m' roots' live' R,
      staGcCollect formats immBase immLimit sideRoom (some toBase) heap m roots =
        some (some (heap',m',roots')) ∧
      heap'.base = toBase ∧ heap'.capacity = heap.capacity ∧ heap'.used ≤ heap.used ∧
      HeapMoved formats heap m heap' m' live' R ∧
      List.Forall₂ (WordMoved formats heap m heap' m' live' R) roots roots' := by
  obtain ⟨keys,st,roots',c,hcollect,hws⟩ := staGcCollect_collection hok hregion himm hside hroots
  refine ⟨_,_,roots',_,_,hcollect,rfl,rfl,c.used_le,c.heapMoved,c.words hroots hws⟩

end Collected

end

end SmalltalkA
