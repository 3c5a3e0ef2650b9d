import SmalltalkA.Gc.CollectRoots

/-! Growing a heap moves its objects by an offset (`sta_heap_grow`). The graph stays the same if all
roots are relocated too, by the enumeration `sta_heap_alloc_gc` has of its own. -/

set_option autoImplicit false

namespace SmalltalkA

open ObjectGraph Layout List Option

/-- A heap that is copied into a larger region. -/
structure Growth (formats : Formats) (heap : Heap) (m : Memory) (live : List Oop)
    (newBase capacity : Nat) : Prop where
  ok : HeapOk formats heap m live
  region : FreshRegion m heap newBase capacity
  room : heap.used ≤ capacity

def grownHeap (heap : Heap) (newBase capacity : Nat) : Heap := ⟨newBase,capacity,heap.used⟩

def Obj.relocated (heap : Heap) (newBase : Nat) (obj : Obj) : Obj :=
  { obj with payload := obj.payload.map (relocate heap.base heap.used newBase) }

def shift (heap : Heap) (newBase o : Nat) : Nat := o - heap.base + newBase

/-- The object's raw words do not look like pointers into the used part of the heap. -/
def Obj.RawKept (formats : Formats) (heap : Heap) (newBase : Nat) (obj : Obj) : Prop :=
  ∀ v ∈ obj.payload.drop (gcScannableSlots formats obj),
    relocate heap.base heap.used newBase v = v

section

variable {formats : Formats} {heap : Heap} {m m' : Memory} {live : List Oop}
  {newBase capacity : Nat}

theorem relocate_off {v : Nat} (hused : heap.used ≤ heap.capacity) (h : heap.holds v = false) :
    relocate heap.base heap.used newBase v = v := by
  refine if_neg (fun ⟨hheap,hzero,hlo,hhi⟩ => ?_)
  have hcap : v < heap.base + heap.capacity := Nat.lt_of_lt_of_le hhi (Nat.add_le_add_left hused _)
  rw [Heap.holds_iff.mpr ⟨hheap,hzero,hlo,hcap⟩] at h
  cases h

theorem Memory.move_rest {o : Nat} (ho : o < newBase ∨ newBase + heap.used ≤ o) :
    m.move heap newBase o = m.free heap.base heap.capacity o := by
  refine if_neg (fun h => ?_)
  exact ho.elim (Nat.not_lt.mpr h.1) (Nat.not_le.mpr h.2)

theorem Memory.move_elsewhere {o : Nat} (hfrom : o < heap.base ∨ heap.base + heap.capacity ≤ o)
    (hto : o < newBase ∨ newBase + heap.used ≤ o) : m.move heap newBase o = m o := by
  rw [Memory.move_rest hto,Memory.free_outside hfrom]

namespace Growth

variable (g : Growth formats heap m live newBase capacity)

include g

variable {o v : Nat}

theorem relocate_live (ho : o ∈ live) :
    relocate heap.base heap.used newBase o = shift heap newBase o := by
  obtain ⟨hal,hlo,hhi⟩ := g.ok.within o ho
  have hzero : o ≠ 0 := Nat.ne_of_gt (Nat.lt_of_lt_of_le g.ok.positive hlo)
  exact if_pos ⟨isHeap_of_aligned hal,hzero,hlo,hhi⟩

theorem place (ho : o ∈ live) : shift heap newBase o % 16 = 0 ∧ newBase ≤ shift heap newBase o ∧
      shift heap newBase o < newBase + heap.used ∧
      shift heap newBase o - newBase + heap.base = o := by
  obtain ⟨hal,hlo,hhi⟩ := g.ok.within o ho
  have := g.ok.aligned.1
  have := g.region.aligned
  unfold shift
  omega

theorem moved (ho : o ∈ live) :
    m.move heap newBase (shift heap newBase o) = (m o).map (Obj.relocated heap newBase) := by
  obtain ⟨-,hlo,hhi,hback⟩ := g.place ho
  have hcond : newBase ≤ shift heap newBase o ∧ shift heap newBase o < newBase + heap.used :=
    ⟨hlo,hhi⟩
  simp only [Memory.move,hcond,and_self,if_true,hback]
  rfl

theorem gone (hlo : heap.base ≤ o) (hhi : o < heap.base + heap.capacity) :
    m.move heap newBase o = none := by
  rw [Memory.move_rest]
  · exact Memory.free_inside hlo hhi
  · by_contra hin
    have := g.room
    have := g.region.apart o (by omega) (by omega)
    omega

theorem holds (ho : o ∈ live) :
    (grownHeap heap newBase capacity).holds (shift heap newBase o) = true := by
  obtain ⟨hal,hlo,hhi,-⟩ := g.place ho
  have := g.region.positive
  have := g.room
  exact Heap.holds_iff.mpr ⟨isHeap_of_aligned hal,by omega,hlo,Nat.lt_of_lt_of_le hhi (by
    simp only [grownHeap]
    omega)⟩

theorem off (hv : HeapWord heap m live v) (hoff : heap.holds v = false) :
    (grownHeap heap newBase capacity).holds v = false := by
  refine Bool.eq_false_iff.mpr (fun hh => ?_)
  obtain ⟨hheap,hzero,hlo,hhi⟩ := Heap.holds_iff.mp hh
  rcases hv with h | h | ⟨-,h⟩ | h
  · simp [hheap] at h
  · exact hzero h
  · rw [g.region.free v hlo hhi] at h
    cases h
  · rw [g.ok.holds h] at hoff
    cases hoff

theorem stale (hv : heap.holds v = true) : (grownHeap heap newBase capacity).holds v = false := by
  refine Bool.eq_false_iff.mpr (fun hh => ?_)
  obtain ⟨-,-,hlo,hhi⟩ := Heap.holds_iff.mp hv
  obtain ⟨-,-,hlo',hhi'⟩ := Heap.holds_iff.mp hh
  have := g.region.apart v hlo' hhi'
  omega

theorem relocated_word (hv : HeapWord heap m live v) :
    heap.holds v = false ∧ (grownHeap heap newBase capacity).holds v = false ∧
      relocate heap.base heap.used newBase v = v ∨
    v ∈ live ∧ relocate heap.base heap.used newBase v = shift heap newBase v := by
  rcases g.ok.atom hv with ⟨hoff,-⟩ | ⟨-,hlive⟩
  · exact .inl ⟨hoff,g.off hv hoff,relocate_off g.ok.used hoff⟩
  · exact .inr ⟨hlive,g.relocate_live hlive⟩

theorem relocated_heapWord (hv : HeapWord heap m live v) :
    HeapWord (grownHeap heap newBase capacity) (m.move heap newBase)
      (live.map (shift heap newBase)) (relocate heap.base heap.used newBase v) := by
  rcases g.relocated_word hv with ⟨hoff,hoff',heq⟩ | ⟨hlive,heq⟩
  · rw [heq]
    rcases hv with h | h | ⟨-,h⟩ | h
    · exact .inl h
    · exact .inr (.inl h)
    · by_cases hheap : isHeap v = true
      · by_cases hzero : v = 0
        · exact .inr (.inl hzero)
        · refine .inr (.inr (.inl ⟨hoff',?_⟩))
          rw [Memory.move_elsewhere]
          · exact h
          · by_contra hin
            rw [Heap.holds_iff.mpr ⟨hheap,hzero,by omega,by omega⟩] at hoff
            cases hoff
          · by_contra hin
            have := g.room
            rw [Heap.holds_iff.mpr ⟨hheap,hzero,by simp only [grownHeap]; omega,by
              simp only [grownHeap]; omega⟩] at hoff'
            cases hoff'
      · exact .inl (by simpa using hheap)
    · rw [g.ok.holds h] at hoff
      cases hoff
  · rw [heq]
    exact .inr (.inr (.inr (List.mem_map_of_mem hlive)))

theorem relocated_parts {obj : Obj} (ho : o ∈ live) (hobj : m o = some obj) :
    gcScannableSlots formats (obj.relocated heap newBase) = gcScannableSlots formats obj ∧
    (obj.relocated heap newBase).references formats =
      (obj.references formats).map (relocate heap.base heap.used newBase) := by
  obtain ⟨obj',hobj',hsound,-⟩ := g.ok.objects o ho
  obtain rfl : obj' = obj := by simpa [hobj] using hobj'.symm
  have hcount : gcScannableSlots formats (obj'.relocated heap newBase) =
      gcScannableSlots formats obj' := by
    refine gcScannableSlots_congr rfl (by simp [Obj.relocated]) (fun fmt hfmt htype => ?_)
    have hheader := hsound.header fmt hfmt htype
    cases hp : obj'.payload with
    | nil => simp [Obj.relocated,hp]
    | cons v vs =>
      have hv : isHeap v = false := hheader v (by simp [hp])
      simp [Obj.relocated,hp,relocate,hv]
  refine ⟨hcount,?_⟩
  unfold Obj.references
  rw [hcount]
  simp [Obj.relocated,map_take]

theorem heapOk : HeapOk formats (grownHeap heap newBase capacity) (m.move heap newBase)
    (live.map (shift heap newBase)) := by
  refine ⟨⟨g.region.aligned,g.ok.aligned.2⟩,g.region.positive,g.room,?_,fun n hn => ?_,?_,
    fun n hn => ?_,fun o hlo hhi => ?_⟩
  · refine List.Nodup.map_on (fun a ha b hb heq => ?_) g.ok.nodup
    rw [← (g.place ha).2.2.2,heq,(g.place hb).2.2.2]
  · obtain ⟨o,ho,rfl⟩ := List.mem_map.mp hn
    obtain ⟨hal,hlo,hhi,-⟩ := g.place ho
    exact ⟨hal,hlo,hhi⟩
  · have hsize : ∀ o ∈ live,(m.move heap newBase).sizeAt (shift heap newBase o) = m.sizeAt o := by
      intro o ho
      obtain ⟨obj,hobj,-⟩ := g.ok.objects o ho
      have hmoved := g.moved ho
      rw [hobj] at hmoved
      rw [Memory.sizeAt_some hobj,Memory.sizeAt_some hmoved]
      simp [Obj.relocated]
    rw [extent_map,extent_congr _ hsize]
    exact g.ok.size
  · obtain ⟨o,ho,rfl⟩ := List.mem_map.mp hn
    obtain ⟨obj,hobj,hsound,hrefs⟩ := g.ok.objects o ho
    obtain ⟨hcount,hrefs'⟩ := g.relocated_parts ho hobj
    refine ⟨obj.relocated heap newBase,by rw [g.moved ho,hobj]; rfl,⟨hsound.unforwarded,?_,?_⟩,
      fun w hw => ?_⟩
    · rw [hcount]
      simpa [Obj.relocated] using hsound.fits
    · intro fmt hfmt htype w hw
      have hheader := hsound.header fmt hfmt htype
      cases hp : obj.payload with
      | nil => simp [Obj.relocated,hp] at hw
      | cons v vs =>
        have hv : isHeap v = false := hheader v (by simp [hp])
        have hw' : w = v := by simpa [Obj.relocated,hp,relocate,hv] using hw.symm
        rw [hw']
        exact hv
    · rw [hrefs'] at hw
      obtain ⟨v,hv,rfl⟩ := List.mem_map.mp hw
      exact g.relocated_heapWord (hrefs v hv)
  · simp only [grownHeap] at hlo hhi
    rw [Memory.move_elsewhere (g.region.apart o (by omega) hhi) (.inr hlo)]
    exact g.region.free o (by omega) hhi

theorem node (used : Nat)
    (hm : ∀ o ∈ live,m' (shift heap newBase o) = m.move heap newBase (shift heap newBase o))
    {obj : Obj} (ho : o ∈ live) (hobj : m o = some obj) :
    (heapGraph formats ⟨newBase,capacity,used⟩ m').node (shift heap newBase o) =
      some ({ obj.label formats with
        raw := (obj.payload.drop (gcScannableSlots formats obj)).map
          (relocate heap.base heap.used newBase) },
        (obj.references formats).map (relocate heap.base heap.used newBase)) := by
  obtain ⟨hcount,hrefs⟩ := g.relocated_parts ho hobj
  simp only [heapGraph,objectGraph,hm o ho,g.moved ho,hobj,map_some,hrefs,Obj.label,hcount]
  simp [Obj.relocated,map_drop]

theorem related (used : Nat) (m' : Memory) {R : Oop → Oop → Prop} (hv : HeapWord heap m live v)
    (hR : v ∈ live → R v (shift heap newBase v)) :
    Related (heapGraph formats heap m) (heapGraph formats ⟨newBase,capacity,used⟩ m') R v
      (relocate heap.base heap.used newBase v) := by
  rcases g.relocated_word hv with ⟨hoff,hoff',heq⟩ | ⟨hlive,heq⟩
  · rw [heq]
    exact .inl ⟨hoff,hoff',rfl⟩
  · rw [heq]
    refine .inr ⟨?_,?_,hR hlive⟩
    · simp [heapGraph,objectGraph,g.ok.holds hlive]
    · exact fun hatom => Bool.false_ne_true (hatom.symm.trans (g.holds hlive))

end Growth

/-- No raw word of the objects that `words` lead to looks like a pointer into the old heap. -/
def RawWordsKept (formats : Formats) (heap : Heap) (m : Memory) (words : List Oop)
    (old : Heap) (newBase : Nat) : Prop :=
  ∀ o obj,Reachable (heapGraph formats heap m) words o → m o = some obj →
    obj.RawKept formats old newBase

variable {words : List Oop}

theorem Growth.reachable_live (g : Growth formats heap m live newBase capacity)
    (hwords : ∀ v ∈ words,HeapWord heap m live v) {o : Oop}
    (ho : Reachable (heapGraph formats heap m) words o) : o ∈ live :=
  ho.mem g.ok.closed (fun v hv => (g.ok.atom (hwords v hv)).imp And.left And.right)

/-- With all words relocated, the objects make up the same graph exactly if no raw word was taken
for a pointer. -/
theorem Growth.relocated_iff (g : Growth formats heap m live newBase capacity) (used : Nat)
    (hm : ∀ o ∈ live,m' (shift heap newBase o) = m.move heap newBase (shift heap newBase o))
    (hwords : ∀ v ∈ words,HeapWord heap m live v) :
    Isomorphic (heapGraph formats heap m) words (heapGraph formats ⟨newBase,capacity,used⟩ m')
        (words.map (relocate heap.base heap.used newBase)) ↔
      RawWordsKept formats heap m words heap newBase := by
  constructor
  · rintro ⟨R,hiso,hrel⟩ o obj ho hobj
    have hfollow : ∀ us : List Oop,(∀ v ∈ us,HeapWord heap m live v) →
        List.Forall₂ (fun v w => ¬ (heapGraph formats heap m).atom v →
          v ∈ live ∧ w = shift heap newBase v) us
          (us.map (relocate heap.base heap.used newBase)) := by
      intro us hus
      rw [forall₂_map_right_iff,forall₂_same]
      intro v hv hatom
      rcases g.relocated_word (hus v hv) with ⟨hoff,-⟩ | hlive
      · exact absurd hoff hatom
      · exact hlive
    obtain ⟨b,hR,hlive,rfl⟩ := hiso.follows
      (S := fun a b => a ∈ live ∧ b = shift heap newBase a) hrel (hfollow words hwords) (by
        rintro a b l l' us us' ⟨ha,rfl⟩ hg hh
        obtain ⟨obj',hobj',-,hrefs⟩ := g.ok.objects a ha
        simp only [heapGraph,objectGraph,hobj',map_some,some.injEq,Prod.mk.injEq] at hg
        rw [g.node used hm ha hobj',some.injEq,Prod.mk.injEq] at hh
        obtain ⟨-,rfl⟩ := hg
        obtain ⟨-,rfl⟩ := hh
        exact hfollow _ hrefs) ho
    obtain ⟨l,vs,ws,hg,hh,-⟩ := hiso.nodes _ _ hR
    rw [g.node used hm hlive hobj,some.injEq,Prod.mk.injEq] at hh
    simp only [heapGraph,objectGraph,hobj,map_some,some.injEq,Prod.mk.injEq] at hg
    have hraw : (obj.payload.drop (gcScannableSlots formats obj)).map
        (relocate heap.base heap.used newBase) =
        (obj.payload.drop (gcScannableSlots formats obj)).map id := by
      rw [List.map_id]
      exact congrArg ObjLabel.raw (hh.1.trans hg.1.symm)
    exact fun v hv => map_inj_left.mp hraw v hv
  · intro hraw
    refine ⟨fun a b => Reachable (heapGraph formats heap m) words a ∧ b = shift heap newBase a,
      ⟨?_,?_,?_⟩,?_⟩
    · rintro a b b' ⟨-,rfl⟩ ⟨-,rfl⟩
      rfl
    · rintro a a' b ⟨ha,rfl⟩ ⟨ha',heq⟩
      rw [← (g.place (g.reachable_live hwords ha)).2.2.2,heq,
        (g.place (g.reachable_live hwords ha')).2.2.2]
    · rintro a b ⟨ha,rfl⟩
      have hlive := g.reachable_live hwords ha
      obtain ⟨obj,hobj,-,hrefs⟩ := g.ok.objects a hlive
      have hnode : (heapGraph formats heap m).node a =
          some (obj.label formats,obj.references formats) := by
        simp [heapGraph,objectGraph,hobj]
      refine ⟨_,_,(obj.references formats).map (relocate heap.base heap.used newBase),hnode,?_,?_⟩
      · rw [g.node used hm hlive hobj]
        have hsame : (obj.payload.drop (gcScannableSlots formats obj)).map
            (relocate heap.base heap.used newBase) =
            obj.payload.drop (gcScannableSlots formats obj) :=
          (map_congr_left (hraw a obj ha hobj)).trans (List.map_id' _)
        rw [hsame]
        rfl
      · rw [forall₂_map_right_iff,forall₂_same]
        intro v hv
        refine g.related used m' (hrefs v hv) (fun hvlive => ⟨.step ha hnode hv ?_,rfl⟩)
        simp [heapGraph,objectGraph,g.ok.holds hvlive]
    · rw [forall₂_map_right_iff,forall₂_same]
      intro v hv
      refine g.related used m' (hwords v hv) (fun hvlive => ⟨.root hv ?_,rfl⟩)
      simp [heapGraph,objectGraph,g.ok.holds hvlive]

/-! ### The fixup of the roots -/

def FixupCovers (heap : Heap) (roots : List Root) : Prop :=
  ∀ r ∈ roots,r.kind.scanned = true → heap.holds r.word = true → r.kind.fixedUp = true

theorem scanned_fixup (roots : List Root) : scannedWords (fixupRoots heap newBase roots) =
    (roots.filter (fun r => r.kind.scanned)).map (fun r => if r.kind.fixedUp then
      relocate heap.base heap.used newBase r.word else r.word) := by
  induction roots with
  | nil => rfl
  | cons r roots ih =>
    simp only [scannedWords,fixupRoots,map_cons] at ih ⊢
    by_cases hs : r.kind.scanned = true <;> by_cases hf : r.kind.fixedUp = true <;>
      simp [hs,hf,ih]

theorem Growth.isomorphic_iff (g : Growth formats heap m live newBase capacity) (used : Nat)
    (hm : ∀ o ∈ live,m' (shift heap newBase o) = m.move heap newBase (shift heap newBase o))
    {roots : List Root} (hroots : ∀ v ∈ scannedWords roots,HeapWord heap m live v) :
    Isomorphic (heapGraph formats heap m) (scannedWords roots)
        (heapGraph formats ⟨newBase,capacity,used⟩ m')
        (scannedWords (fixupRoots heap newBase roots)) ↔
      FixupCovers heap roots ∧ RawWordsKept formats heap m (scannedWords roots) heap newBase := by
  have hfixed : FixupCovers heap roots → scannedWords (fixupRoots heap newBase roots) =
      (scannedWords roots).map (relocate heap.base heap.used newBase) := by
    intro hcovers
    rw [scanned_fixup,scannedWords,List.map_map]
    refine map_congr_left (fun r hr => ?_)
    obtain ⟨hr,hs⟩ := mem_filter.mp hr
    by_cases hf : r.kind.fixedUp = true
    · simp [hf]
    · have hoff : heap.holds r.word = false :=
        Bool.eq_false_iff.mpr (fun hh => hf (hcovers r hr hs hh))
      simp [hf,relocate_off g.ok.used hoff]
  constructor
  · intro hiso
    have hcovers : FixupCovers heap roots := by
      obtain ⟨R,-,hrel⟩ := hiso
      intro r hr hs hholds
      by_contra hnot
      rw [scanned_fixup,scannedWords,forall₂_map_left_iff,forall₂_map_right_iff,
        forall₂_same] at hrel
      have hr' := hrel r (mem_filter.mpr ⟨hr,hs⟩)
      rw [if_neg hnot] at hr'
      rcases hr' with ⟨hatom,-⟩ | ⟨-,hatom,-⟩
      · simp [heapGraph,objectGraph,hholds] at hatom
      · exact hatom (g.stale hholds)
    refine ⟨hcovers,(g.relocated_iff used hm hroots).mp ?_⟩
    rw [← hfixed hcovers]
    exact hiso
  · rintro ⟨hcovers,hraw⟩
    rw [hfixed hcovers]
    exact (g.relocated_iff used hm hroots).mpr hraw

/-! ### `sta_heap_alloc_gc` -/

theorem fixupCovers_refill {heap' : Heap} {roots : List Root} {ws : List Oop}
    (h : List.Forall₂ (fun v w => heap.holds v = heap'.holds w) (scannedWords roots) ws) :
    FixupCovers heap roots ↔ FixupCovers heap' (refillRoots roots ws) := by
  unfold FixupCovers
  induction roots generalizing ws with
  | nil => simp [refillRoots]
  | cons r roots ih =>
    by_cases hs : r.kind.scanned = true
    · have hcons : scannedWords (r :: roots) = r.word :: scannedWords roots := by
        simp [scannedWords,hs]
      rw [hcons] at h
      cases h with
      | cons hr ht =>
        rename_i w ws
        rw [refillRoots,if_pos hs,forall_mem_cons,forall_mem_cons,tail_cons,headD_cons,ih ht,hr]
    · have hcons : scannedWords (r :: roots) = scannedWords roots := by
        simp [scannedWords,hs]
      rw [hcons] at h
      rw [refillRoots,if_neg hs,forall_mem_cons,forall_mem_cons,ih h]
      simp [hs]

theorem Obj.rawKept_iff {obj : Obj} : obj.RawKept formats heap newBase ↔
    ∀ v ∈ (obj.label formats).raw,relocate heap.base heap.used newBase v = v := Iff.rfl

theorem rawWordsKept_iso {heap₁ old : Heap} {m₁ : Memory} {words₁ : List Oop} {R : Oop → Oop → Prop}
    (hiso : Iso (heapGraph formats heap m) (heapGraph formats heap₁ m₁) R) (hwords : List.Forall₂
      (Related (heapGraph formats heap m) (heapGraph formats heap₁ m₁) R) words words₁)
    (h : RawWordsKept formats heap₁ m₁ words₁ old newBase) :
    RawWordsKept formats heap m words old newBase := by
  intro o obj ho hobj
  obtain ⟨b,hR,hb⟩ := hiso.reachable hwords ho
  obtain ⟨l,vs,ws,hg,hh,-⟩ := hiso.nodes o b hR
  cases hobj₁ : m₁ b with
  | none => simp [heapGraph,objectGraph,hobj₁] at hh
  | some obj₁ =>
    simp only [heapGraph,objectGraph,hobj,hobj₁,map_some,some.injEq,Prod.mk.injEq] at hg hh
    rw [Obj.rawKept_iff,hg.1,← hh.1]
    exact h b obj₁ hb hobj₁

theorem grownCapacity_room (h : Heap) (n : Nat) : h.used + alignedSize n ≤ grownCapacity h n :=
  Nat.le_max_right _ _

theorem staHeapAllocGc_grows {p : GcParams} {s s₁ : ActorSpace} {base k n : Nat}
    {regions : List (Option Nat)} (hfull : s.alloc k n = none)
    (hcollect : s.collect p = some (s₁,true)) (hfull₁ : s₁.alloc k n = none)
    (hregion : s₁.regions = some base :: regions) :
    staHeapAllocGc p s k n = some ({
      heap := ⟨base,(grownCapacity s₁.heap n + 15) / 16 * 16,s₁.heap.used + alignedSize n⟩
      mem := (s₁.mem.move s₁.heap base).put (base + s₁.heap.used) (some (newObj k n))
      roots := fixupRoots s₁.heap base s₁.roots
      regions := regions },some (base + s₁.heap.used)) := by
  have hroom := grownCapacity_room s₁.heap n
  have hnoroom : s₁.heap.capacity < s₁.heap.used + alignedSize n := by
    by_contra hnot
    have hnot' : ¬ s₁.heap.used + alignedSize n > s₁.heap.capacity := by omega
    simp [ActorSpace.alloc,heapAlloc,hnot'] at hfull₁
  have hlarger : ¬ (grownCapacity s₁.heap n + 15) / 16 * 16 ≤ s₁.heap.capacity := by omega
  have hfits : ¬ s₁.heap.used + alignedSize n > (grownCapacity s₁.heap n + 15) / 16 * 16 := by
    omega
  simp only [staHeapAllocGc,hfull,hcollect,hfull₁]
  simp [staHeapGrow,hlarger,ActorSpace.nextRegion,hregion,ActorSpace.alloc,heapAlloc,hfits]

/-- `sta_heap_alloc_gc` on the growth path returns an object, and the graph of the traced roots is
the one before exactly if the fixup gets to all that hold pointers into the heap and no raw word
looks like one. -/
theorem growth_fixup_iff {p : GcParams} {s s₁ : ActorSpace} {base₁ base₂ k n : Nat}
    {regions₁ regions₂ : List (Option Nat)} (hok : SpaceOk p s live)
    (hregion₁ : NextRegion p s s.heap.capacity base₁ regions₁)
    (hside : (live.filter s.mem.emptyAt).length ≤ p.sideRoom)
    (hfull : s.alloc k n = none) (hcollect : s.collect p = some (s₁,true))
    (hfull₁ : s₁.alloc k n = none)
    (hregion₂ : NextRegion p s₁ ((grownCapacity s₁.heap n + 15) / 16 * 16) base₂ regions₂) :
    ∃ t o,staHeapAllocGc p s k n = some (t,some o) ∧
      (Isomorphic (heapGraph p.formats s.heap s.mem) (scannedWords s.roots)
          (heapGraph p.formats t.heap t.mem) (scannedWords t.roots) ↔
        FixupCovers s.heap s.roots ∧
          RawWordsKept p.formats s.heap s.mem (scannedWords s.roots) s₁.heap base₂) := by
  obtain ⟨s₁',live₁,R,hcollect',-,hroots,-,hcap,-,hmoved,hok₁,hwords⟩ :=
    collect_moves hok hregion₁ hside
  obtain rfl : s₁' = s₁ := by simpa [hcollect] using hcollect'.symm
  have hroom := grownCapacity_room s₁'.heap n
  have g : Growth p.formats s₁'.heap s₁'.mem live₁ base₂
      ((grownCapacity s₁'.heap n + 15) / 16 * 16) :=
    ⟨hok₁.heap,hregion₂.fresh,by omega⟩
  have hm : ∀ o ∈ live₁,(s₁'.mem.move s₁'.heap base₂).put (base₂ + s₁'.heap.used)
      (some (newObj k n)) (shift s₁'.heap base₂ o) =
      s₁'.mem.move s₁'.heap base₂ (shift s₁'.heap base₂ o) :=
    fun o ho => Memory.put_other (Nat.ne_of_lt (g.place ho).2.2.1) _
  refine ⟨_,_,staHeapAllocGc_grows hfull hcollect hfull₁ hregion₂.next,?_⟩
  have hiff := g.isomorphic_iff (s₁'.heap.used + alignedSize n) hm hok₁.roots
  have hrel := hwords.imp (fun _ _ h => h.1)
  have hiso : Isomorphic (heapGraph p.formats s.heap s.mem) (scannedWords s.roots)
      (heapGraph p.formats s₁'.heap s₁'.mem) (scannedWords s₁'.roots) := ⟨R,hmoved.iso,hrel⟩
  have hcovers : FixupCovers s.heap s.roots ↔ FixupCovers s₁'.heap s₁'.roots := by
    rw [hroots]
    refine fixupCovers_refill (hrel.imp (fun v w h => ?_))
    rcases h with ⟨hv,hw,-⟩ | ⟨hv,hw,-⟩
    · exact hv.trans hw.symm
    · simp only [heapGraph,objectGraph,Bool.not_eq_false] at hv hw
      rw [hv,hw]
  rw [hcovers]
  constructor
  · intro h
    obtain ⟨hc,hraw⟩ := hiff.mp (hiso.symm.trans h)
    exact ⟨hc,rawWordsKept_iso hmoved.iso hrel hraw⟩
  · rintro ⟨hc,hraw⟩
    refine hiso.trans (hiff.mpr ⟨hc,?_⟩)
    exact rawWordsKept_iso hmoved.iso.symm (hrel.flip.imp (fun _ _ h => Related.symm h)) hraw

end

/-- A collection or a growth with its fixup, with fresh memory and room in the side table. -/
inductive HeapStep (p : GcParams) (s : ActorSpace) : ActorSpace → Prop where
  | collect {t : ActorSpace} {base : Nat} {regions : List (Option Nat)}
      (hregion : NextRegion p s s.heap.capacity base regions)
      (hside : ∀ live,SpaceOk p s live → (live.filter s.mem.emptyAt).length ≤ p.sideRoom)
      (h : s.collect p = some (t,true)) : HeapStep p s t
  | grow {t : ActorSpace} {base n : Nat} {regions : List (Option Nat)}
      (hregion : NextRegion p s ((n + 15) / 16 * 16) base regions)
      (hlarger : s.heap.capacity < (n + 15) / 16 * 16) (hcovers : FixupCovers s.heap s.roots)
      (hraw : RawWordsKept p.formats s.heap s.mem (scannedWords s.roots) s.heap base)
      (h : staHeapGrow s n = (t,true)) :
      HeapStep p s { t with roots := fixupRoots s.heap t.heap.base t.roots }

def SameGraph (p : GcParams) (s t : ActorSpace) : Prop :=
  Isomorphic (heapGraph p.formats s.heap s.mem) (scannedWords s.roots)
    (heapGraph p.formats t.heap t.mem) (scannedWords t.roots)

variable {p : GcParams} {s t : ActorSpace} {live : List Oop}

theorem HeapStep.keeps (hok : SpaceOk p s live) (h : HeapStep p s t) :
    ∃ live',SpaceOk p t live' ∧ SameGraph p s t := by
  cases h with
  | collect hregion hside h =>
    obtain ⟨t',live',R,hcollect,-,-,-,-,-,hmoved,hok',hwords⟩ :=
      collect_moves hok hregion (hside live hok)
    obtain rfl : t' = t := by simpa [h] using hcollect.symm
    exact ⟨live',hok',R,hmoved.iso,hwords.imp fun _ _ hw => hw.1⟩
  | @grow t base n regions hregion hlarger hcovers hraw h =>
    have hused := hok.heap.used
    have g : Growth p.formats s.heap s.mem live base ((n + 15) / 16 * 16) :=
      ⟨hok.heap,hregion.fresh,by omega⟩
    simp only [staHeapGrow,if_neg (Nat.not_le.mpr hlarger),ActorSpace.nextRegion,hregion.next] at h
    cases h
    refine ⟨_,⟨g.heapOk,fun v hv => ?_,hregion.immutable⟩,
      (g.isomorphic_iff s.heap.used (fun _ _ => rfl) hok.roots).mpr ⟨hcovers,hraw⟩⟩
    rw [scanned_fixup] at hv
    obtain ⟨r,hr,rfl⟩ := mem_map.mp hv
    obtain ⟨hr,hs⟩ := mem_filter.mp hr
    have hword : HeapWord s.heap s.mem live r.word :=
      hok.roots _ (mem_map.mpr ⟨r,mem_filter.mpr ⟨hr,hs⟩,rfl⟩)
    have hmoved := g.relocated_heapWord hword
    split
    · exact hmoved
    · next hfixed =>
      have hoff : s.heap.holds r.word = false :=
        Bool.eq_false_iff.mpr fun hh => hfixed (hcovers r hr hs hh)
      rwa [relocate_off hused hoff] at hmoved

def fullHeapActor (kind : RootKind) : ActorSpace where
  heap := ⟨4096,48,48⟩
  mem := fun o => if o = 4096 then some ⟨clsArray,0,0,0,[4096,7,9]⟩ else none
  roots := [⟨kind,4096⟩]
  regions := [some 8192,some 16384]

def plainParams : GcParams := ⟨fun _ => none,0,0,12⟩

theorem fullHeapActor_ok : SpaceOk plainParams (fullHeapActor (.stack 0)) [4096] where
  heap := by constructor <;> decide
  roots := by decide
  immutable := by decide

theorem fullHeapActor_region :
    NextRegion plainParams (fullHeapActor (.stack 0)) 48 8192 [some 16384] where
  next := rfl
  fresh := by constructor <;> decide
  immutable := by decide

/-- With the Array on the innermost expression stack, growing loses nothing. -/
theorem growth_fixup_innermost : ∃ t o,
    staHeapAllocGc plainParams (fullHeapActor (.stack 0)) clsArray 1 = some (t,some o) ∧
    Isomorphic (heapGraph plainParams.formats (fullHeapActor (.stack 0)).heap
        (fullHeapActor (.stack 0)).mem) [4096]
      (heapGraph plainParams.formats t.heap t.mem) (scannedWords t.roots) := by
  obtain ⟨t,o,halloc,hiff⟩ := growth_fixup_iff fullHeapActor_ok fullHeapActor_region (by decide)
    (k := clsArray) (n := 1) rfl rfl (by decide)
    (⟨rfl,by constructor <;> decide,by decide⟩ : NextRegion plainParams _ _ 16384 [])
  refine ⟨t,o,halloc,hiff.mpr ⟨fun r hr _ _ => ?_,fun a obj ha hobj v hv => ?_⟩⟩
  · obtain rfl := mem_singleton.mp hr
    rfl
  · -- without a format all words of an object are references
    simp [gcScannableSlots,slotsToScan,plainParams] at hv

/-- On the expression stack of the sender's frame, the word is left as the collection has put it,
and points into the region that growing has freed. -/
theorem sender_stack_not_relocated : ∃ t o,
    staHeapAllocGc plainParams (fullHeapActor (.stack 1)) clsArray 1 = some (t,some o) ∧
    t.roots = [⟨.stack 1,8192⟩] ∧ t.heap.base = 16384 ∧ t.mem 8192 = none ∧
    ¬ Isomorphic (heapGraph plainParams.formats (fullHeapActor (.stack 1)).heap
        (fullHeapActor (.stack 1)).mem) [4096]
      (heapGraph plainParams.formats t.heap t.mem) [8192] := by
  refine ⟨_,_,rfl,rfl,rfl,rfl,?_⟩
  rintro ⟨R,hiso,hroots⟩
  cases hroots with
  | cons hrel _ =>
    rcases hrel with ⟨hatom,-⟩ | ⟨-,hatom,-⟩
    · exact absurd hatom (show ¬ (fullHeapActor (.stack 1)).heap.holds 4096 = false by decide)
    · exact hatom rfl

end SmalltalkA
