import SmalltalkA.Gc.HeapGraph

/-! `sta_gc_collect` on an actor keeps the graph that its roots lead to. -/

set_option autoImplicit false

namespace SmalltalkA

open ObjectGraph Layout List

/-- An actor with the objects `live` in use: the heap is in order, and the traced roots lead to
these objects or off the heap. -/
structure SpaceOk (p : GcParams) (s : ActorSpace) (live : List Oop) : Prop where
  heap : HeapOk p.formats s.heap s.mem live
  roots : ∀ v ∈ scannedWords s.roots,HeapWord s.heap s.mem live v
  immutable : s.heap.Mutable p.immBase p.immLimit

/-- The next region is a fresh one of `size` bytes. -/
structure NextRegion (p : GcParams) (s : ActorSpace) (size base : Nat)
    (regions : List (Option Nat)) : Prop where
  next : s.regions = some base :: regions
  fresh : FreshRegion s.mem s.heap base size
  immutable : ∀ o : Nat,base ≤ o → o < base + size → ¬ (p.immBase ≤ o ∧ o < p.immLimit)

@[simp] theorem refillRoots_kinds (roots : List Root) (ws : List Oop) :
    (refillRoots roots ws).map Root.kind = roots.map Root.kind := by
  induction roots generalizing ws with
  | nil => rfl
  | cons r roots ih =>
    unfold refillRoots
    split <;> simp [ih]

theorem scannedWords_refill {roots : List Root} {ws : List Oop}
    (h : ws.length = (scannedWords roots).length) : scannedWords (refillRoots roots ws) = ws := by
  induction roots generalizing ws with
  | nil =>
    have hnil : ws = [] := eq_nil_of_length_eq_zero h
    simp [refillRoots,scannedWords,hnil]
  | cons r roots ih =>
    by_cases hs : r.kind.scanned = true
    · have hcons : scannedWords (r :: roots) = r.word :: scannedWords roots := by
        simp [scannedWords,hs]
      rw [hcons] at h
      cases ws with
      | nil => cases h
      | cons w ws =>
        rw [refillRoots,if_pos hs]
        have := ih (Nat.succ.inj h)
        simpa [scannedWords,hs] using this
    · have hcons : scannedWords (r :: roots) = scannedWords roots := by
        simp [scannedWords,hs]
      rw [hcons] at h
      rw [refillRoots,if_neg hs]
      have := ih h
      simpa [scannedWords,hs] using this

theorem collect_moves {p : GcParams} {s : ActorSpace} {live : List Oop} {base : Nat}
    {regions : List (Option Nat)} (hok : SpaceOk p s live)
    (hregion : NextRegion p s s.heap.capacity base regions)
    (hside : (live.filter s.mem.emptyAt).length ≤ p.sideRoom) :
    ∃ s' live' R,s.collect p = some (s',true) ∧ s'.regions = regions ∧
      s'.roots = refillRoots s.roots (scannedWords s'.roots) ∧
      s'.heap.base = base ∧ s'.heap.capacity = s.heap.capacity ∧ s'.heap.used ≤ s.heap.used ∧
      HeapMoved p.formats s.heap s.mem s'.heap s'.mem live' R ∧ SpaceOk p s' live' ∧
      List.Forall₂ (WordMoved p.formats s.heap s.mem s'.heap s'.mem live' R)
        (scannedWords s.roots) (scannedWords s'.roots) := by
  obtain ⟨heap',m',roots',live',R,hcollect,hbase,hcap,hused,hmoved,hwords⟩ :=
    staGcCollect_moves hok.heap hregion.fresh hok.immutable hside hok.roots
  have hrefill := scannedWords_refill hwords.length_eq.symm
  refine ⟨⟨heap',m',refillRoots s.roots roots',regions⟩,live',R,?_,rfl,?_,hbase,hcap,hused,
    hmoved,⟨hmoved.ok,fun w hw => ?_,?_⟩,?_⟩
  · simp [ActorSpace.collect,ActorSpace.nextRegion,hregion.next,hcollect]
  · rw [hrefill]
  · rw [hrefill] at hw
    obtain ⟨v,-,hvw⟩ := forall₂_mem_right hwords hw
    exact hvw.2
  · intro o hlo hhi
    rw [hbase] at hlo hhi
    rw [hcap] at hhi
    exact hregion.immutable o hlo hhi
  · rw [hrefill]
    exact hwords

theorem HeapMoved.no_old {formats : Formats} {heap heap' : Heap} {m m' : Memory}
    {live' : List Oop} {R : Oop → Oop → Prop}
    (h : HeapMoved formats heap m heap' m' live' R) {v : Oop} (hv : HeapWord heap' m' live' v) :
    heap.holds v = false := by
  refine Bool.eq_false_iff.mpr (fun hold => ?_)
  obtain ⟨hheap,hzero,hlo,hhi⟩ := Heap.holds_iff.mp hold
  have hgone := h.gone v hlo hhi
  rcases hv with hv | hv | ⟨-,hv⟩ | hv
  · simp [hheap] at hv
  · exact hzero hv
  · simp [hgone] at hv
  · obtain ⟨obj,hobj,-⟩ := h.ok.objects v hv
    simp [hgone] at hobj

/-- A collection leads to an isomorphic graph: every root traced points at its object's copy, the
roots keep their places, and nothing reachable points into the old space. -/
theorem collect_preserves_graph {p : GcParams} {s : ActorSpace} {live : List Oop} {base : Nat}
    {regions : List (Option Nat)} (hok : SpaceOk p s live)
    (hregion : NextRegion p s s.heap.capacity base regions)
    (hside : (live.filter s.mem.emptyAt).length ≤ p.sideRoom) :
    ∃ s' live',s.collect p = some (s',true) ∧ s'.roots.map Root.kind = s.roots.map Root.kind ∧
      Isomorphic (heapGraph p.formats s.heap s.mem) (scannedWords s.roots)
        (heapGraph p.formats s'.heap s'.mem) (scannedWords s'.roots) ∧
      SpaceOk p s' live' ∧ (∀ v ∈ scannedWords s'.roots,s.heap.holds v = false) ∧
      ∀ o ∈ live',∃ obj,s'.mem o = some obj ∧
        ∀ v ∈ obj.references p.formats,s.heap.holds v = false := by
  obtain ⟨s',live',R,hcollect,-,hroots,-,-,-,hmoved,hok',hwords⟩ := collect_moves hok hregion hside
  refine ⟨s',live',hcollect,?_,⟨R,hmoved.iso,hwords.imp (fun _ _ h => h.1)⟩,hok',fun v hv => ?_,
    fun o ho => ?_⟩
  · rw [hroots]
    exact refillRoots_kinds _ _
  · exact hmoved.no_old (hok'.roots v hv)
  · obtain ⟨obj,hobj,-,hrefs⟩ := hok'.heap.objects o ho
    exact ⟨obj,hobj,fun v hv => hmoved.no_old (hrefs v hv)⟩

/-! An Array that holds itself and twice an object without payload. -/

def twiceHeldParams : GcParams := ⟨fun _ => none,0,0,12⟩

def twiceHeldActor : ActorSpace where
  heap := ⟨4096,64,64⟩
  mem := fun o =>
    if o = 4096 then some ⟨clsArray,0,0,0,[4096,4144,4144]⟩
    else if o = 4144 then some ⟨40,0,0,0,[]⟩ else none
  roots := [⟨.actorField,4096⟩,⟨.argument,4144⟩,⟨.argument,7⟩]
  regions := [some 8192]

theorem twiceHeldActor_ok : SpaceOk twiceHeldParams twiceHeldActor [4096,4144] where
  heap := by constructor <;> decide
  roots := by decide
  immutable := by decide

theorem twiceHeldActor_region : NextRegion twiceHeldParams twiceHeldActor 64 8192 [] where
  next := rfl
  fresh := by constructor <;> decide
  immutable := by decide

theorem collect_preserves_twiceHeld : ∃ s',twiceHeldActor.collect twiceHeldParams = some (s',true) ∧
    Isomorphic (heapGraph twiceHeldParams.formats twiceHeldActor.heap twiceHeldActor.mem)
      [4096,4144,7] (heapGraph twiceHeldParams.formats s'.heap s'.mem) (scannedWords s'.roots) := by
  obtain ⟨s',live',hcollect,-,hiso,-⟩ := collect_preserves_graph twiceHeldActor_ok
    twiceHeldActor_region (by decide)
  exact ⟨s',hcollect,hiso⟩

def emptyObjectsActor : ActorSpace where
  heap := ⟨4096,256,208⟩
  mem := fun o => if 4096 ≤ o ∧ o < 4304 ∧ o % 16 = 0 then some ⟨40,0,0,0,[]⟩ else none
  roots := (List.range 13).map (fun i => ⟨.argument,4096 + 16 * i⟩) ++ [⟨.argument,4288⟩]
  regions := [some 8192]

/-- Twelve objects fit into the side table as allocated. When it cannot grow, the second reference
to the thirteenth object becomes 0. -/
theorem full_side_table_loses_object : ∃ s',
    emptyObjectsActor.collect ⟨fun _ => none,0,0,12⟩ = some (s',true) ∧
    ¬ Isomorphic (heapGraph (fun _ => none) emptyObjectsActor.heap emptyObjectsActor.mem)
      (scannedWords emptyObjectsActor.roots)
      (heapGraph (fun _ => none) s'.heap s'.mem) (scannedWords s'.roots) := by
  refine ⟨_,rfl,?_⟩
  rintro ⟨R,-,hroots⟩
  rcases (forall₂_iff_get.mp hroots).2 13 (by decide) (by decide) with ⟨hatom,-⟩ | ⟨-,hatom,-⟩
  · exact absurd hatom (show ¬ emptyObjectsActor.heap.holds 4288 = false by decide)
  · exact hatom rfl

end SmalltalkA
