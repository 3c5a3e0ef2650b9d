import SmalltalkA.Gc.CollectRoots

/-! A collection copies what the roots lead to, each object once, and nothing else. -/

set_option autoImplicit false

namespace SmalltalkA

open ObjectGraph Layout List Option

/-! ### The calls of `gc_copy` -/

/-- `gc_copy` takes the branch that reports an overflow of the to-space. -/
def gcOverflows (g : GcSpaces) (o : Oop) (st : GcState) : Prop :=
  ¬ (isHeap o = false ∨ o = 0 ∨ g.inImmutable o ∨ g.inTo o ∨ g.inFrom o = false) ∧
    ∃ h,st.mem o = some h ∧ h.isForwarded = false ∧
      g.toLimit < st.toAlloc + alignedSize h.payload.length

/-- Rounds of the Cheney scan. -/
inductive ScansTo (g : GcSpaces) (start : GcState) : Nat → GcState → Prop
  | refl : ScansTo g start g.toBase start
  | next {scan : Nat} {st st' : GcState} {obj : Obj} : ScansTo g start scan st →
      scan < st.toAlloc → st.mem scan = some obj → gcScanObject g scan obj st = some st' →
      ScansTo g start (scan + alignedSize obj.payload.length) st'

/-- The word and the state with which a collection calls `gc_copy`. -/
inductive GcCall (g : GcSpaces) (roots : List Oop) (st₀ : GcState) : Oop → GcState → Prop
  | root {before after ws : List Oop} {v : Oop} {st : GcState} : roots = before ++ v :: after →
      gcCopyAll g before st₀ = some (st,ws) → GcCall g roots st₀ v st
  | slot {before after ws ws₁ : List Oop} {v : Oop} {st₁ st st' : GcState} {scan : Nat} {obj : Obj} :
      gcCopyAll g roots st₀ = some (st₁,ws₁) → ScansTo g st₁ scan st → scan < st.toAlloc →
      st.mem scan = some obj →
      obj.payload.take (gcScannableSlots g.formats obj) = before ++ v :: after →
      gcCopyAll g before st = some (st',ws) → GcCall g roots st₀ v st'

section

variable {g : GcSpaces} {m₀ : Memory} {live keys roots : List Oop} {st st₁ : GcState} {v : Oop}

theorem Moving.not_overflows (hg : Collectable g m₀ live) (hst : Moving g m₀ live keys st)
    (hv : g.Inert v ∨ v ∈ live) : ¬ gcOverflows g v st := by
  rintro ⟨hplace,h,hnow,hfwd,hover⟩
  rcases hv with hv | hlive
  · rcases hv with hv | hv | ⟨hv,-⟩
    · exact hplace (.inl hv)
    · exact hplace (.inr (.inl hv))
    · exact hplace (.inr (.inr (.inr (.inr hv))))
  · obtain ⟨obj,ho,-⟩ := hg.objects v hlive
    by_cases hkey : v ∈ keys
    · obtain ⟨n,hn⟩ := mem_listing_of_mem m₀.sizeAt hkey g.toBase
      rw [hst.forwarded n v obj hn ho,some.injEq] at hnow
      rw [← hnow,Obj.forward_isForwarded] at hfwd
      cases hfwd
    · have hroom := (hst.room hg hlive hkey ho).2.2.1
      rw [hst.unmoved v hkey (hg.places v hlive).2.2.2.1,ho,some.injEq] at hnow
      subst hnow
      omega

theorem gcCopyAll_moving (hg : Collectable g m₀ live) (hst : Moving g m₀ live keys st)
    {vs ws : List Oop} {st' : GcState} (hvs : ∀ v ∈ vs,g.Inert v ∨ v ∈ live)
    (h : gcCopyAll g vs st = some (st',ws)) : ∃ keys',Moving g m₀ live keys' st' := by
  obtain ⟨_,new,_,hall,hmoving,-⟩ := gcCopyAll_spec hg hst hvs
  rw [h,some.injEq,Prod.mk.injEq] at hall
  exact ⟨_,hall.1 ▸ hmoving⟩

/-- The scan pointer stands at a copy that has not been scanned. -/
theorem Scanning.ahead {done todo : List Oop} {scan : Nat}
    (h : Scanning g m₀ live done todo st) (hscan : scan = g.toBase + extent m₀.sizeAt done)
    (hlt : scan < st.toAlloc) : ∃ o rest,todo = o :: rest := by
  cases todo with
  | nil =>
    have := h.moving.alloc
    rw [append_nil] at this
    omega
  | cons o rest => exact ⟨o,rest,rfl⟩

theorem ScansTo.scanning (hg : Collectable g m₀ live) (todo : List Oop) {scan : Nat}
    (hst : Scanning g m₀ live [] todo st₁) (h : ScansTo g st₁ scan st) :
    ∃ done rest,Scanning g m₀ live done rest st ∧ scan = g.toBase + extent m₀.sizeAt done := by
  induction h with
  | refl => exact ⟨[],todo,hst,rfl⟩
  | next _ hlt hobj hscan ih =>
    obtain ⟨done,rest,hs,hpos⟩ := ih
    obtain ⟨o,rest,rfl⟩ := hs.ahead hpos hlt
    obtain ⟨h,new,st',ho,hnow,hnext,hs'⟩ := hs.next hg hpos
    cases hobj.symm.trans hnow
    cases hscan.symm.trans hnext
    refine ⟨_,_,hs',?_⟩
    simp only [extent_append,extent,Memory.sizeAt_some ho]
    omega

theorem GcCall.not_overflows (hg : Collectable g m₀ live)
    (hroots : ∀ v ∈ roots,g.Inert v ∨ v ∈ live) (h : GcCall g roots ⟨m₀,g.toBase,[]⟩ v st) :
    ¬ gcOverflows g v st := by
  have hstart := Moving.start g m₀ live
  cases h with
  | root heq hall =>
    subst heq
    obtain ⟨keys,hst⟩ := gcCopyAll_moving hg hstart
      (fun u hu => hroots u (mem_append_left _ hu)) hall
    exact hst.not_overflows hg (hroots v (by simp))
  | slot hall hscans hlt hobj hwords hbefore =>
    obtain ⟨_,new,_,hall',hmoving,hext,-⟩ := gcCopyAll_spec hg hstart hroots
    rw [hall,some.injEq,Prod.mk.injEq] at hall'
    obtain ⟨rfl,rfl⟩ := hall'
    obtain ⟨done,rest,hs,hpos⟩ := hscans.scanning hg new ⟨by simpa using hmoving,nofun,hext.fresh⟩
    obtain ⟨o,rest,rfl⟩ := hs.ahead hpos hlt
    obtain ⟨obj,ho,-,hrefs⟩ := hg.objects o (hs.moving.sub (by simp))
    have hnow := hs.fresh _ o obj (mem_cons_self ..) ho
    rw [← hpos,hobj,some.injEq] at hnow
    subst hnow
    have hlive : ∀ u ∈ obj.references g.formats,g.Inert u ∨ u ∈ live := hrefs
    rw [show obj.references g.formats = _ from hwords] at hlive
    obtain ⟨keys,hst⟩ := gcCopyAll_moving hg hs.moving
      (fun u hu => hlive u (mem_append_left _ hu)) hbefore
    exact hst.not_overflows hg (hlive v (by simp))

end

/-! ### Only reachable objects -/

section

variable {formats : Formats} {heap : Heap} {m : Memory} {live roots : List Oop}

open Classical in
/-- The objects in use that the roots lead to. -/
noncomputable def reachableOf (formats : Formats) (heap : Heap) (m : Memory)
    (live roots : List Oop) : List Oop :=
  live.filter (fun o => decide (Reachable (heapGraph formats heap m) roots o))

theorem HeapOk.mem_reachableOf (h : HeapOk formats heap m live)
    (hroots : ∀ v ∈ roots,HeapWord heap m live v) (o : Oop) :
    o ∈ reachableOf formats heap m live roots ↔ Reachable (heapGraph formats heap m) roots o := by
  simp only [reachableOf,mem_filter,decide_eq_true_eq,and_iff_right_iff_imp]
  exact fun ho => ho.mem h.closed (fun v hv => (h.atom (hroots v hv)).imp And.left And.right)

theorem HeapOk.toReachable (h : HeapOk formats heap m live)
    (hroots : ∀ v ∈ roots,HeapWord heap m live v) :
    HeapOk formats heap m (reachableOf formats heap m live roots) ∧
      ∀ v ∈ roots,HeapWord heap m (reachableOf formats heap m live roots) v := by
  have hsub : ∀ o ∈ reachableOf formats heap m live roots,o ∈ live := fun o ho =>
    mem_of_mem_filter ho
  have hword : ∀ v,HeapWord heap m live v →
      (heap.holds v = true → Reachable (heapGraph formats heap m) roots v) →
      HeapWord heap m (reachableOf formats heap m live roots) v := by
    rintro v (hv | hv | hv | hv) hreach
    · exact .inl hv
    · exact .inr (.inl hv)
    · exact .inr (.inr (.inl hv))
    · exact .inr (.inr (.inr ((h.mem_reachableOf hroots v).mpr (hreach (h.holds hv)))))
  have hatom : ∀ {v},heap.holds v = true → ¬ (heapGraph formats heap m).atom v := fun hv =>
    Bool.eq_false_iff.not.mpr (not_not.mpr hv)
  refine ⟨⟨h.aligned,h.positive,h.used,h.nodup.filter _,fun o ho => h.within o (hsub o ho),
    Nat.le_trans (extent_sublist _ filter_sublist) h.size,fun o ho => ?_,h.free⟩,
    fun v hv => hword v (hroots v hv) (fun hholds => .root hv (hatom hholds))⟩
  obtain ⟨obj,hobj,hsound,hrefs⟩ := h.objects o (hsub o ho)
  refine ⟨obj,hobj,hsound,fun v hv => hword v (hrefs v hv) (fun hholds => ?_)⟩
  have hnode : (heapGraph formats heap m).node o =
      some (obj.label formats,obj.references formats) := by simp [heapGraph,objectGraph,hobj]
  exact .step ((h.mem_reachableOf hroots o).mp ho) hnode hv (hatom hholds)

end

section

variable {p : GcParams} {s : ActorSpace} {live : List Oop} {base : Nat}
  {regions : List (Option Nat)}

/-- The graph that the collector walks. -/
def ActorSpace.graph (p : GcParams) (s : ActorSpace) : ObjectGraph.Graph Oop ObjLabel :=
  heapGraph p.formats s.heap s.mem

/-- What a collection did: `R` takes each object that the roots lead to, one of `keys`, to its copy.
-/
structure CollectedTo (p : GcParams) (s s' : ActorSpace) (keys : List Oop)
    (R : Oop → Oop → Prop) : Prop where
  nodup : keys.Nodup
  reachable : ∀ o,o ∈ keys ↔ Reachable (s.graph p) (scannedWords s.roots) o
  iso : Iso (s.graph p) (s'.graph p) R
  copies : ∀ o ∈ keys,∃ n,R o n ∧ s'.heap.base ≤ n ∧ n < s'.heap.base + s'.heap.used
  used : s'.heap.used = extent s.mem.sizeAt keys
  le : s'.heap.used ≤ s.heap.used

/-- After a collection all objects in use are reachable, and their sizes add up to what is used. -/
theorem collect_collectedTo (hok : SpaceOk p s live)
    (hregion : NextRegion p s s.heap.capacity base regions)
    (hside : (live.filter s.mem.emptyAt).length ≤ p.sideRoom) :
    ∃ s' keys R live',s.collect p = some (s',true) ∧ CollectedTo p s s' keys R ∧
      SpaceOk p s' live' ∧ (∀ n ∈ live',Reachable (s'.graph p) (scannedWords s'.roots) n) ∧
      extent s'.mem.sizeAt live' = s'.heap.used ∧
      (live'.filter s'.mem.emptyAt).length ≤ p.sideRoom := by
  obtain ⟨hheap,hroots⟩ := hok.heap.toReachable hok.roots
  have hmem := hok.heap.mem_reachableOf hok.roots
  have hside' : ((reachableOf p.formats s.heap s.mem live (scannedWords s.roots)).filter
      s.mem.emptyAt).length ≤ p.sideRoom :=
    Nat.le_trans (filter_sublist.filter _).length_le hside
  obtain ⟨keys,st,roots',c,hcollect,hws⟩ := staGcCollect_collection hheap hregion.fresh
    hok.immutable hside' hroots
  have hwords := c.words hroots hws
  have hrefill := scannedWords_refill hws.length_eq.symm
  have hused : (collectedHeap base s.heap st).used = extent s.mem.sizeAt keys := by
    have := c.alloc.1
    simp only [collectedHeap]
    omega
  have hsame : ∀ n o,(n,o) ∈ listing s.mem.sizeAt base keys →
      (collectedMemory s.heap st).sizeAt n = s.mem.sizeAt o ∧
      (collectedMemory s.heap st).emptyAt n = s.mem.emptyAt o := by
    intro n o hno
    obtain ⟨obj,ws,hobj,hsound,-,-,hws,hn⟩ := c.object hno
    have hlen := moved_length hsound hws.length_eq.symm
    refine ⟨by rw [Memory.sizeAt_some hn,Memory.sizeAt_some hobj,hlen],?_⟩
    rw [Memory.emptyAt_some hn,Memory.emptyAt_some hobj,Bool.eq_iff_iff,isEmpty_iff_length_eq_zero,
      isEmpty_iff_length_eq_zero,hlen]
  let s' : ActorSpace := ⟨collectedHeap base s.heap st,collectedMemory s.heap st,
    refillRoots s.roots roots',regions⟩
  have hreach : ∀ o ∈ keys,Reachable (s.graph p) (scannedWords s.roots) o := fun o ho =>
    (hmem o).mp (c.moving.sub ho)
  have hkeys : ∀ o,Reachable (s.graph p) (scannedWords s.roots) o →
      ∃ n,MovedTo s.mem base keys o n ∧ Reachable (s'.graph p) (scannedWords s'.roots) n := by
    intro o ho
    refine c.heapMoved.iso.reachable ?_ ho
    rw [hrefill]
    exact hwords.imp (fun _ _ h => h.1)
  refine ⟨s',keys,MovedTo s.mem base keys,movedObjects s.mem base keys,?_,
    ⟨c.moving.nodup,fun o => ⟨hreach o,fun ho => ?_⟩,c.heapMoved.iso,fun o ho => ?_,hused,c.used_le⟩,
    ⟨c.heapMoved.ok,fun w hw => ?_,hregion.immutable⟩,fun n hn => ?_,?_,?_⟩
  · simp [ActorSpace.collect,ActorSpace.nextRegion,hregion.next,hcollect,s']
  · obtain ⟨n,hn,-⟩ := hkeys o ho
    exact mem_of_mem_listing _ hn
  · obtain ⟨n,hn⟩ := mem_listing_of_mem s.mem.sizeAt ho base
    exact ⟨n,hn,(c.place hn).2⟩
  · rw [hrefill] at hw
    obtain ⟨v,-,hvw⟩ := forall₂_mem_right hwords hw
    exact hvw.2
  · obtain ⟨⟨n,o⟩,hno,rfl⟩ := List.mem_map.mp hn
    obtain ⟨k,hk,hreached⟩ := hkeys o (hreach o (mem_of_mem_listing _ hno))
    rwa [show n = k from c.functional o n k hno hk]
  · rw [show s'.heap.used = _ from hused]
    exact extent_offsets _ (fun n o hno => (hsame n o hno).1)
  · refine Nat.le_trans (Nat.le_of_eq ?_)
      (Nat.le_trans (subperm_of_subset (c.moving.nodup.filter s.mem.emptyAt)
        (filter_subset _ c.moving.sub)).length_le hside')
    exact length_filter_offsets _ (fun n o hno => (hsame n o hno).2)

end

end SmalltalkA
