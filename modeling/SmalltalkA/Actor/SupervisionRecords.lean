import SmalltalkA.Actor.SupervisionTree

/-! Consistency of a supervisor's records after `sta_supervisor_handle_failure`. -/

set_option autoImplicit false

namespace SmalltalkA

open SupVm Interleaving List Function Option

/-! ## The property -/

/-- No actor and no id, or a live, registered actor that has the id and points back. -/
def SpecOk (vm : SupVm) (s : Nat) (sp : ChildSpec) : Prop :=
  match sp.currentActor with
  | none => sp.currentActorId = 0
  | some c => ∃ x,vm.actors c = some x ∧ x.state ≠ .terminated ∧
      vm.registry x.actorId = some c ∧ x.actorId = sp.currentActorId ∧ x.supervisor = some s

/-- The records of a supervisor that has handled a notification. -/
structure RecordsConsistent (vm : SupVm) (s : Nat) (args : List Oop) : Prop where
  specs : ∀ i sp,vm.spec s i = some sp → SpecOk vm s sp
  gone : ∀ id,failedId args = some id → ∀ i sp c x,vm.spec s i = some sp →
    sp.currentActor = some c → vm.actors c = some x → x.actorId ≠ id

/-- The child is running, as far as it and the registry know. -/
def childUp (vm : SupVm) (sp : ChildSpec) : Bool :=
  match sp.currentActor with
  | none => sp.currentActorId == 0
  | some c =>
    match vm.actors c with
    | none => false
    | some x => x.state ≠ .terminated && vm.registry x.actorId == some c

/-- All children but that of record `i` are up. -/
def othersUp (vm : SupVm) (d : SupervisorData) (i : Nat) : Bool :=
  (List.range d.children.length).all (fun j =>
    j == i || (d.children[j]?.map (childUp vm)).getD true)

def recordsKept (vm : SupVm) (s : Nat) (d : SupervisorData) (args : List Oop) (fate : Fate) :
    Bool :=
  match (failedId args).bind d.findChildById with
  | none => d.children.all (childUp vm)
  | some i =>
    match d.children[i]? with
    | none => true
    | some sp =>
      if sp.strategy = .restart ∧ d.exceeded fate.now then
        if s = vm.rootSupervisor then sp.currentActor.isNone && d.children.all (childUp vm)
        else d.children.all (fun sp => sp.currentActor.isSome || sp.currentActorId == 0)
      else
        othersUp vm d i && (sp.strategy ≠ .restart || fate.child.isNone || fate.registers)

/-! ## A child that a call leaves alone -/

/-- The actor has the same id, and is as alive and registered as before. -/
def ChildKept (vm vm' : SupVm) (c : Nat) : Prop :=
  ∃ x y,vm.actors c = some x ∧ vm'.actors c = some y ∧ y.actorId = x.actorId ∧
    (y.state = .terminated ↔ x.state = .terminated) ∧
    (vm'.registry x.actorId = some c ↔ vm.registry x.actorId = some c)

section

variable {busy : List (Nat × Nat)} {vm vm' vm'' : SupVm} {a c s i : Nat} {x y : SupActor}
  {sp : ChildSpec}

theorem ChildKept.trans (h : ChildKept vm vm' c) (h' : ChildKept vm' vm'' c) : ChildKept vm vm'' c := by
  obtain ⟨x,y,hx,hy,hid,hst,hreg⟩ := h
  obtain ⟨y',z,hy',hz,hid',hst',hreg'⟩ := h'
  cases hy.symm.trans hy'
  exact ⟨x,z,hx,hz,hid'.trans hid,hst'.trans hst,by rw [← hreg,← hid,hreg']⟩

theorem ChildKept.put (hx : vm.actors a = some x) (hid : y.actorId = x.actorId)
    (hst : y.state = .terminated ↔ x.state = .terminated) (hc : (vm.actors c).isSome) :
    ChildKept vm (vm.put a (some y)) c := by
  obtain ⟨z,hz⟩ := isSome_iff_exists.mp hc
  by_cases hca : c = a
  · subst hca
    cases hx.symm.trans hz
    exact ⟨x,y,hz,put_same _ _ _,hid,hst,.rfl⟩
  · exact ⟨z,z,hz,by rw [put_other _ hca]; exact hz,rfl,.rfl,.rfl⟩

theorem ChildKept.torn {gone : Nat → Prop} (hw : Wired busy vm) (h : Torn vm gone vm')
    (hx : vm.actors c = some x) (hc : ¬ gone c) : ChildKept vm vm' c := by
  refine ⟨x,x,hx,(h.kept c hc).trans hx,rfl,.rfl,?_⟩
  rcases h.registry x.actorId with heq | ⟨-,b,y,hb,hy,hid⟩
  · rw [heq]
  · exact absurd (hw.unique b c y x hy hx hid ▸ hb) hc

theorem ChildKept.up (h : ChildKept vm vm' c) (hc : sp.currentActor = some c) :
    childUp vm' sp = childUp vm sp := by
  obtain ⟨x,y,hx,hy,hid,hst,hreg⟩ := h
  simp only [childUp,hc,hx,hy,hid]
  rw [Bool.eq_iff_iff]
  simp [hst,hreg]

theorem childUp_none (hc : sp.currentActor = none) : childUp vm' sp = childUp vm sp := by
  simp [childUp,hc]

theorem specOk_iff (hw : Wired [] vm) (hsp : vm.spec s i = some sp) :
    SpecOk vm s sp ↔ childUp vm sp = true := by
  cases hc : sp.currentActor with
  | none => simp [SpecOk,childUp,hc]
  | some c =>
    obtain ⟨x,hx,hid,hsup,-⟩ := hw.child s i sp c hsp hc (by simp)
    simp only [SpecOk,childUp,hc,hx,some.injEq,exists_eq_left']
    simp [hid,hsup]

variable {b : Nat} {sq : ChildSpec} {fate : Fate}

theorem sibling_not_below {j : Nat} (hw : Wired [] vm) (hs : vm.actors s = some x)
    (hsp : vm.spec s i = some sp) (hc : sp.currentActor = some c) (hsq : vm.spec s j = some sq)
    (hb : sq.currentActor = some b) (hij : j ≠ i) :
    ¬ Below vm c b := by
  obtain ⟨y,hy,hid,-,-⟩ := hw.child s i sp c hsp hc (by simp)
  have hyoung : x.actorId < y.actorId := hid ▸ hw.younger s i sp x hsp (by simp [hc]) hs
  intro h
  cases h with
  | self => exact hij (congrArg Prod.snd (hw.apart s j s i sq sp c hsq hsp hb hc))
  | @child p k _ sr hp hsr hb' =>
    cases hw.apart p k s j sr sq b hsr hsq hb' hb
    have hle := hp.id_le hw hy hs (by intro e he; cases he)
    omega

/-! ## What only grows -/

/-- Held actors stay, and a record gets no id that was given out before. -/
structure Onward (vm vm' : SupVm) : Prop where
  held : HeldKept vm vm'
  specs : ∀ p i sq,vm'.spec p i = some sq → sq.currentActorId = 0 ∨
    vm.nextActorId ≤ sq.currentActorId ∨
    ∃ sp,vm.spec p i = some sp ∧ sp.currentActorId = sq.currentActorId
  next : vm.nextActorId ≤ vm'.nextActorId

theorem Onward.of_spec (hheld : HeldKept vm vm') (hspec : ∀ p i,vm'.spec p i = vm.spec p i)
    (hnext : vm.nextActorId ≤ vm'.nextActorId) : Onward vm vm' :=
  ⟨hheld,fun p i sq hsq => .inr (.inr ⟨sq,hspec p i ▸ hsq,rfl⟩),hnext⟩

theorem Onward.refl (vm : SupVm) : Onward vm vm := .of_spec (.refl vm) (fun _ _ => rfl) (Nat.le_refl _)

theorem Onward.trans (h : Onward vm vm') (h' : Onward vm' vm'') : Onward vm vm'' := by
  refine ⟨h.held.trans h'.held,fun p i sr hsr => ?_,Nat.le_trans h.next h'.next⟩
  rcases h'.specs p i sr hsr with h0 | hle | ⟨sq,hsq,hid⟩
  · exact .inl h0
  · exact .inr (.inl (Nat.le_trans h.next hle))
  · rw [← hid]
    exact h.specs p i sq hsq

theorem Onward.torn {gone : Nat → Prop} (h : Torn vm gone vm') : Onward vm vm' := by
  refine ⟨h.held,fun p i sq hsq => ?_,Nat.le_of_eq h.next.symm⟩
  obtain ⟨sp,hsp,hcase⟩ := h.specs p i sq hsq
  rcases hcase with rfl | ⟨-,hid | h0⟩
  · exact .inr (.inr ⟨sq,hsp,rfl⟩)
  · exact .inr (.inr ⟨sp,hsp,hid.symm⟩)
  · exact .inl h0

theorem Onward.put (hx : vm.actors a = some x) (h : SameTree x y) (hheld : y.held = x.held) :
    Onward vm (vm.put a (some y)) :=
  .of_spec (.put hx h.actorId hheld) (put_spec hx h) (Nat.le_refl _)

theorem Onward.setSpec (hs : vm.actors s = some x) (hsp : vm.spec s i = some sp)
    (hid : sq.currentActorId = 0 ∨ vm.nextActorId ≤ sq.currentActorId) :
    Onward vm (vm.put s (some (x.withSpec i sq))) := by
  refine ⟨.put hs rfl rfl,fun p j sr hsr => ?_,Nat.le_refl _⟩
  rw [withSpec_spec hs hsp] at hsr
  split at hsr
  · obtain rfl := Option.some.inj hsr
    exact hid.imp_right .inl
  · exact .inr (.inr ⟨sr,hsr,rfl⟩)

/-! ## One record is replaced -/

/-- The other records are the same, and their children as up as before. -/
structure Replaced (vm : SupVm) (s i : Nat) (sq : ChildSpec) (vm' : SupVm) : Prop where
  wired : Wired [] vm'
  record : vm'.spec s i = some sq
  others : ∀ j,j ≠ i → vm'.spec s j = vm.spec s j
  up : ∀ j sp,j ≠ i → vm.spec s j = some sp → childUp vm' sp = childUp vm sp
  onward : Onward vm vm'

theorem Replaced.consistent_iff {args : List Oop} {id : Nat} (h : Replaced vm s i sq vm')
    (hw : Wired [] vm) (hs : vm.actors s = some x) (hsp : vm.spec s i = some sp)
    (hargs : failedId args = some id) (hid : sp.currentActorId = id)
    (hnew : sq.currentActor ≠ none → sq.currentActorId ≠ id) :
    RecordsConsistent vm' s args ↔
      (∀ j sp',j ≠ i → vm.spec s j = some sp' → childUp vm sp' = true) ∧ childUp vm' sq = true := by
  constructor
  · intro hc
    refine ⟨fun j sp' hj hsp' => ?_,(specOk_iff h.wired h.record).mp (hc.specs i sq h.record)⟩
    have hspec : vm'.spec s j = some sp' := (h.others j hj).trans hsp'
    rw [← h.up j sp' hj hsp']
    exact (specOk_iff h.wired hspec).mp (hc.specs j sp' hspec)
  · rintro ⟨hothers,hsq⟩
    refine ⟨fun j sp' hsp' => ?_,?_⟩
    · rw [specOk_iff h.wired hsp']
      by_cases hj : j = i
      · subst hj
        cases h.record.symm.trans hsp'
        exact hsq
      · rw [h.others j hj] at hsp'
        rw [h.up j sp' hj hsp']
        exact hothers j sp' hj hsp'
    · intro id' hid' j sp' c y hsp' hc hy
      cases hargs.symm.trans hid'
      obtain ⟨z,hz,hzid,-,-⟩ := h.wired.child s j sp' c hsp' hc (by simp)
      cases hy.symm.trans hz
      rw [hzid]
      by_cases hj : j = i
      · subst hj
        cases h.record.symm.trans hsp'
        exact hnew (by simp [hc])
      · rw [h.others j hj] at hsp'
        intro heq
        have hyoung := hw.younger s j sp' x hsp' (by simp [hc]) hs
        exact hj (congrArg Prod.snd
          (hw.idsApart s j s i sp' sp hsp' hsp (heq.trans hid.symm) (by omega)))

/-- An address of an actor that was made after `x`, if of any. -/
def Younger (vm : SupVm) (x : SupActor) (b : Nat) : Prop :=
  ∀ y,vm.actors b = some y → x.actorId < y.actorId

theorem destroyOld_spec (hw : Wired [] vm) (hs : vm.actors s = some x)
    (hsp : vm.spec s i = some sp) :
    ∃ v,vm.destroyOld sp.currentActor = some v ∧ Wired [(s,i)] v ∧ v.actors s = some x ∧
      v.nextActorId = vm.nextActorId ∧ Torn vm (Younger vm x) v ∧
      ∀ j sq b,j ≠ i → vm.spec s j = some sq → sq.currentActor = some b → ChildKept vm v b := by
  cases hc : sp.currentActor with
  | none =>
    refine ⟨vm,rfl,hw.weaken _,hs,rfl,.refl _ _,fun j sq b _ hsq hb => ?_⟩
    obtain ⟨y,hy,-⟩ := hw.child s j sq b hsq hb (by simp)
    exact ⟨y,y,hy,hy,rfl,.rfl,.rfl⟩
  | some c =>
    obtain ⟨v,hv,hwv,htorn,hvs⟩ := terminateChild_spec true hw hs (by intro e he; cases he)
      (fun v y _ _ _ => staActorTerminate_spec v c) hsp hc
    refine ⟨v,hv,hwv,hvs,htorn.next,htorn.mono fun b hb y hy => ?_,fun j sq b hj hsq hb => ?_⟩
    · obtain ⟨z,hz,hid,-,-⟩ := hw.child s i sp c hsp hc (by simp)
      have hyoung := hw.younger s i sp x hsp (by simp [hc]) hs
      have hle := hb.id_le hw hz hy (by intro e he; cases he)
      omega
    · obtain ⟨y,hy,-⟩ := hw.child s j sq b hsq hb (by simp)
      exact .torn hw htorn hy (sibling_not_below hw hs hsp hc hsq hb hj)

theorem Replaced.setSpec {v : SupVm} (hs : vm.actors s = some x) (hv : v.actors s = some x)
    (hsp : vm.spec s i = some sp) (hkept : ∀ j sp' b,j ≠ i → vm.spec s j = some sp' →
      sp'.currentActor = some b → ChildKept vm v b)
    (honward : Onward vm (v.put s (some (x.withSpec i sq))))
    (hw : Wired [] (v.put s (some (x.withSpec i sq)))) :
    Replaced vm s i sq (v.put s (some (x.withSpec i sq))) := by
  have hvsp : v.spec s i = some sp := (spec_congr (hv.trans hs.symm) i).trans hsp
  refine ⟨hw,?_,fun j hj => ?_,fun j sp' hj hsp' => ?_,honward⟩
  · rw [withSpec_spec hv hvsp,if_pos rfl]
  · rw [withSpec_spec hv hvsp,if_neg (fun h => hj (congrArg Prod.snd h))]
    exact spec_congr (hv.trans hs.symm) j
  · cases hb : sp'.currentActor with
    | none => exact childUp_none hb
    | some b =>
      have hk := hkept j sp' b hj hsp' hb
      obtain ⟨-,y,-,hy,-⟩ := id hk
      have hput : ChildKept v (v.put s (some (x.withSpec i sq))) b :=
        .put hv rfl .rfl (by simp [hy])
      exact (hk.trans hput).up hb

/-! ## The pieces of the strategies -/

/-- What `sta_actor_create` changes. -/
structure Created (vm : SupVm) (a : Nat) (y : SupActor) (vm' : SupVm) : Prop where
  free : vm.actors a = none
  new : vm'.actors a = some y
  other : ∀ b,b ≠ a → vm'.actors b = vm.actors b
  registry : vm'.registry = vm.registry
  next : vm'.nextActorId = vm.nextActorId + 1
  root : vm'.rootSupervisor = vm.rootSupervisor

theorem create_some (hleft : vm.nextActorId + 1 < 2 ^ 32) {cls : Oop} {sup : Option Nat}
    (h : vm.create a cls sup = some vm') : Created vm a (vm.newActor cls sup) vm' := by
  unfold SupVm.create at h
  split at h
  · next hnone =>
    cases h
    exact ⟨isNone_iff_eq_none.mp hnone,update_self _ _ _,
      fun b hb => update_of_ne hb _ _,rfl,inc32_of_lt hleft,rfl⟩
  · cases h

theorem Created.old (h : Created vm a y vm') {z : SupActor} (hz : vm.actors b = some z) :
    vm'.actors b = some z := by
  have hb : b ≠ a := by
    rintro rfl
    rw [h.free] at hz
    cases hz
  rw [h.other b hb,hz]

theorem Created.cases (h : Created vm a y vm') {z : SupActor} (hz : vm'.actors b = some z) :
    b = a ∧ z = y ∨ vm.actors b = some z := by
  by_cases hb : b = a
  · subst hb
    exact .inl ⟨rfl,Option.some.inj (hz.symm.trans h.new)⟩
  · exact .inr ((h.other b hb).symm.trans hz)

theorem Created.spec (h : Created vm a y vm') (hy : y.supData = none) (p i : Nat) :
    vm'.spec p i = vm.spec p i := by
  by_cases hp : p = a
  · subst hp
    rw [spec_none h.free,spec_of h.new,hy]
    rfl
  · exact spec_congr (h.other p hp) i

theorem Created.onward (h : Created vm a y vm') (hy : y.supData = none) : Onward vm vm' :=
  .of_spec (fun _ z hz _ => ⟨z,h.old hz,rfl,rfl⟩) (h.spec hy) (h.next ▸ Nat.le_succ _)

theorem Wired.create (hw : Wired busy vm) (hleft : vm.nextActorId + 1 < 2 ^ 32)
    (h : Created vm a y vm') (hid : y.actorId = vm.nextActorId) (hdata : y.supData = none)
    (hcount : y.held ≤ y.refcount) : Wired busy vm' := by
  have hspec := h.spec hdata
  have hnext := h.next
  refine ⟨?_,?_,?_,?_,?_,?_,?_,?_,hnext ▸ hleft,hnext ▸ Nat.succ_pos _,?_⟩
  · intro p i sp c hsp hc hb
    obtain ⟨z,hz,hgood⟩ := hw.child p i sp c (hspec p i ▸ hsp) hc hb
    exact ⟨z,h.old hz,hgood⟩
  · intro p i sp z hsp hc hz
    rw [hspec] at hsp
    rcases h.cases hz with ⟨rfl,-⟩ | hz
    · rw [spec_none h.free] at hsp
      cases hsp
    · exact hw.younger p i sp z hsp hc hz
  · intro p i q j sp sq c hsp hsq
    exact hw.apart p i q j sp sq c (hspec p i ▸ hsp) (hspec q j ▸ hsq)
  · intro p i q j sp sq hsp hsq
    exact hw.idsApart p i q j sp sq (hspec p i ▸ hsp) (hspec q j ▸ hsq)
  · intro p i sp hsp
    have := hw.specIds p i sp (hspec p i ▸ hsp)
    omega
  · intro b z hz
    have hstarted := hw.started
    rcases h.cases hz with ⟨-,rfl⟩ | hz
    · omega
    · have := hw.ids b z hz
      omega
  · intro b c z z' hz hz' heq
    rcases h.cases hz with ⟨rfl,rfl⟩ | hold
    · rcases h.cases hz' with ⟨rfl,-⟩ | hold'
      · rfl
      · have := (hw.ids c z' hold').2
        omega
    · rcases h.cases hz' with ⟨rfl,rfl⟩ | hold'
      · have := (hw.ids b z hold).2
        omega
      · exact hw.unique b c z z' hold hold' heq
  · intro id b hreg
    rw [h.registry] at hreg
    obtain ⟨z,hz,hgood⟩ := hw.registered id b hreg
    exact ⟨z,h.old hz,hgood⟩
  · intro b z hz
    rcases h.cases hz with ⟨-,rfl⟩ | hz
    · exact hcount
    · exact hw.counted b z hz

theorem Wired.register (hw : Wired busy vm) (hx : vm.actors a = some x)
    (href : x.refcount = x.held + 1) (room : Bool) : Wired busy (vm.register x.actorId a room) := by
  unfold SupVm.register
  split
  · refine ⟨hw.child,hw.younger,hw.apart,hw.idsApart,hw.specIds,hw.ids,hw.unique,?_,hw.counter,
      hw.started,hw.counted⟩
    intro id b hreg
    by_cases hid : id = x.actorId
    · subst hid
      obtain rfl : a = b := by simpa using hreg
      exact ⟨x,hx,rfl,href⟩
    · exact hw.registered id b (by simpa [hid] using hreg)
  · exact hw

theorem register_actors (vm : SupVm) (id a : Nat) (room : Bool) :
    (vm.register id a room).actors = vm.actors := by
  unfold SupVm.register
  split <;> rfl

theorem register_onward (vm : SupVm) (id a : Nat) (room : Bool) :
    Onward vm (vm.register id a room) := by
  have hactors := register_actors vm id a room
  refine .of_spec (fun b z hz _ => ⟨z,by rw [hactors]; exact hz,rfl,rfl⟩)
    (fun p i => spec_congr (congrFun hactors p) i) ?_
  unfold SupVm.register
  split <;> exact Nat.le_refl _

/-- At most one actor has changed, in nothing that the tree or a record's child depend on. -/
inductive Harmless (vm : SupVm) : SupVm → Prop where
  | same : Harmless vm vm
  | put {a : Nat} {x y : SupActor} : vm.actors a = some x → SameTree x y →
      (y.state = .terminated ↔ x.state = .terminated) → y.held = x.held →
      Harmless vm (vm.put a (some y))

section

variable (h : Harmless vm vm')

include h

theorem Harmless.wired (hw : Wired busy vm) : Wired busy vm' := by
  cases h with
  | same => exact hw
  | put hx halike _ _ => exact hw.put hx halike

theorem Harmless.kept (hx : vm.actors c = some x) : ChildKept vm vm' c := by
  cases h with
  | same => exact ⟨x,x,hx,hx,rfl,.rfl,.rfl⟩
  | put ha halike hst _ => exact .put ha halike.actorId hst (by simp [hx])

theorem Harmless.spec (p i : Nat) : vm'.spec p i = vm.spec p i := by
  cases h with
  | same => rfl
  | put hx halike _ _ => exact put_spec hx halike p i

theorem Harmless.onward : Onward vm vm' := by
  cases h with
  | same => exact .refl vm
  | put hx halike _ hheld => exact .put hx halike hheld

theorem Harmless.next : vm'.nextActorId = vm.nextActorId := by
  cases h <;> rfl

theorem Harmless.root : vm'.rootSupervisor = vm.rootSupervisor := by
  cases h <;> rfl

theorem Harmless.up (hw : Wired [] vm) (hsp : vm.spec s i = some sp) :
    childUp vm' sp = childUp vm sp := by
  cases hc : sp.currentActor with
  | none => exact childUp_none hc
  | some c =>
    obtain ⟨x,hx,-⟩ := hw.child s i sp c hsp hc (by simp)
    exact (h.kept hx).up hc

end

theorem Replaced.after {v : SupVm} {sq : ChildSpec} (h : Harmless vm v) (hw : Wired [] vm)
    (hr : Replaced v s i sq vm') : Replaced vm s i sq vm' := by
  refine ⟨hr.wired,hr.record,fun j hj => (hr.others j hj).trans (h.spec s j),fun j sp hj hsp => ?_,
    h.onward.trans hr.onward⟩
  rw [hr.up j sp hj ((h.spec s j).trans hsp),h.up hw hsp]

theorem Replaced.before {v : SupVm} (hr : Replaced vm s i sq v) (h : Harmless v vm') :
    Replaced vm s i sq vm' := by
  refine ⟨h.wired hr.wired,(h.spec s i).trans hr.record,
    fun j hj => (h.spec s j).trans (hr.others j hj),fun j sp hj hsp => ?_,
    hr.onward.trans h.onward⟩
  rw [h.up hr.wired ((hr.others j hj).trans hsp),hr.up j sp hj hsp]

theorem enqueue_sameTree (x : SupActor) (msg : ActorMsg) (r : Bool) : SameTree x (enqueue x msg r) := by
  unfold enqueue
  split <;> exact ⟨⟨rfl,rfl,id,id⟩,rfl⟩

theorem enqueue_held (x : SupActor) (msg : ActorMsg) (r : Bool) :
    (enqueue x msg r).held = x.held := by
  unfold enqueue
  split <;> rfl

theorem enqueue_state (x : SupActor) (msg : ActorMsg) (r : Bool) :
    (enqueue x msg r).state = .terminated ↔ x.state = .terminated := by
  unfold enqueue
  split
  · rfl
  · dsimp only
    split
    · next h => rcases h.2 with h | h <;> simp [h]
    · rfl

theorem staActorSendMsg_harmless {id : Nat} {msg : ActorMsg}
    (h : vm.staActorSendMsg id msg fate = some vm') : Harmless vm vm' := by
  unfold staActorSendMsg at h
  split at h
  · cases h
    exact .same
  · obtain ⟨x,hx,rfl⟩ := map_eq_some_iff.mp h
    split
    · exact .same
    · exact .put hx (enqueue_sameTree x msg _) (enqueue_state x msg _) (enqueue_held x msg _)

theorem escalateToParent_harmless {reason : Oop} (h : vm.escalateToParent s reason fate = some vm') :
    Harmless vm vm' := by
  unfold escalateToParent at h
  obtain ⟨x,-,h⟩ := bind_eq_some_iff.mp h
  split at h
  · cases h
    exact .same
  · obtain ⟨y,-,h⟩ := bind_eq_some_iff.mp h
    exact staActorSendMsg_harmless h

theorem setData_of (hs : vm.actors s = some x) (e : SupervisorData) :
    vm.setData s e = some (vm.put s (some { x with supData := some e })) :=
  modify_of hs _

theorem setData_harmless {d e : SupervisorData} (hs : vm.actors s = some x)
    (hd : x.supData = some d) (he : e.children = d.children) (h : vm.setData s e = some vm') :
    Harmless vm vm' ∧ vm'.actors s = some { x with supData := some e } := by
  obtain ⟨y,hy,rfl⟩ := modify_some h
  cases hs.symm.trans hy
  exact ⟨.put hs ⟨⟨rfl,rfl,id,id⟩,by simp [hd,he]⟩ .rfl rfl,put_same _ _ _⟩

/-! ### Restart -/

/-- The new child, and that the others are kept. -/
structure Restarted (busy : List (Nat × Nat)) (vm : SupVm) (s a : Nat) (fate : Fate)
    (vm' : SupVm) : Prop where
  free : vm.actors a = none
  wired : Wired busy vm'
  new : ∃ x,vm'.actors a = some x ∧ x.actorId = vm.nextActorId ∧ x.supervisor = some s ∧
    x.refcount = x.held + 1 ∧ x.state ≠ .terminated ∧
    (vm'.registry x.actorId = some a ↔ fate.registers = true)
  other : ∀ c x,vm.actors c = some x → vm'.actors c = some x ∧ ChildKept vm vm' c
  spec : ∀ p i,vm'.spec p i = vm.spec p i
  next : vm'.nextActorId = vm.nextActorId + 1
  root : vm'.rootSupervisor = vm.rootSupervisor

theorem restartChild_some (hw : Wired busy vm) (hleft : vm.nextActorId + 1 < 2 ^ 32)
    (hc : fate.child = some a) {r : SupVm × Option Nat} (h : vm.restartChild s sp fate = some r) :
    r.2 = some a ∧ Restarted busy vm s a fate r.1 := by
  unfold restartChild at h
  rw [hc] at h
  obtain ⟨v₁,hv₁,h⟩ := bind_eq_some_iff.mp h
  have hcreated := create_some hleft hv₁
  have hw₁ := hw.create hleft hcreated rfl rfl (Nat.zero_le _)
  have hnew := hcreated.new
  -- the entry in the registry
  let v₂ := v₁.register vm.nextActorId a fate.registers
  have hactors₂ : v₂.actors = v₁.actors := register_actors _ _ _ _
  have hw₂ : Wired busy v₂ := hw₁.register hnew rfl fate.registers
  have hmiss : vm.registry vm.nextActorId ≠ some a := by
    intro hreg
    obtain ⟨z,hz,-⟩ := hw.registered _ a hreg
    rw [hcreated.free] at hz
    cases hz
  have hreg₂ : v₂.registry vm.nextActorId = some a ↔ fate.registers = true := by
    have hok : SupVm.registrable vm.nextActorId = true := hw₁.registrable hnew
    simp only [v₂,SupVm.register,hok,Bool.true_and]
    split
    · next hroom => simp [hroom]
    · next hroom => simpa [hroom,hcreated.registry] using hmiss
  have hregother : ∀ id,id ≠ vm.nextActorId → v₂.registry id = vm.registry id := by
    intro id hid
    simp only [v₂,SupVm.register]
    split <;> simp [hid,hcreated.registry]
  have hnext₂ : v₂.nextActorId = vm.nextActorId + 1 := by
    simp only [v₂,SupVm.register]
    split <;> exact hcreated.next
  have hroot₂ : v₂.rootSupervisor = vm.rootSupervisor := by
    simp only [v₂,SupVm.register]
    split <;> exact hcreated.root
  -- the first message and the state
  obtain ⟨v₃,hv₃,h⟩ := bind_eq_some_iff.mp h
  obtain ⟨v₄,hv₄,h⟩ := bind_eq_some_iff.mp h
  cases h
  obtain ⟨y₃,hy₃,rfl⟩ := modify_some hv₃
  obtain ⟨y₄,hy₄,rfl⟩ := modify_some hv₄
  have hy₃' : v₂.actors a = some y₃ := hy₃
  obtain rfl : vm.newActor sp.behaviorClass (some s) = y₃ := by
    rw [hactors₂,hnew] at hy₃'
    exact Option.some.inj hy₃'
  rw [put_same] at hy₄
  cases hy₄
  let y := if fate.memory then enqueue (vm.newActor sp.behaviorClass (some s)) ⟨none,0⟩ false
    else vm.newActor sp.behaviorClass (some s)
  have halike : SameTree (vm.newActor sp.behaviorClass (some s)) y := by
    simp only [y]
    split
    · exact enqueue_sameTree _ _ _
    · exact ⟨SameChild.refl _,rfl⟩
  let z := { y with state := if fate.running then ActorState.ready else .created }
  have halike' : SameTree y z := ⟨⟨rfl,rfl,id,id⟩,rfl⟩
  have hw₃ : Wired busy (v₂.put a (some y)) := hw₂.put hy₃' halike
  have hw₄ : Wired busy ((v₂.put a (some y)).put a (some z)) := hw₃.put (put_same _ _ _) halike'
  have hother : ∀ c x,vm.actors c = some x →
      ((v₂.put a (some y)).put a (some z)).actors c = some x := by
    intro c x hx
    have hca : c ≠ a := by
      rintro rfl
      rw [hcreated.free] at hx
      cases hx
    rw [put_other _ hca,put_other _ hca,hactors₂]
    exact hcreated.old hx
  refine ⟨rfl,hcreated.free,hw₄,?_,?_,?_,hnext₂,hroot₂⟩
  · refine ⟨z,put_same _ _ _,halike.actorId,halike.supervisor,halike.owned rfl,?_,?_⟩
    · simp only [z]
      split <;> simp
    · show v₂.registry y.actorId = some a ↔ _
      rw [halike.actorId]
      exact hreg₂
  · intro c x hx
    refine ⟨hother c x hx,x,x,hx,hother c x hx,rfl,.rfl,?_⟩
    have := (hw.ids c x hx).2
    show v₂.registry x.actorId = some c ↔ _
    rw [hregother _ (by omega)]
  · intro p i
    calc ((v₂.put a (some y)).put a (some z)).spec p i
        = (v₂.put a (some y)).spec p i := put_spec (put_same _ _ _) halike' p i
      _ = v₂.spec p i := put_spec hy₃' halike p i
      _ = v₁.spec p i := spec_congr (congrFun hactors₂ p) i
      _ = vm.spec p i := hcreated.spec rfl p i

theorem restartChild_none (hc : fate.child = none) :
    vm.restartChild s sp fate = some (vm,none) := by
  simp [restartChild,hc]

/-! ## The strategies -/

section

variable {d : SupervisorData} {fate : Fate} {args : List Oop} {id : Nat} {er : Oop}

section

variable (hs : vm.actors s = some x) (hd : x.supData = some d)

include hs hd

theorem spec_iff (j : Nat) :
    vm.spec s j = d.children[j]? := by
  rw [spec_of hs,hd]
  rfl

theorem all_iff (f : ChildSpec → Bool) :
    d.children.all f = true ↔ ∀ j sp,vm.spec s j = some sp → f sp = true := by
  simp only [List.all_eq_true,spec_iff hs hd]
  constructor
  · intro h j sp hsp
    exact h sp (mem_of_getElem? hsp)
  · intro h sp hsp
    obtain ⟨j,hj⟩ := mem_iff_getElem?.mp hsp
    exact h j sp hj

theorem othersUp_iff :
    othersUp vm d i = true ↔ ∀ j sp,j ≠ i → vm.spec s j = some sp → childUp vm sp = true := by
  simp only [othersUp,List.all_eq_true,mem_range,Bool.or_eq_true,beq_iff_eq,spec_iff hs hd]
  constructor
  · intro h j sp hj hsp
    have := (h j (List.getElem?_eq_some_iff.mp hsp).1).resolve_left hj
    simpa [hsp] using this
  · intro h j hj
    by_cases hji : j = i
    · exact .inl hji
    · right
      rw [getElem?_eq_getElem hj]
      exact h j d.children[j] hji (getElem?_eq_getElem hj)

end

theorem retire_spec {sq : ChildSpec} (hw : Wired [] vm) (hs : vm.actors s = some x)
    (hsp : vm.spec s i = some sp) (hnone : sq.currentActor = none) (h0 : sq.currentActorId = 0)
    {u : SupVm} (hu : vm.destroyOld sp.currentActor = some u) (hv : u.setSpec s i sq = some vm') :
    Replaced vm s i sq vm' := by
  obtain ⟨u',hu',hwu,hus,-,htorn,hkept⟩ := destroyOld_spec hw hs hsp
  cases hu.symm.trans hu'
  have husp : u.spec s i = some sp := (spec_congr (hus.trans hs.symm) i).trans hsp
  rw [setSpec_of hus] at hv
  obtain rfl := Option.some.inj hv
  exact .setSpec hs hus hsp hkept ((Onward.torn htorn).trans (.setSpec hus husp (.inl h0)))
    (hwu.clear hus husp hnone (.inr h0))

/-- Restart: the record has a new actor, or none could be made. -/
theorem restart_spec (hw : Wired [] vm) (hs : vm.actors s = some x)
    (hsp : vm.spec s i = some sp) (hleft : vm.nextActorId + 1 < 2 ^ 32)
    {u : SupVm} (hu : vm.destroyOld sp.currentActor = some u)
    {r : SupVm × Option Nat} (hr : u.restartChild s sp fate = some r) {sq : ChildSpec}
    (hcur : sq.currentActor = r.2)
    (hcurId : sq.currentActorId = if r.2.isSome then u.nextActorId else 0)
    (hv : r.1.setSpec s i sq = some vm') :
    Replaced vm s i sq vm' ∧
    u.nextActorId = vm.nextActorId ∧ r.2 = fate.child ∧
    ∀ a,r.2 = some a → ∃ y,vm'.actors a = some y ∧ y.state ≠ .terminated ∧
      (vm'.registry y.actorId = some a ↔ fate.registers = true) := by
  obtain ⟨u',hu',hwu,hus,hnext,htorn,hkept⟩ := destroyOld_spec hw hs hsp
  cases hu.symm.trans hu'
  have husp : u.spec s i = some sp := (spec_congr (hus.trans hs.symm) i).trans hsp
  cases hc : fate.child with
  | none =>
    rw [restartChild_none hc] at hr
    obtain rfl := Option.some.inj hr
    rw [setSpec_of hus] at hv
    obtain rfl := Option.some.inj hv
    refine ⟨?_,hnext,rfl,by simp⟩
    exact .setSpec hs hus hsp hkept ((Onward.torn htorn).trans (.setSpec hus husp (.inl hcurId)))
      (hwu.clear hus husp hcur (.inr hcurId))
  | some a =>
    obtain ⟨hr₂,hre⟩ := restartChild_some hwu (hnext ▸ hleft) hc hr
    simp only [hr₂,isSome_some,if_true] at hcur hcurId ⊢
    obtain ⟨hrs,-⟩ := hre.other s x hus
    have hrsp : r.1.spec s i = some sp := (hre.spec s i).trans husp
    obtain ⟨y,hy,hyid,hysup,hyref,hyst,hyreg⟩ := hre.new
    have hid := (hwu.ids s x hus).2
    rw [setSpec_of hrs] at hv
    obtain rfl := Option.some.inj hv
    have hne : a ≠ s := by
      rintro rfl
      rw [hre.free] at hus
      cases hus
    have hwired : Wired [] (r.1.put s (some (x.withSpec i sq))) := by
      refine hre.wired.setSpec hrs hrsp ?_ (fun _ => hcurId ▸ hid) ?_ ?_ ?_
      · intro c hc
        cases hcur.symm.trans hc
        exact ⟨y,hy,hyid.trans hcurId.symm,hysup,hyref⟩
      · -- no record leads to an address that was free
        intro c q j sq hc hsq hq
        cases hcur.symm.trans hc
        by_contra hne
        rw [hre.spec] at hsq
        obtain ⟨z,hz,-⟩ := hwu.child q j sq a hsq hq (by simpa using hne)
        rw [hre.free] at hz
        cases hz
      · intro _ q j sq hsq heq
        rw [hre.spec] at hsq
        have := hwu.specIds q j sq hsq
        omega
      · have := hre.next
        omega
    have hreo : Onward u r.1 := .of_spec (fun c z hz _ => ⟨z,(hre.other c z hz).1,rfl,rfl⟩)
      hre.spec (hre.next ▸ Nat.le_succ _)
    have hlast : Onward u (r.1.put s (some (x.withSpec i sq))) := by
      refine ⟨hreo.held.trans (.put hrs rfl rfl),fun p j sr hsr => ?_,hreo.next⟩
      rw [withSpec_spec hrs hrsp] at hsr
      split at hsr
      · obtain rfl := Option.some.inj hsr
        exact .inr (.inl (Nat.le_of_eq hcurId.symm))
      · exact hreo.specs p j sr hsr
    refine ⟨?_,hnext,trivial,?_⟩
    · refine .setSpec hs hrs hsp (fun j sq b hj hsq hb => ?_) ((Onward.torn htorn).trans hlast)
        hwired
      have hk := hkept j sq b hj hsq hb
      obtain ⟨-,z,-,hz,-⟩ := id hk
      exact hk.trans (hre.other b z hz).2
    · intro a' ha'
      cases ha'
      exact ⟨y,by rw [put_other _ hne]; exact hy,hyst,hyreg⟩

theorem unchanged_consistent_iff (hw' : Wired [] vm') (hspec : ∀ j,vm'.spec s j = vm.spec s j)
    (hup : ∀ j sp,vm.spec s j = some sp → childUp vm' sp = childUp vm sp) :
    RecordsConsistent vm' s args ↔ (∀ j sp,vm.spec s j = some sp → childUp vm sp = true) ∧
      ∀ id,failedId args = some id → ∀ j sp,vm.spec s j = some sp → sp.currentActor ≠ none →
        sp.currentActorId ≠ id := by
  constructor
  · intro h
    refine ⟨fun j sp hsp => ?_,fun id hid j sp hsp hc => ?_⟩
    · rw [← hup j sp hsp]
      exact (specOk_iff hw' ((hspec j).trans hsp)).mp (h.specs j sp ((hspec j).trans hsp))
    · obtain ⟨c,hc⟩ := ne_none_iff_exists'.mp hc
      obtain ⟨y,hy,hyid,-⟩ := hw'.child s j sp c ((hspec j).trans hsp) hc (by simp)
      exact hyid ▸ h.gone id hid j sp c y ((hspec j).trans hsp) hc hy
  · rintro ⟨hall,hgone⟩
    refine ⟨fun j sp hsp => ?_,fun id hid j sp c y hsp hc hy => ?_⟩
    · rw [specOk_iff hw' hsp]
      rw [hspec] at hsp
      rw [hup j sp hsp]
      exact hall j sp hsp
    · obtain ⟨z,hz,hzid,-⟩ := hw'.child s j sp c hsp hc (by simp)
      cases hy.symm.trans hz
      rw [hzid]
      exact hgone id hid j sp ((hspec j).symm.trans hsp) (by simp [hc])

theorem unfound_consistent_iff (hw : Wired [] vm) (hs : vm.actors s = some x)
    (hd : x.supData = some d) (hmiss : (failedId args).bind d.findChildById = none) :
    RecordsConsistent vm s args ↔ d.children.all (childUp vm) = true := by
  rw [unchanged_consistent_iff hw (fun _ => rfl) (fun _ _ _ => rfl),all_iff hs hd]
  refine ⟨fun h => h.1,fun h => ⟨h,fun id hid j sp hsp _ heq => ?_⟩⟩
  have hnone : d.findChildById id = none := by simpa [hid] using hmiss
  rw [SupervisorData.findChildById,findIdx?_eq_none_iff] at hnone
  rw [spec_iff hs hd] at hsp
  simpa [heq] using hnone sp (mem_of_getElem? hsp)

theorem SupervisorData.tick_children (d : SupervisorData) (now : Nat) :
    (d.tick now).children = d.children := by
  simp only [SupervisorData.tick]
  repeat' split
  all_goals rfl

theorem findChildById_some (h : d.findChildById id = some i) (hi : d.children[i]? = some sp) :
    sp.currentActorId = id := by
  rw [SupervisorData.findChildById,findIdx?_eq_some_iff_getElem] at h
  obtain ⟨hlt,heq,-⟩ := h
  rw [getElem?_eq_getElem hlt] at hi
  obtain rfl := Option.some.inj hi
  simpa using heq

theorem rootExceeded_consistent_iff {v : SupVm} (hw : Wired [] vm) (hs : vm.actors s = some x)
    (hd : x.supData = some d) (hsp : vm.spec s i = some sp) (hargs : failedId args = some id)
    (hid : sp.currentActorId = id) (h : Harmless vm v) (h' : Harmless v vm') :
    RecordsConsistent vm' s args ↔
      (sp.currentActor.isNone && d.children.all (childUp vm)) = true := by
  have hwv := h.wired hw
  rw [unchanged_consistent_iff (h'.wired hwv) (fun j => (h'.spec s j).trans (h.spec s j))
    (fun j sp hsp => (h'.up hwv ((h.spec s j).trans hsp)).trans (h.up hw hsp)),
    Bool.and_eq_true,all_iff hs hd,isNone_iff_eq_none,and_comm]
  refine and_congr_left fun _ => ⟨fun hgone => ?_,fun hnone id' hid' j sq hsq hq heq => ?_⟩
  · by_contra hne
    exact hgone id hargs i sp hsp hne hid
  · cases hargs.symm.trans hid'
    have hyoung := hw.younger s j sq x hsq hq hs
    cases hw.idsApart s j s i sq sp hsq hsp (heq.trans hid.symm) (by omega)
    exact hq (Option.some.inj (hsp.symm.trans hsq) ▸ hnone)

/-- The supervisor's records have no actors left. -/
structure Emptied (s : Nat) (d : SupervisorData) (vm' : SupVm) : Prop where
  record : ∀ j sp,d.children[j]? = some sp → ∃ sq,vm'.spec s j = some sq ∧ sq.currentActor = none ∧
    sq.currentActorId = if sp.currentActor ≠ none then 0 else sp.currentActorId
  domain : ∀ j sq,vm'.spec s j = some sq → ∃ sp,d.children[j]? = some sp

theorem Emptied.consistent_iff (h : Emptied s d vm') : RecordsConsistent vm' s args ↔
      d.children.all (fun sp => sp.currentActor.isSome || sp.currentActorId == 0) = true := by
  simp only [List.all_eq_true,Bool.or_eq_true,beq_iff_eq]
  constructor
  · intro hcons sp hmem
    obtain ⟨j,hsp⟩ := mem_iff_getElem?.mp hmem
    obtain ⟨sq,hsq,hnone,hsqid⟩ := h.record j sp hsp
    have hok := hcons.specs j sq hsq
    simp only [SpecOk,hnone] at hok
    cases hc : sp.currentActor with
    | some c => simp
    | none => simpa [hc,hok] using hsqid.symm
  · intro hall
    refine ⟨fun j sq hsq => ?_,fun id hid j sq c z hsq hc hz => ?_⟩
    · obtain ⟨sp,hsp⟩ := h.domain j sq hsq
      obtain ⟨sq',hsq',hnone,hsqid⟩ := h.record j sp hsp
      cases hsq.symm.trans hsq'
      simp only [SpecOk,hnone]
      have hsp' := hall sp (mem_of_getElem? hsp)
      rw [hsqid]
      cases hc : sp.currentActor with
      | some c => simp
      | none => simpa [hc] using hsp'
    · obtain ⟨sp,hsp⟩ := h.domain j sq hsq
      obtain ⟨sq',hsq',hnone,-⟩ := h.record j sp hsp
      cases hsq.symm.trans hsq'
      rw [hnone] at hc
      cases hc

theorem teardown_spec {v v' : SupVm} (hw : Wired [] vm) (hs : vm.actors s = some x)
    (hd : x.supData = some d) {e : SupervisorData} (he : e.children = d.children)
    (hdata : vm.setData s e = some v)
    {reason : Oop} (hterm : v.terminateAllChildren s = some v')
    {w : SupVm} (hesc : v'.escalateToParent s reason fate = some w)
    (hst : w.setState s .terminated = some vm') :
    Wired [] vm' ∧ Onward vm vm' ∧ Emptied s d vm' := by
  obtain ⟨hdh,hvs⟩ := setData_harmless hs hd he hdata
  have hwv := hdh.wired hw
  -- the loop over the children
  have hdrop : ∃ u,v.terminateAllChildren s = some u ∧ Wired [] u ∧
      Dropped true v s d.children.length u := by
    unfold terminateAllChildren
    have hvd : v.data s = some e := by simp [SupVm.data,hvs]
    rw [hvd,← he]
    refine dropChildren_spec true _ hwv hvs (by intro e he; cases he)
      (fun c v y _ _ _ => staActorTerminate_spec v c) (fun i hi => ?_)
    rw [spec_of hvs]
    simp [hi]
  obtain ⟨u,hu,hwu,hdropped⟩ := hdrop
  cases hterm.symm.trans hu
  have hesch := escalateToParent_harmless hesc
  obtain ⟨y,hy,rfl⟩ := modify_some hst
  have halike : SameTree y { y with state := .terminated } := ⟨⟨rfl,rfl,id,id⟩,rfl⟩
  have honward : Onward vm w := (hdh.onward.trans (.torn hdropped.torn)).trans hesch.onward
  refine ⟨(hesch.wired hwu).put hy halike,honward.trans (.put hy halike rfl),?_,?_⟩
  · intro j sp hsp
    have hj := (List.getElem?_eq_some_iff.mp hsp).1
    have hvsp : v.spec s j = some sp := by
      rw [hdh.spec,spec_iff hs hd]
      exact hsp
    obtain ⟨sq,hsq,hnone,hsqid⟩ := hdropped.record j sp hj hvsp
    refine ⟨sq,?_,hnone,by simpa using hsqid⟩
    rw [put_spec hy halike,hesch.spec]
    exact hsq
  · intro j sq hsq
    rw [put_spec hy halike,hesch.spec] at hsq
    obtain ⟨sp,hsp,-⟩ := hdropped.torn.specs s j sq hsq
    rw [hdh.spec,spec_iff hs hd] at hsp
    exact ⟨sp,hsp⟩

/-! ### One call -/

/-- What `sta_supervisor_handle_failure` can do. -/
inductive Handled (vm : SupVm) (s : Nat) (d : SupervisorData) (args : List Oop) (fate : Fate) :
    SupVm → Prop where
  | unfound : (failedId args).bind d.findChildById = none → Handled vm s d args fate vm
  | replaced {vm' : SupVm} {id i : Nat} {sp sq : ChildSpec} : failedId args = some id →
      d.findChildById id = some i → d.children[i]? = some sp →
      ¬ (sp.strategy = .restart ∧ d.exceeded fate.now = true) →
      (sq.currentActor = none ∧ sq.currentActorId = 0 ∨ vm.nextActorId ≤ sq.currentActorId) →
      childUp vm' sq = (sp.strategy ≠ .restart || fate.child.isNone || fate.registers) →
      Replaced vm s i sq vm' → Handled vm s d args fate vm'
  | rootExceeded {v vm' : SupVm} {id i : Nat} {sp : ChildSpec} : failedId args = some id →
      d.findChildById id = some i → d.children[i]? = some sp →
      sp.strategy = .restart ∧ d.exceeded fate.now = true → s = vm.rootSupervisor →
      Harmless vm v → Harmless v vm' → Handled vm s d args fate vm'
  | torn {vm' : SupVm} {id i : Nat} {sp : ChildSpec} : failedId args = some id →
      d.findChildById id = some i → d.children[i]? = some sp →
      sp.strategy = .restart ∧ d.exceeded fate.now = true → s ≠ vm.rootSupervisor →
      Wired [] vm' → Onward vm vm' → Emptied s d vm' → Handled vm s d args fate vm'

theorem handleFailure_handled (hw : Wired [] vm) (hs : vm.actors s = some x)
    (hd : x.supData = some d) (hleft : vm.nextActorId + 1 < 2 ^ 32) {rc : Int}
    (h : vm.handleFailure er s args fate = some (vm',rc)) : Handled vm s d args fate vm' := by
  unfold handleFailure at h
  simp only [hs,bind_eq_bind,bind_some,hd] at h
  cases hargs : failedId args with
  | none =>
    rw [hargs] at h
    cases h
    exact .unfound (by simp [hargs])
  | some id =>
    simp only [hargs] at h
    cases hf : d.findChildById id with
    | none =>
      rw [hf] at h
      cases h
      exact .unfound (by simp [hargs,hf])
    | some i =>
      simp only [hf] at h
      obtain ⟨sp,hi,h⟩ := bind_eq_some_iff.mp h
      have hsp : vm.spec s i = some sp := (spec_iff hs hd i).trans hi
      unfold applyStrategy at h
      cases hst : sp.strategy with
      | stop =>
        simp only [hst] at h
        obtain ⟨u,hu,h⟩ := bind_eq_some_iff.mp h
        obtain ⟨v,hv,h⟩ := bind_eq_some_iff.mp h
        cases h
        exact .replaced hargs hf hi (by simp [hst]) (.inl ⟨rfl,rfl⟩) (by simp [childUp,hst])
          (retire_spec hw hs hsp rfl rfl hu hv)
      | escalate =>
        simp only [hst] at h
        obtain ⟨u,hu,h⟩ := bind_eq_some_iff.mp h
        obtain ⟨v,hv,h⟩ := bind_eq_some_iff.mp h
        obtain ⟨v',hesc,h⟩ := bind_eq_some_iff.mp h
        cases h
        exact .replaced hargs hf hi (by simp [hst]) (.inl ⟨rfl,rfl⟩) (by simp [childUp,hst])
          ((retire_spec hw hs hsp rfl rfl hu hv).before (escalateToParent_harmless hesc))
      | restart =>
        simp only [hst] at h
        obtain ⟨v,hv,h⟩ := bind_eq_some_iff.mp h
        have htick : (d.tick fate.now).children = d.children := d.tick_children fate.now
        obtain ⟨hharm,hvs⟩ := setData_harmless hs hd htick hv
        by_cases hex : d.exceeded fate.now = true
        · rw [if_pos hex] at h
          obtain ⟨w,hexc,h⟩ := bind_eq_some_iff.mp h
          cases h
          unfold intensityExceeded at hexc
          rw [hharm.root] at hexc
          split at hexc
          · next hroot =>
            obtain ⟨y,hy,rfl⟩ := modify_some hexc
            refine .rootExceeded hargs hf hi ⟨hst,hex⟩ hroot hharm
              (.put hy ⟨⟨rfl,rfl,fun h => h,fun h => h⟩,?_⟩ .rfl rfl)
            cases y.supData <;> rfl
          · next hroot =>
            obtain ⟨v₁,hv₁,hexc⟩ := bind_eq_some_iff.mp hexc
            obtain ⟨v₂,hv₂,hexc⟩ := bind_eq_some_iff.mp hexc
            obtain ⟨hw',honward,hempty⟩ := teardown_spec hw hs hd htick hv hv₁ hv₂ hexc
            exact .torn hargs hf hi ⟨hst,hex⟩ hroot hw' honward hempty
        · rw [if_neg hex] at h
          obtain ⟨u,hu,h⟩ := bind_eq_some_iff.mp h
          obtain ⟨r,hr,h⟩ := bind_eq_some_iff.mp h
          obtain ⟨v',hv',h⟩ := bind_eq_some_iff.mp h
          cases h
          obtain ⟨hrep,hnext,hchild,hnew⟩ := restart_spec (hharm.wired hw) hvs
            ((hharm.spec s i).trans hsp) (hharm.next ▸ hleft) hu hr rfl rfl hv'
          refine .replaced hargs hf hi (fun h => hex h.2) ?_ ?_ (hrep.after hharm hw)
          · cases hc : r.2 with
            | none => exact .inl ⟨rfl,rfl⟩
            | some a => exact .inr (Nat.le_of_eq (hnext.trans hharm.next).symm)
          · cases hc : r.2 with
            | none => simp [childUp,← hchild,hc]
            | some a =>
              obtain ⟨y,hy,hyst,hyreg⟩ := hnew a hc
              rw [Bool.eq_iff_iff]
              simp [childUp,← hchild,hc,hy,hyst,hyreg,hst]

theorem Handled.wired (h : Handled vm s d args fate vm') (hw : Wired [] vm) : Wired [] vm' := by
  cases h with
  | unfound => exact hw
  | replaced _ _ _ _ _ _ hrep => exact hrep.wired
  | rootExceeded _ _ _ _ _ h₁ h₂ => exact h₂.wired (h₁.wired hw)
  | torn _ _ _ _ _ hw' => exact hw'

theorem Handled.onward (h : Handled vm s d args fate vm') : Onward vm vm' := by
  cases h with
  | unfound => exact .refl vm
  | replaced _ _ _ _ _ _ hrep => exact hrep.onward
  | rootExceeded _ _ _ _ _ h₁ h₂ => exact h₁.onward.trans h₂.onward
  | torn _ _ _ _ _ _ ho => exact ho

theorem Handled.consistent_iff (h : Handled vm s d args fate vm') (hw : Wired [] vm)
    (hs : vm.actors s = some x) (hd : x.supData = some d) :
    RecordsConsistent vm' s args ↔ recordsKept vm s d args fate = true := by
  unfold recordsKept
  cases h with
  | unfound hmiss =>
    simp only [hmiss]
    exact unfound_consistent_iff hw hs hd hmiss
  | @replaced _ id i sp sq hargs hf hi hrule hnew hup hrep =>
    have hsp : vm.spec s i = some sp := (spec_iff hs hd i).trans hi
    have hid : sp.currentActorId = id := findChildById_some hf hi
    have hlt := hw.specIds s i sp hsp
    simp only [hargs,bind_some,hf,hi]
    rw [if_neg hrule,hrep.consistent_iff hw hs hsp hargs hid (fun hne => ?_),← othersUp_iff hs hd,
      Bool.and_eq_true,hup]
    rcases hnew with ⟨hnone,-⟩ | hle
    · exact absurd hnone hne
    · omega
  | rootExceeded hargs hf hi hrule hroot h₁ h₂ =>
    simp only [hargs,bind_some,hf,hi]
    rw [if_pos hrule,if_pos hroot]
    exact rootExceeded_consistent_iff hw hs hd ((spec_iff hs hd _).trans hi) hargs
      (findChildById_some hf hi) h₁ h₂
  | torn hargs hf hi hrule hroot _ _ hempty =>
    simp only [hargs,bind_some,hf,hi]
    rw [if_pos hrule,if_neg hroot]
    exact hempty.consistent_iff

/-! ### The call returns -/

def Attached (vm : SupVm) (s : Nat) (x : SupActor) : Prop :=
  ∀ p,x.supervisor = some p → ∃ k sp,vm.spec p k = some sp ∧ sp.currentActor = some s

theorem parent_kept {gone : Nat → Prop} (hw : Wired [] vm) (hs : vm.actors s = some x)
    (hatt : Attached vm s x) (h : Torn vm gone vm') (hgone : ∀ b,gone b →
      ∀ y,vm.actors b = some y → x.actorId ≤ y.actorId) {p : Nat} (hp : x.supervisor = some p) :
    (vm'.actors p).isSome := by
  obtain ⟨k,sp,hsp,hc⟩ := hatt p hp
  obtain ⟨y,-,hy,-,-⟩ := spec_owner hsp
  obtain ⟨z,hz,hid,-,-⟩ := hw.child p k sp s hsp hc (by simp)
  cases hs.symm.trans hz
  have hyoung := hw.younger p k sp y hsp (by simp [hc]) hy
  rw [h.kept p (fun hg => by have := hgone p hg y hy; omega),hy]
  rfl

theorem escalateToParent_returns (reason : Oop) (fate : Fate) (hw : Wired busy vm)
    (hs : vm.actors s = some x)
    (hparent : ∀ p,x.supervisor = some p → (vm.actors p).isSome) :
    (vm.escalateToParent s reason fate).isSome := by
  simp only [escalateToParent,hs,bind_eq_bind,bind_some]
  cases hp : x.supervisor with
  | none => rfl
  | some p =>
    obtain ⟨y,hy⟩ := isSome_iff_exists.mp (hparent p hp)
    simp only [hy,bind_some,staActorSendMsg]
    cases hreg : vm.registry y.actorId with
    | none => rfl
    | some t =>
      obtain ⟨z,hz,-⟩ := hw.registered _ t hreg
      simp [hz]

theorem restartChild_returns (sp : ChildSpec) (hroom : ∀ a,fate.child = some a → vm.actors a = none)
    (hs : vm.actors s = some x) :
    ∃ r,vm.restartChild s sp fate = some r ∧ r.1.actors s = some x := by
  cases hc : fate.child with
  | none => exact ⟨_,restartChild_none hc,hs⟩
  | some a =>
    have hfree := hroom a hc
    have hne : s ≠ a := by
      rintro rfl
      rw [hfree] at hs
      cases hs
    let v : SupVm := { vm with
      actors := update vm.actors a (some (vm.newActor sp.behaviorClass (some s)))
      nextActorId := inc32 vm.nextActorId }
    have hcreate : vm.create a sp.behaviorClass (some s) = some v := if_pos (by rw [hfree]; rfl)
    have hv : (v.register vm.nextActorId a fate.registers).actors a =
        some (vm.newActor sp.behaviorClass (some s)) := by
      rw [register_actors]
      exact update_self _ _ _
    refine ⟨_,by
      simp only [restartChild,hc,hcreate,bind_eq_bind,bind_some,modify_of hv,
        SupVm.setState,modify_of (put_same _ _ _)]
      rfl,?_⟩
    rw [put_other _ hne,put_other _ hne,register_actors]
    exact (update_of_ne hne _ _).trans hs

theorem escalate_returns (sq : ChildSpec) (reason : Oop) (fate : Fate) (hw : Wired [] vm)
    (hs : vm.actors s = some x) (hatt : Attached vm s x) (hsp : vm.spec s i = some sp)
    (hnone : sq.currentActor = none) (h0 : sq.currentActorId = 0) :
    ∃ r,(vm.destroyOld sp.currentActor).bind (fun u => (u.setSpec s i sq).bind
      (fun v => v.escalateToParent s reason fate)) = some r := by
  obtain ⟨u,hu,hwu,hus,-,htorn,-⟩ := destroyOld_spec hw hs hsp
  have husp : u.spec s i = some sp := (spec_congr (hus.trans hs.symm) i).trans hsp
  have hwv := hwu.clear hus husp hnone (.inr h0)
  rw [hu,bind_some,setSpec_of hus,bind_some]
  refine isSome_iff_exists.mp (escalateToParent_returns _ _ hwv (put_same _ _ _) fun p hp => ?_)
  have hup : (u.actors p).isSome :=
    parent_kept hw hs hatt htorn (fun b hb y hy => Nat.le_of_lt (hb y hy)) hp
  by_cases hps : p = s
  · rw [hps,put_same]
    rfl
  · rw [put_other _ hps]
    exact hup

theorem teardown_returns (reason : Oop) (fate : Fate) (hw : Wired [] vm) (hs : vm.actors s = some x)
    (hd : x.supData = some d) (hatt : Attached vm s x) :
    ∃ r,(vm.terminateAllChildren s).bind (fun u => (u.escalateToParent s reason fate).bind
      (fun v => v.setState s .terminated)) = some r := by
  obtain ⟨u,hu,hwu,hdrop⟩ := dropChildren_spec (t := staActorTerminate) true d.children.length hw hs
    (by intro e he; cases he) (fun c v y _ _ _ => staActorTerminate_spec v c)
    (fun i hi => by rw [spec_iff hs hd]; simp [hi])
  have hterm : vm.terminateAllChildren s = some u := by
    simp only [terminateAllChildren,SupVm.data,hs,bind_eq_bind,bind_some,hd]
    exact hu
  obtain ⟨y,hy,-,hsup,-,-⟩ := hdrop.actor x hs
  have hparent : ∀ p,y.supervisor = some p → (u.actors p).isSome := by
    intro p hp
    refine parent_kept hw hs hatt hdrop.torn (fun b hb z hz => ?_) (hsup ▸ hp)
    exact hb.id_le hw hs hz (by intro e he; cases he)
  obtain ⟨v,hv⟩ := isSome_iff_exists.mp (escalateToParent_returns reason fate hwu hy hparent)
  obtain ⟨-,z,-,hz,-⟩ := (escalateToParent_harmless hv).kept hy
  rw [hterm,bind_some,hv,bind_some]
  exact ⟨_,modify_of hz _⟩

theorem restart_returns {f : SupVm → Option Nat → ChildSpec} (hw : Wired [] vm)
    (hs : vm.actors s = some x) (hsp : vm.spec s i = some sp)
    (hroom : ∀ a,fate.child = some a → vm.actors a = none) :
    ∃ u r v,vm.destroyOld sp.currentActor = some u ∧ u.restartChild s sp fate = some r ∧
      r.1.setSpec s i (f u r.2) = some v := by
  obtain ⟨u,hu,-,hus,-,htorn,-⟩ := destroyOld_spec hw hs hsp
  have hroom' : ∀ a,fate.child = some a → u.actors a = none := by
    intro a ha
    cases hy : u.actors a with
    | none => rfl
    | some y =>
      obtain ⟨z,hz,-⟩ := htorn.left a y hy
      rw [hroom a ha] at hz
      cases hz
  obtain ⟨r,hr,hrs⟩ := restartChild_returns sp hroom' hus
  exact ⟨u,r,_,hu,hr,setSpec_of hrs i _⟩

theorem handleFailure_returns (hw : Wired [] vm) (hs : vm.actors s = some x)
    (hatt : Attached vm s x) (hroom : ∀ a,fate.child = some a → vm.actors a = none) :
    (vm.handleFailure er s args fate).isSome := by
  unfold handleFailure
  simp only [hs,bind_eq_bind,bind_some]
  split
  · rfl
  · rfl
  next d id hd hargs =>
  cases hf : d.findChildById id with
  | none => rfl
  | some i =>
    obtain ⟨hlt,-⟩ := findIdx?_eq_some_iff_getElem.mp hf
    have hi := getElem?_eq_getElem hlt
    simp only [hi,bind_some]
    generalize d.children[i] = sp at hi
    have hsp : vm.spec s i = some sp := (spec_iff hs hd i).trans hi
    unfold applyStrategy
    cases sp.strategy with
    | stop =>
      obtain ⟨u,hu,-,hus,-⟩ := destroyOld_spec hw hs hsp
      simp only [hu,bind_eq_bind,bind_some,setSpec_of hus]
      rfl
    | escalate =>
      obtain ⟨r,hr⟩ := escalate_returns ⟨sp.behaviorClass,.escalate,none,0⟩ (args.getD 1 0) fate
        hw hs hatt hsp rfl rfl
      obtain ⟨u,hu,hr⟩ := bind_eq_some_iff.mp hr
      obtain ⟨v,hv,hr⟩ := bind_eq_some_iff.mp hr
      simp only [hu,bind_eq_bind,bind_some,hv,hr]
      rfl
    | restart =>
      have hchildren := d.tick_children fate.now
      generalize d.exceeded fate.now = exceeded
      generalize d.tick fate.now = e at hchildren ⊢
      have halike : SameTree x { x with supData := some e } :=
        ⟨⟨rfl,rfl,fun h => h,fun h => h⟩,by simp [hd,hchildren]⟩
      have hwv := hw.put hs halike
      have hvsp := (put_spec hs halike s i).trans hsp
      dsimp only
      rw [setData_of hs,bind_eq_bind,bind_some]
      split
      · unfold intensityExceeded
        split
        · rw [modify_of (put_same _ _ _)]
          rfl
        · have hattv : Attached (vm.put s (some { x with supData := some e })) s
              { x with supData := some e } := by
            intro p hp
            obtain ⟨k,sq,hsq,hc⟩ := hatt p hp
            exact ⟨k,sq,(put_spec hs halike p k).trans hsq,hc⟩
          obtain ⟨r,hr⟩ := teardown_returns er fate hwv (put_same _ _ _) rfl hattv
          simp only [bind_eq_bind,hr]
          rfl
      · have hroomv : ∀ a,fate.child = some a →
            (vm.put s (some { x with supData := some e })).actors a = none := by
          intro a ha
          have hne : a ≠ s := by
            rintro rfl
            rw [hroom a ha] at hs
            cases hs
          rw [put_other _ hne]
          exact hroom a ha
        obtain ⟨u,r,v,hu,hr,hv⟩ := restart_returns (f := fun u new => ⟨sp.behaviorClass,.restart,new,
          if new.isSome then u.nextActorId else 0⟩) hwv (put_same _ _ _) hvsp hroomv
        simp only [hu,hr,hv,bind_eq_bind,bind_some]
        rfl

/-! ## Runs -/

/-- A supervisor may get a record for a new child. -/
theorem Wired.addSpec (hw : Wired [] vm) (new : ChildSpec) (hs : vm.actors s = some x)
    (hd : x.supData = some d) (hc : new.currentActor = some a) (hy : vm.actors a = some y)
    (hyid : y.actorId = new.currentActorId) (hysup : y.supervisor = some s)
    (hyref : y.refcount = y.held + 1) (hyoung : x.actorId < new.currentActorId)
    (hfree : ∀ q j sq,vm.spec q j = some sq → sq.currentActor ≠ some a)
    (hids : ∀ q j sq,vm.spec q j = some sq → sq.currentActorId ≠ new.currentActorId) :
    Wired [] (vm.put s (some { x with supData := some { d with
      children := new :: d.children } })) := by
  have hsame : SameChild x { x with supData := some { d with children := new :: d.children } } :=
    ⟨rfl,rfl,fun h => h,fun h => h⟩
  obtain ⟨hactors,hunique,hreg,hcount⟩ := hw.put_actors hs hsame
  -- a record is the new one, or it was there before, one place earlier
  have hcases : ∀ q j sq,(vm.put s (some { x with supData := some { d with
      children := new :: d.children } })).spec q j = some sq →
      (q,j) = (s,0) ∧ sq = new ∨
        ∃ k,vm.spec q k = some sq ∧ (q,j) = (q,if q = s then k + 1 else k) := by
    intro q j sq hsq
    by_cases hq : q = s
    · subst hq
      rw [spec_of (put_same _ _ _)] at hsq
      cases j with
      | zero => exact .inl ⟨rfl,by simpa using hsq.symm⟩
      | succ k => exact .inr ⟨k,by rw [spec_iff hs hd]; simpa using hsq,by simp⟩
    · rw [spec_congr (put_other _ hq)] at hsq
      exact .inr ⟨j,hsq,by simp [hq]⟩
  refine ⟨?_,?_,?_,?_,?_,hactors,hunique,hreg,hw.counter,hw.started,hcount⟩
  · intro q j sq c hsq hq _
    have hfound : ∃ z,vm.actors c = some z ∧ z.actorId = sq.currentActorId ∧
        z.supervisor = some q ∧ z.refcount = z.held + 1 := by
      rcases hcases q j sq hsq with ⟨heq,rfl⟩ | ⟨k,hk,-⟩
      · cases heq
        cases hc.symm.trans hq
        exact ⟨y,hy,hyid,hysup,hyref⟩
      · exact hw.child q k sq c hk hq (by simp)
    obtain ⟨z,hz,hid,hsup,href⟩ := hfound
    obtain ⟨z',hz',hs'⟩ := put_forth hs hsame hz
    exact ⟨z',hz',hs'.actorId.trans hid,hs'.supervisor.trans hsup,hs'.owned href⟩
  · intro q j sq z hsq hq hz
    obtain ⟨w,hw',hs'⟩ := put_back hs hsame hz
    rcases hcases q j sq hsq with ⟨heq,rfl⟩ | ⟨k,hk,-⟩
    · cases heq
      cases hs.symm.trans hw'
      exact hs'.actorId ▸ hyoung
    · exact hs'.actorId ▸ hw.younger q k sq w hk hq hw'
  · intro q j q' j' sq sq' c hsq hsq' hq hq'
    rcases hcases q j sq hsq with ⟨heq,rfl⟩ | ⟨k,hk,hjk⟩
    · rcases hcases q' j' sq' hsq' with ⟨heq',-⟩ | ⟨k',hk',-⟩
      · rw [heq,heq']
      · rw [hc] at hq
        cases hq
        exact absurd hq' (hfree q' k' sq' hk')
    · rcases hcases q' j' sq' hsq' with ⟨heq',rfl⟩ | ⟨k',hk',hjk'⟩
      · rw [hc] at hq'
        cases hq'
        exact absurd hq (hfree q k sq hk)
      · cases hw.apart q k q' k' sq sq' c hk hk' hq hq'
        rw [hjk,hjk']
  · intro q j q' j' sq sq' hsq hsq' heq hne
    rcases hcases q j sq hsq with ⟨heqp,rfl⟩ | ⟨k,hk,hjk⟩
    · rcases hcases q' j' sq' hsq' with ⟨heqp',-⟩ | ⟨k',hk',-⟩
      · rw [heqp,heqp']
      · exact absurd heq.symm (hids q' k' sq' hk')
    · rcases hcases q' j' sq' hsq' with ⟨heqp',rfl⟩ | ⟨k',hk',hjk'⟩
      · exact absurd heq (hids q k sq hk)
      · cases hw.idsApart q k q' k' sq sq' hk hk' heq hne
        rw [hjk,hjk']
  · intro q j sq hsq
    rcases hcases q j sq hsq with ⟨-,rfl⟩ | ⟨k,hk,-⟩
    · exact hyid ▸ (hw.ids a y hy).2
    · exact hw.specIds q k sq hk

theorem Created.fresh (hw : Wired [] vm) (h : Created vm a y vm') (hdata : y.supData = none)
    (q j : Nat) (sq : ChildSpec) (hsq : vm'.spec q j = some sq) :
    sq.currentActor ≠ some a ∧ sq.currentActorId < vm.nextActorId := by
  rw [h.spec hdata] at hsq
  refine ⟨fun hc => ?_,hw.specIds q j sq hsq⟩
  obtain ⟨z,hz,-⟩ := hw.child q j sq a hsq hc (by simp)
  rw [h.free] at hz
  cases hz

theorem addChild_wired {cls : Oop} {strategy : RestartStrategy} (hw : Wired [] vm)
    (hleft : vm.nextActorId + 1 < 2 ^ 32) (h : vm.addChild s cls strategy fate = some vm') :
    Wired [] vm' := by
  unfold addChild at h
  obtain ⟨x,hs,h⟩ := bind_eq_some_iff.mp h
  split at h
  · cases h
    exact hw
  · cases h
    exact hw
  · next d a hd hc =>
    obtain ⟨v,hv,h⟩ := bind_eq_some_iff.mp h
    have hcreated := create_some hleft hv
    have hwv := hw.create hleft hcreated rfl rfl (Nat.zero_le _)
    have hfresh := hcreated.fresh hw rfl
    split at h
    · obtain ⟨u,hu,hwu,-⟩ := staActorTerminate_spec v a [] _ hwv hcreated.new rfl
        (by intro e he; cases he) (fun q j sq hsq hq => absurd hq (hfresh q j sq hsq).1)
      cases hu.symm.trans h
      exact hwu
    · obtain ⟨u,hu,h⟩ := bind_eq_some_iff.mp h
      cases h
      have hvs : v.actors s = some x := hcreated.old hs
      obtain ⟨z,hz,rfl⟩ := modify_some hu
      cases hvs.symm.trans hz
      have hne : a ≠ s := by
        rintro rfl
        rw [hcreated.free] at hs
        cases hs
      have hwu := hwv.addSpec ⟨cls,strategy,some a,vm.nextActorId⟩ hvs hd rfl
        hcreated.new rfl rfl rfl (hw.ids s x hs).2 (fun q j sq hsq => (hfresh q j sq hsq).1)
        (fun q j sq hsq => Nat.ne_of_lt (hfresh q j sq hsq).2)
      exact hwu.register ((put_other _ hne).trans hcreated.new) rfl fate.registers

theorem letGo_some (h : vm.letGo a = some vm') : ∃ x,vm.actors a = some x ∧ 0 < x.held ∧
    (x.refcount = 1 ∧ vm' = vm.put a none ∨ x.refcount ≠ 1 ∧
      vm' = vm.put a (some { x with held := x.held - 1,refcount := x.refcount - 1 })) := by
  unfold letGo at h
  obtain ⟨x,hx,h⟩ := bind_eq_some_iff.mp h
  split at h
  · next hheld =>
    simp only [SupVm.release,put_same,map_some,some.injEq,put_put] at h
    refine ⟨x,hx,hheld,?_⟩
    split at h
    · next hlast => exact .inl ⟨hlast,h.symm⟩
    · next hlast => exact .inr ⟨hlast,h.symm⟩
  · cases h

theorem letGo_wired (hw : Wired [] vm) (h : vm.letGo a = some vm') : Wired [] vm' := by
  obtain ⟨x,hx,hheld,⟨hlast,rfl⟩ | ⟨hlast,rfl⟩⟩ := letGo_some h
  · -- the owner's reference is gone already, so nothing leads to the actor
    have hle := hw.counted a x hx
    have halike : SameTree x { x with held := x.held - 1 } :=
      ⟨⟨rfl,rfl,fun _ => by omega,fun _ => by dsimp only; omega⟩,rfl⟩
    have hunowned : ∀ z,vm.actors a = some z → z.refcount ≠ z.held + 1 := by
      intro z hz
      cases hx.symm.trans hz
      omega
    obtain ⟨v,hv,hwv,-⟩ := (hw.put hx halike).release (put_same _ _ _) (fun p i sp hsp hc => by
        obtain ⟨z,hz,-,-,href⟩ :=
          hw.child p i sp a ((put_spec hx halike p i).symm.trans hsp) hc (by simp)
        exact absurd href (hunowned z hz))
      (fun id hreg => by
        obtain ⟨z,hz,-,href⟩ := hw.registered id a hreg
        exact absurd href (hunowned z hz))
      (by dsimp only; omega)
    simp only [SupVm.release,put_same,map_some,hlast,if_true,put_put,some.injEq] at hv
    exact hv ▸ hwv
  · refine hw.put hx ⟨⟨rfl,rfl,fun href => ?_,fun hle => ?_⟩,rfl⟩ <;>
    · dsimp only
      omega

theorem lookup_wired (hw : Wired busy vm) (h : vm.lookup id = some vm') : Wired busy vm' := by
  obtain ⟨a,-,h⟩ := bind_eq_some_iff.mp h
  obtain ⟨x,hx,rfl⟩ := modify_some h
  exact hw.put hx ⟨⟨rfl,rfl,fun h => by dsimp only; omega,fun h => by dsimp only; omega⟩,rfl⟩

theorem supStep_wired {e : SupEvent} (hw : Wired [] vm) (hleft : idsLeft vm e)
    (h : supStep er vm e = some vm') : Wired [] vm' := by
  cases e with
  | spawn a cls registers =>
    obtain ⟨v,hv,h⟩ := bind_eq_some_iff.mp h
    cases h
    have hcreated := create_some hleft hv
    exact (hw.create hleft hcreated rfl rfl (Nat.zero_le _)).register hcreated.new rfl registers
  | init a maxRestarts maxSeconds =>
    obtain ⟨x,hx,rfl⟩ := modify_some h
    refine hw.put_sub hx ⟨rfl,rfl,fun h => h,fun h => h⟩ (fun p i sp hsp => ?_)
    by_cases hp : p = a
    · subst hp
      rw [spec_of (put_same _ _ _)] at hsp
      simp at hsp
    · rwa [spec_congr (put_other _ hp)] at hsp
  | addChild s cls strategy fate => exact addChild_wired hw hleft h
  | setState a st =>
    obtain ⟨x,hx,rfl⟩ := modify_some h
    exact hw.put hx ⟨⟨rfl,rfl,fun h => h,fun h => h⟩,rfl⟩
  | lookup id => exact lookup_wired hw h
  | letGo a => exact letGo_wired hw h
  | send id msg fate => exact (staActorSendMsg_harmless h).wired hw
  | dequeue a =>
    obtain ⟨x,-,h⟩ := bind_eq_some_iff.mp h
    split at h
    · cases h
      exact hw
    · obtain ⟨y,hy,rfl⟩ := modify_some h
      exact hw.put hy ⟨⟨rfl,rfl,fun h => h,fun h => h⟩,rfl⟩
  | handle s args fate =>
    obtain ⟨⟨v,rc⟩,hv,rfl⟩ := map_eq_some_iff.mp h
    obtain ⟨x,hs,-⟩ := bind_eq_some_iff.mp (id hv)
    cases hd : x.supData with
    | none =>
      simp only [handleFailure,hs,hd,bind_eq_bind,bind_some] at hv
      cases hv
      exact hw
    | some d => exact (handleFailure_handled hw hs hd hleft hv).wired hw

theorem bootVm_wired (objectClass : Oop) : Wired [] (bootVm objectClass) := by
  have hactors : ∀ a x,(bootVm objectClass).actors a = some x → a = 1 ∧ x.actorId = 2 ∧
      x.refcount = x.held + 1 := by
    intro a x hx
    by_cases ha : a = 1
    · subst ha
      simp only [bootVm,update_self,some.injEq] at hx
      exact ⟨rfl,by rw [← hx]; rfl,by rw [← hx]; rfl⟩
    · simp [bootVm,ha] at hx
  have hspec : ∀ p i sp,(bootVm objectClass).spec p i ≠ some sp := by
    intro p i sp hsp
    by_cases hp : p = 1
    · subst hp
      simp [bootVm,bootRoot,SupVm.spec,SupVm.data] at hsp
    · simp [bootVm,SupVm.spec,SupVm.data,hp] at hsp
  refine ⟨fun p i sp _ hsp => absurd hsp (hspec p i sp),fun p i sp _ hsp => absurd hsp (hspec p i sp),
    fun p i _ _ sp _ _ hsp => absurd hsp (hspec p i sp),
    fun p i _ _ sp _ hsp => absurd hsp (hspec p i sp),
    fun p i sp hsp => absurd hsp (hspec p i sp),?_,?_,?_,(by decide : 3 < 2 ^ 32),
    (by decide : 0 < 3),fun a x hx => by have := (hactors a x hx).2.2; omega⟩
  · intro a x hx
    have := (hactors a x hx).2.1
    show 0 < x.actorId ∧ x.actorId < 3
    omega
  · intro a b x y hx hy _
    rw [(hactors a x hx).1,(hactors b y hy).1]
  · intro id a hreg
    by_cases hid : id = 2
    · subst hid
      obtain rfl : 1 = a := by simpa [bootVm] using hreg
      exact ⟨bootRoot objectClass,by simp [bootVm],rfl,rfl⟩
    · simp [bootVm,hid] at hreg

theorem run_wired {objectClass : Oop} (hrun : Path (supStep er) idsLeft (bootVm objectClass) vm) :
    Wired [] vm :=
  hrun.invariant (bootVm_wired objectClass) (fun _ _ _ hw hleft h => supStep_wired hw hleft h)

/-- In every run, no actor supervises itself, at any distance. -/
theorem supervision_acyclic {objectClass : Oop} {p i c : Nat} {sp : ChildSpec}
    (hrun : Path (supStep er) idsLeft (bootVm objectClass) vm) (hsp : vm.spec p i = some sp)
    (hc : sp.currentActor = some c) : ¬ Below vm c p := by
  intro hbelow
  have hw := run_wired hrun
  obtain ⟨x,hx,hid,-,-⟩ := hw.child p i sp c hsp hc (by simp)
  obtain ⟨y,-,hy,-,-⟩ := spec_owner hsp
  have hle := hbelow.id_le hw hx hy fun _ h => absurd h not_mem_nil
  have hlt := hw.younger p i sp y hsp (by simp [hc]) hy
  omega

/-- In every run, a supervisor's records are consistent after a notification exactly if its other
children were up, a new child could be registered, and it is not the root with its restart limit
exceeded. -/
theorem supervision_records_iff {objectClass : Oop} {u v : SupVm} {rc : Int}
    (hrun : Path (supStep er) idsLeft (bootVm objectClass) u) (hs : u.actors s = some x)
    (hd : x.supData = some d) (hleft : u.nextActorId + 1 < 2 ^ 32)
    (h : u.handleFailure er s args fate = some (v,rc)) :
    RecordsConsistent v s args ↔ recordsKept u s d args fate = true :=
  (handleFailure_handled (run_wired hrun) hs hd hleft h).consistent_iff (run_wired hrun) hs hd

end

end

/-! ### A failed child that stays -/

/-- Nothing fails, and a new actor is made at address `a`. -/
def kindFate (a : Nat) : Fate := ⟨0,0,some a,true,true,true⟩

/-- The child with id `id` crashes. -/
def childFailedArgs (id : Nat) : List Oop := [smallIntOop id,8]

/-- A child of the root supervisor that crashes `n` times, each time in a new actor. -/
def crashes : Nat → List SupEvent
  | 0 => [.addChild 1 512 .restart (kindFate 3)]
  | n + 1 => crashes n ++ [.setState (n + 3) .terminated,
      .handle 1 (childFailedArgs (n + 3)) (kindFate (n + 4))]

theorem supervision_acyclic_child : ∃ u : SupVm,
    u.spec 1 0 = some ⟨512,.restart,some 3,3⟩ ∧ ¬ Below u 3 1 := by
  obtain ⟨u,hrun,hsp⟩ : ∃ u,Path (supStep 0) idsLeft (bootVm 512) u ∧ u.spec 1 0 = some _ :=
    ⟨_,runAll_path (crashes 0) rfl,rfl⟩
  exact ⟨u,hsp,supervision_acyclic hrun hsp rfl⟩

/-- The supervisor at address 1 handles the crash of child `id` and has consistent records by the
condition. -/
def keepsRecords (id : Nat) (u : SupVm) : Bool :=
  match u.actors 1 with
  | none => false
  | some x =>
    match x.supData with
    | none => false
    | some d =>
      recordsKept u 1 d (childFailedArgs id) (kindFate (id + 1)) &&
        (u.handleFailure 0 1 (childFailedArgs id) (kindFate (id + 1))).isSome &&
        decide (u.nextActorId + 1 < 2 ^ 32)

/-- A second crash in a row. -/
theorem supervision_records_restarted : ∃ u v rc,Path (supStep 0) idsLeft (bootVm 512) u ∧
      u.handleFailure 0 1 (childFailedArgs 4) (kindFate 5) = some (v,rc) ∧
      RecordsConsistent v 1 (childFailedArgs 4) := by
  have hrun : (runAll (supStep 0) idsLeft (crashes 1 ++ [.setState 4 .terminated])
      (bootVm 512)).map (keepsRecords 4) = some true := by decide +kernel
  obtain ⟨u,hpath,hu⟩ := runAll_map_path hrun
  unfold keepsRecords at hu
  split at hu
  · cases hu
  next x hx =>
  split at hu
  · cases hu
  next d hd =>
  simp only [Bool.and_eq_true,decide_eq_true_eq] at hu
  obtain ⟨⟨v,rc⟩,hv⟩ := isSome_iff_exists.mp hu.1.2
  exact ⟨u,v,rc,hpath,hv,(supervision_records_iff hpath hx hd hu.2 hv).mpr hu.1.1⟩

def holdsActor (id : Nat) (vm : SupVm) : Bool :=
  match (vm.spec 1 0).bind ChildSpec.currentActor with
  | none => false
  | some c => ((vm.actors c).map SupActor.actorId) == some id

theorem holdsActor_inconsistent {id : Nat} {vm : SupVm} {args : List Oop}
    (h : holdsActor id vm = true) (hargs : failedId args = some id) :
    ¬ RecordsConsistent vm 1 args := by
  intro hcons
  unfold holdsActor at h
  split at h
  · cases h
  next c hc =>
  obtain ⟨sp,hsp,hc⟩ := bind_eq_some_iff.mp hc
  obtain ⟨x,hx,hid⟩ := map_eq_some_iff.mp (beq_iff_eq.mp h)
  exact hcons.gone id hargs 0 sp c x hsp hc hx hid

/-- The eleventh crash within ten seconds stays in the root supervisor's record. -/
theorem eleventh_crash_stays : ∃ u v rc,Path (supStep 0) idsLeft (bootVm 512) u ∧
      u.handleFailure 0 1 (childFailedArgs 13) (kindFate 14) = some (v,rc) ∧
      ¬ RecordsConsistent v 1 (childFailedArgs 13) := by
  have hrun : (runAll (supStep 0) idsLeft (crashes 10 ++ [.setState 13 .terminated])
      (bootVm 512)).map (fun u => (u.handleFailure 0 1 (childFailedArgs 13) (kindFate 14)).map
        (fun r => holdsActor 13 r.1)) = some (some true) := by decide +kernel
  obtain ⟨u,hpath,hu⟩ := runAll_map_path hrun
  obtain ⟨⟨v,rc⟩,hv,hholds⟩ := map_eq_some_iff.mp hu
  exact ⟨u,v,rc,hpath,hv,holdsActor_inconsistent hholds (by decide)⟩

end SmalltalkA
