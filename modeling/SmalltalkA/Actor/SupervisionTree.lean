import SmalltalkA.Actor.Supervisor

/-! The tree that the supervisors' records make up: what every call keeps of it, and which part
`sta_actor_terminate` takes down. -/

set_option autoImplicit false

namespace SmalltalkA

open SupVm List Option

/-! ## The tree -/

/-- The records, but for the `busy` ones of a call at work, lead to actors with the record's id that
point back to the supervisor and have their owner's reference. Children are younger than their
supervisor, and no two records share an actor or an id. -/
structure Wired (busy : List (Nat × Nat)) (vm : SupVm) : Prop where
  child : ∀ p i sp c,vm.spec p i = some sp → sp.currentActor = some c → (p,i) ∉ busy →
    ∃ x,vm.actors c = some x ∧ x.actorId = sp.currentActorId ∧ x.supervisor = some p ∧
      x.refcount = x.held + 1
  younger : ∀ p i sp x,vm.spec p i = some sp → sp.currentActor ≠ none → vm.actors p = some x →
    x.actorId < sp.currentActorId
  apart : ∀ p i q j sp sq c,vm.spec p i = some sp → vm.spec q j = some sq →
    sp.currentActor = some c → sq.currentActor = some c → (p,i) = (q,j)
  idsApart : ∀ p i q j sp sq,vm.spec p i = some sp → vm.spec q j = some sq →
    sp.currentActorId = sq.currentActorId → sp.currentActorId ≠ 0 → (p,i) = (q,j)
  specIds : ∀ p i sp,vm.spec p i = some sp → sp.currentActorId < vm.nextActorId
  ids : ∀ a x,vm.actors a = some x → 0 < x.actorId ∧ x.actorId < vm.nextActorId
  unique : ∀ a b x y,vm.actors a = some x → vm.actors b = some y → x.actorId = y.actorId → a = b
  registered : ∀ id a,vm.registry id = some a →
    ∃ x,vm.actors a = some x ∧ x.actorId = id ∧ x.refcount = x.held + 1
  counter : vm.nextActorId < 2 ^ 32
  started : 0 < vm.nextActorId
  counted : ∀ a x,vm.actors a = some x → x.held ≤ x.refcount

/-- Reached from `a` over records. -/
inductive Below (vm : SupVm) (a : Nat) : Nat → Prop where
  | self : Below vm a a
  | child {p i c : Nat} {sp : ChildSpec} : Below vm a p → vm.spec p i = some sp →
      sp.currentActor = some c → Below vm a c

def HeldKept (vm vm' : SupVm) : Prop :=
  ∀ a x,vm.actors a = some x → 0 < x.held →
    ∃ y,vm'.actors a = some y ∧ y.actorId = x.actorId ∧ y.held = x.held

/-- Only actors in `gone` have changed: they have lost pointers, registry entries, or are freed if
nobody holds them. -/
structure Torn (vm : SupVm) (gone : Nat → Prop) (vm' : SupVm) : Prop where
  kept : ∀ a,¬ gone a → vm'.actors a = vm.actors a
  left : ∀ a y,vm'.actors a = some y → ∃ x,vm.actors a = some x ∧ y.actorId = x.actorId
  specs : ∀ p i sq,vm'.spec p i = some sq → ∃ sp,vm.spec p i = some sp ∧
    (sq = sp ∨ sq.currentActor = none ∧
      (sq.currentActorId = sp.currentActorId ∨ sq.currentActorId = 0))
  registry : ∀ id,vm'.registry id = vm.registry id ∨ vm'.registry id = none ∧
    ∃ a x,gone a ∧ vm.actors a = some x ∧ x.actorId = id
  next : vm'.nextActorId = vm.nextActorId
  root : vm'.rootSupervisor = vm.rootSupervisor
  held : HeldKept vm vm'

/-! ### Access -/

section

variable {vm vm' : SupVm} {a b p i : Nat} {x : SupActor}

@[simp] theorem put_same (vm : SupVm) (a : Nat) (x : Option SupActor) :
    (vm.put a x).actors a = x := by
  simp [SupVm.put]

theorem put_put (vm : SupVm) (a : Nat) (x y : Option SupActor) :
    (vm.put a x).put a y = vm.put a y := by
  simp [SupVm.put]

theorem put_other (x : Option SupActor) (h : b ≠ a) : (vm.put a x).actors b = vm.actors b := by
  simp [SupVm.put,h]

theorem modify_some {f : SupActor → SupActor} (h : vm.modify a f = some vm') :
    ∃ x,vm.actors a = some x ∧ vm' = vm.put a (some (f x)) := by
  obtain ⟨x,hx,rfl⟩ := map_eq_some_iff.mp h
  exact ⟨x,hx,rfl⟩

theorem modify_of (h : vm.actors a = some x) (f : SupActor → SupActor) :
    vm.modify a f = some (vm.put a (some (f x))) := by
  simp [SupVm.modify,h]

theorem spec_of (h : vm.actors p = some x) (i : Nat) :
    vm.spec p i = x.supData.bind (fun d => d.children[i]?) := by
  simp [SupVm.spec,SupVm.data,h]

theorem spec_none (h : vm.actors p = none) (i : Nat) : vm.spec p i = none := by
  simp [SupVm.spec,SupVm.data,h]

theorem spec_congr (h : vm'.actors p = vm.actors p) (i : Nat) : vm'.spec p i = vm.spec p i := by
  simp [SupVm.spec,SupVm.data,h]

theorem spec_owner {sp : ChildSpec} (h : vm.spec p i = some sp) :
    ∃ x d,vm.actors p = some x ∧ x.supData = some d ∧ d.children[i]? = some sp := by
  obtain ⟨d,hd,hsp⟩ := bind_eq_some_iff.mp h
  obtain ⟨x,hx,hd⟩ := bind_eq_some_iff.mp hd
  exact ⟨x,d,hx,hd,hsp⟩

end

/-! ### Changes that keep the tree -/

/-- What a record's actor is known by, before and after a change. -/
structure SameChild (x y : SupActor) : Prop where
  actorId : y.actorId = x.actorId
  supervisor : y.supervisor = x.supervisor
  owned : x.refcount = x.held + 1 → y.refcount = y.held + 1
  counted : x.held ≤ x.refcount → y.held ≤ y.refcount

/-- An actor before and after a change that the tree does not depend on. -/
structure SameTree (x y : SupActor) : Prop extends SameChild x y where
  children : y.supData.map SupervisorData.children = x.supData.map SupervisorData.children

theorem SameChild.refl (x : SupActor) : SameChild x x := ⟨rfl,rfl,id,id⟩

theorem HeldKept.refl (vm : SupVm) : HeldKept vm vm := fun _ x hx _ => ⟨x,hx,rfl,rfl⟩

theorem HeldKept.trans {vm vm' vm'' : SupVm} (h : HeldKept vm vm') (h' : HeldKept vm' vm'') :
    HeldKept vm vm'' := by
  intro a x hx hheld
  obtain ⟨y,hy,hid,heq⟩ := h a x hx hheld
  obtain ⟨z,hz,hid',heq'⟩ := h' a y hy (heq ▸ hheld)
  exact ⟨z,hz,hid'.trans hid,heq'.trans heq⟩

section

variable {busy : List (Nat × Nat)} {vm vm' : SupVm} {a p i : Nat} {x y : SupActor}

theorem HeldKept.put (hx : vm.actors a = some x) (hid : y.actorId = x.actorId)
    (hheld : y.held = x.held) : HeldKept vm (vm.put a (some y)) := by
  intro b z hz _
  by_cases hb : b = a
  · subst hb
    cases hx.symm.trans hz
    exact ⟨y,put_same _ _ _,hid,hheld⟩
  · exact ⟨z,by rw [put_other _ hb]; exact hz,rfl,rfl⟩

theorem put_back (hx : vm.actors a = some x) (h : SameChild x y) {b : Nat} {z : SupActor}
    (hz : (vm.put a (some y)).actors b = some z) : ∃ w,vm.actors b = some w ∧ SameChild w z := by
  by_cases hb : b = a
  · subst hb
    obtain rfl : y = z := by simpa using hz
    exact ⟨x,hx,h⟩
  · rw [put_other _ hb] at hz
    exact ⟨z,hz,.refl z⟩

theorem put_forth (hx : vm.actors a = some x) (h : SameChild x y) {b : Nat} {w : SupActor}
    (hw : vm.actors b = some w) : ∃ z,(vm.put a (some y)).actors b = some z ∧ SameChild w z := by
  by_cases hb : b = a
  · subst hb
    obtain rfl : x = w := by simpa [hx] using hw
    exact ⟨y,put_same _ _ _,h⟩
  · exact ⟨w,by rw [put_other _ hb]; exact hw,.refl w⟩

theorem put_children_spec (hx : vm.actors a = some x)
    (hc : y.supData.map SupervisorData.children = x.supData.map SupervisorData.children)
    (p i : Nat) : (vm.put a (some y)).spec p i = vm.spec p i := by
  by_cases hp : p = a
  · subst hp
    rw [spec_of (put_same _ _ _),spec_of hx]
    cases hd : x.supData <;> cases he : y.supData <;> simp_all
  · exact spec_congr (put_other _ hp) i

theorem put_spec (hx : vm.actors a = some x) (h : SameTree x y) (p i : Nat) :
    (vm.put a (some y)).spec p i = vm.spec p i :=
  put_children_spec hx h.children p i

/-- Actors and records may go, as long as no record or entry leads to one that has gone. -/
theorem Wired.of_left {busy' : List (Nat × Nat)} (hw : Wired busy vm)
    (hleft : ∀ b z,vm'.actors b = some z → ∃ w,vm.actors b = some w ∧ z.actorId = w.actorId)
    (hspec : ∀ p i sp,vm'.spec p i = some sp → vm.spec p i = some sp)
    (hnext : vm'.nextActorId = vm.nextActorId)
    (hchild : ∀ p i sp c,vm.spec p i = some sp → sp.currentActor = some c → (p,i) ∉ busy' →
      ∃ z,vm'.actors c = some z ∧ z.actorId = sp.currentActorId ∧ z.supervisor = some p ∧
        z.refcount = z.held + 1)
    (hreg : ∀ id b,vm'.registry id = some b →
      ∃ z,vm'.actors b = some z ∧ z.actorId = id ∧ z.refcount = z.held + 1)
    (hcount : ∀ b z,vm'.actors b = some z → z.held ≤ z.refcount) : Wired busy' vm' where
  child p i sp c hsp := hchild p i sp c (hspec p i sp hsp)
  younger p i sp z hsp hc hz := by
    obtain ⟨w,hw',hid⟩ := hleft p z hz
    exact hid ▸ hw.younger p i sp w (hspec p i sp hsp) hc hw'
  apart p i q j sp sq c hsp hsq := hw.apart p i q j sp sq c (hspec p i sp hsp) (hspec q j sq hsq)
  idsApart p i q j sp sq hsp hsq := hw.idsApart p i q j sp sq (hspec p i sp hsp) (hspec q j sq hsq)
  specIds p i sp hsp := hnext ▸ hw.specIds p i sp (hspec p i sp hsp)
  ids b z hz := by
    obtain ⟨w,hw',hid⟩ := hleft b z hz
    rw [hnext,hid]
    exact hw.ids b w hw'
  unique b c z z' hz hz' hid := by
    obtain ⟨w,hw₁,hid₁⟩ := hleft b z hz
    obtain ⟨w',hw₂,hid₂⟩ := hleft c z' hz'
    exact hw.unique b c w w' hw₁ hw₂ (by rw [← hid₁,← hid₂,hid])
  registered := hreg
  counter := hnext ▸ hw.counter
  started := hnext ▸ hw.started
  counted := hcount

theorem Wired.put_actors (hw : Wired busy vm) (hx : vm.actors a = some x) (h : SameChild x y) :
    (∀ b z,(vm.put a (some y)).actors b = some z → 0 < z.actorId ∧ z.actorId < vm.nextActorId) ∧
    (∀ b c z z',(vm.put a (some y)).actors b = some z → (vm.put a (some y)).actors c = some z' →
      z.actorId = z'.actorId → b = c) ∧
    (∀ id b,vm.registry id = some b → ∃ z,(vm.put a (some y)).actors b = some z ∧
      z.actorId = id ∧ z.refcount = z.held + 1) ∧
    ∀ b z,(vm.put a (some y)).actors b = some z → z.held ≤ z.refcount := by
  refine ⟨?_,?_,?_,?_⟩
  · intro b z hz
    obtain ⟨w,hw',hs⟩ := put_back hx h hz
    exact hs.actorId ▸ hw.ids b w hw'
  · intro b c z z' hz hz' hid
    obtain ⟨w,hw₁,hs⟩ := put_back hx h hz
    obtain ⟨w',hw₂,hs'⟩ := put_back hx h hz'
    exact hw.unique b c w w' hw₁ hw₂ (by rw [← hs.actorId,← hs'.actorId,hid])
  · intro id b hreg
    obtain ⟨w,hw',hid,href⟩ := hw.registered id b hreg
    obtain ⟨z,hz,hs⟩ := put_forth hx h hw'
    exact ⟨z,hz,hs.actorId.trans hid,hs.owned href⟩
  · intro b z hz
    obtain ⟨w,hw',hs⟩ := put_back hx h hz
    exact hs.counted (hw.counted b w hw')

theorem Wired.put_sub (hw : Wired busy vm) (hx : vm.actors a = some x) (h : SameChild x y)
    (hspec : ∀ p i sp,(vm.put a (some y)).spec p i = some sp → vm.spec p i = some sp) :
    Wired busy (vm.put a (some y)) := by
  obtain ⟨-,-,hreg,hcount⟩ := hw.put_actors hx h
  refine hw.of_left (fun b z hz => ?_) hspec rfl (fun p i sp c hsp hc hb => ?_) hreg hcount
  · obtain ⟨w,hw',hs⟩ := put_back hx h hz
    exact ⟨w,hw',hs.actorId⟩
  · obtain ⟨w,hw',hid,hsup,href⟩ := hw.child p i sp c hsp hc hb
    obtain ⟨z,hz,hs⟩ := put_forth hx h hw'
    exact ⟨z,hz,hs.actorId.trans hid,hs.supervisor.trans hsup,hs.owned href⟩

theorem Wired.put (hw : Wired busy vm) (hx : vm.actors a = some x) (h : SameTree x y) :
    Wired busy (vm.put a (some y)) :=
  hw.put_sub hx h.toSameChild (fun p i _ hsp => (put_spec hx h p i).symm.trans hsp)

def SupActor.withSpec (x : SupActor) (i : Nat) (sp : ChildSpec) : SupActor :=
  { x with supData := x.supData.map (fun d => { d with children := d.children.set i sp }) }

theorem withSpec_same (x : SupActor) (i : Nat) (sp : ChildSpec) : SameChild x (x.withSpec i sp) :=
  ⟨rfl,rfl,id,id⟩

theorem setSpec_of (hx : vm.actors p = some x) (i : Nat) (sp : ChildSpec) :
    vm.setSpec p i sp = some (vm.put p (some (x.withSpec i sp))) :=
  modify_of hx _

theorem withSpec_spec {old sp : ChildSpec} (hx : vm.actors p = some x)
    (hold : vm.spec p i = some old) (q j : Nat) :
    (vm.put p (some (x.withSpec i sp))).spec q j =
      if (q,j) = (p,i) then some sp else vm.spec q j := by
  obtain ⟨x',d,hx',hd,hi⟩ := spec_owner hold
  obtain rfl : x = x' := by simpa [hx] using hx'
  have hlt := (List.getElem?_eq_some_iff.mp hi).1
  by_cases hq : q = p
  · subst hq
    rw [spec_of (put_same _ _ _),spec_of hx]
    by_cases hj : j = i
    · subst hj
      simp [SupActor.withSpec,hd,hlt]
    · simp [SupActor.withSpec,hd,hj,Ne.symm hj]
  · rw [spec_congr (put_other _ hq),if_neg (fun h => hq (congrArg Prod.fst h))]

/-- A record may get another actor, or none. -/
theorem Wired.setSpec {old sp : ChildSpec} (hw : Wired ((p,i) :: busy) vm)
    (hx : vm.actors p = some x) (hold : vm.spec p i = some old)
    (hchild : ∀ c,sp.currentActor = some c → ∃ y,vm.actors c = some y ∧
      y.actorId = sp.currentActorId ∧ y.supervisor = some p ∧ y.refcount = y.held + 1)
    (hyounger : sp.currentActor ≠ none → x.actorId < sp.currentActorId)
    (hapart : ∀ c q j sq,sp.currentActor = some c → vm.spec q j = some sq →
      sq.currentActor = some c → (q,j) = (p,i))
    (hids : sp.currentActorId ≠ 0 → ∀ q j sq,vm.spec q j = some sq →
      sq.currentActorId = sp.currentActorId → (q,j) = (p,i))
    (hlt : sp.currentActorId < vm.nextActorId) :
    Wired busy (vm.put p (some (x.withSpec i sp))) := by
  have hspec := @withSpec_spec vm p i x old sp hx hold
  have hsame := withSpec_same x i sp
  obtain ⟨hactors,hunique,hreg,hcount⟩ := hw.put_actors hx hsame
  -- a record is the new one, or it was there before
  have hcases : ∀ {q j sq},(vm.put p (some (x.withSpec i sp))).spec q j = some sq →
      (q,j) = (p,i) ∧ sq = sp ∨ (q,j) ≠ (p,i) ∧ vm.spec q j = some sq := by
    intro q j sq h
    rw [hspec] at h
    split at h
    · exact .inl ⟨‹_›,(Option.some.inj h).symm⟩
    · exact .inr ⟨‹_›,h⟩
  refine ⟨?_,?_,?_,?_,?_,hactors,hunique,hreg,hw.counter,hw.started,hcount⟩
  · intro q j sq c hsq hc hb
    have hfound : ∃ y,vm.actors c = some y ∧ y.actorId = sq.currentActorId ∧
        y.supervisor = some q ∧ y.refcount = y.held + 1 := by
      rcases hcases hsq with ⟨heq,rfl⟩ | ⟨hne,hsq⟩
      · cases heq
        exact hchild c hc
      · exact hw.child q j sq c hsq hc (by simpa using ⟨fun h h' => hne (by rw [h,h']),hb⟩)
    obtain ⟨y,hy,hid,hsup,href⟩ := hfound
    obtain ⟨z,hz,hs⟩ := put_forth hx hsame hy
    exact ⟨z,hz,hs.actorId.trans hid,hs.supervisor.trans hsup,hs.owned href⟩
  · intro q j sq z hsq hc hz
    obtain ⟨w,hw',hs⟩ := put_back hx hsame hz
    rcases hcases hsq with ⟨heq,rfl⟩ | ⟨-,hsq⟩
    · cases heq
      obtain rfl : x = w := by simpa [hx] using hw'
      exact hs.actorId ▸ hyounger hc
    · exact hs.actorId ▸ hw.younger q j sq w hsq hc hw'
  · intro q j q' j' sq sq' c hsq hsq' hc hc'
    rcases hcases hsq with ⟨heq,rfl⟩ | ⟨hne,hbefore⟩
    · rcases hcases hsq' with ⟨heq',-⟩ | ⟨-,hbefore'⟩
      · rw [heq,heq']
      · rw [heq,hapart c q' j' sq' hc hbefore' hc']
    · rcases hcases hsq' with ⟨heq',rfl⟩ | ⟨-,hbefore'⟩
      · exact absurd (hapart c q j sq hc' hbefore hc) hne
      · exact hw.apart q j q' j' sq sq' c hbefore hbefore' hc hc'
  · intro q j q' j' sq sq' hsq hsq' hid hid0
    rcases hcases hsq with ⟨heq,rfl⟩ | ⟨hne,hbefore⟩
    · rcases hcases hsq' with ⟨heq',-⟩ | ⟨-,hbefore'⟩
      · rw [heq,heq']
      · rw [heq,hids hid0 q' j' sq' hbefore' hid.symm]
    · rcases hcases hsq' with ⟨heq',rfl⟩ | ⟨-,hbefore'⟩
      · exact absurd (hids (hid ▸ hid0) q j sq hbefore hid) hne
      · exact hw.idsApart q j q' j' sq sq' hbefore hbefore' hid hid0
  · intro q j sq hsq
    rcases hcases hsq with ⟨-,rfl⟩ | ⟨-,hsq⟩
    · exact hlt
    · exact hw.specIds q j sq hsq

theorem Wired.clear {old sp : ChildSpec} (hw : Wired ((p,i) :: busy) vm)
    (hx : vm.actors p = some x) (hold : vm.spec p i = some old) (hnone : sp.currentActor = none)
    (hid : sp.currentActorId = old.currentActorId ∨ sp.currentActorId = 0) :
    Wired busy (vm.put p (some (x.withSpec i sp))) := by
  have hlt := hw.specIds p i old hold
  refine hw.setSpec hx hold (by simp [hnone]) (fun h => absurd hnone h) (by simp [hnone]) ?_ ?_
  · intro h0 q j sq hsq heq
    have hold' : sp.currentActorId = old.currentActorId := hid.resolve_right h0
    exact hw.idsApart q j p i sq old hsq hold (heq.trans hold') (heq ▸ h0)
  · rcases hid with hid | hid <;> omega

theorem Wired.unregister (hw : Wired busy vm) (id : Nat) : Wired busy (vm.unregister id) := by
  unfold SupVm.unregister
  split
  · refine ⟨hw.child,hw.younger,hw.apart,hw.idsApart,hw.specIds,hw.ids,hw.unique,?_,hw.counter,
      hw.started,hw.counted⟩
    intro id' b hreg
    by_cases h : id' = id
    · subst h
      simp at hreg
    · exact hw.registered id' b (by simpa [h] using hreg)
  · exact hw

theorem Wired.weaken (hw : Wired busy vm) (e : Nat × Nat) : Wired (e :: busy) vm := { hw with
    child := fun p i sp c hsp hc hb => hw.child p i sp c hsp hc (fun h => hb (.tail _ h)) }

end

/-! ## Termination -/

section

variable {busy : List (Nat × Nat)} {vm vm' vm'' : SupVm} {a c p i : Nat} {x y : SupActor}

/-- The records that a call works on belong to actors older than `x`. -/
def OlderThan (vm : SupVm) (busy : List (Nat × Nat)) (x : SupActor) : Prop :=
  ∀ e ∈ busy,∀ z,vm.actors e.1 = some z → z.actorId < x.actorId

theorem Below.id_le (hw : Wired busy vm) (hx : vm.actors a = some x) (h : Below vm a c)
    (hc : vm.actors c = some y) (hbusy : OlderThan vm busy x) : x.actorId ≤ y.actorId := by
  induction h generalizing y with
  | self =>
    have hxy : x = y := Option.some.inj (hx.symm.trans hc)
    exact hxy ▸ Nat.le_refl _
  | @child p i c sp hp hsp hsc ih =>
    obtain ⟨z,d,hz,-,-⟩ := spec_owner hsp
    have hle := ih hz
    have hfree : (p,i) ∉ busy := fun h => Nat.not_le.mpr (hbusy _ h z hz) hle
    obtain ⟨w,hw',hid,-,-⟩ := hw.child p i sp c hsp hsc hfree
    cases hw'.symm.trans hc
    have hyoung := hw.younger p i sp z hsp (by simp [hsc]) hz
    exact hid ▸ Nat.le_of_lt (Nat.lt_of_le_of_lt hle hyoung)

theorem Torn.refl (vm : SupVm) (gone : Nat → Prop) : Torn vm gone vm :=
  ⟨fun _ _ => rfl,fun _ y hy => ⟨y,hy,rfl⟩,fun _ _ sq h => ⟨sq,h,.inl rfl⟩,fun _ => .inl rfl,rfl,rfl,
    .refl vm⟩

theorem Torn.mono {gone gone' : Nat → Prop} (h : Torn vm gone vm') (hg : ∀ a,gone a → gone' a) :
    Torn vm gone' vm' :=
  { h with
    kept := fun a ha => h.kept a (fun hgone => ha (hg a hgone))
    registry := fun id => (h.registry id).imp_right
      (fun ⟨hnone,a,x,ha,hx,hid⟩ => ⟨hnone,a,x,hg a ha,hx,hid⟩) }

theorem Torn.trans {gone : Nat → Prop} (h : Torn vm gone vm') (h' : Torn vm' gone vm'') :
    Torn vm gone vm'' := by
  refine ⟨?_,?_,?_,?_,h'.next.trans h.next,h'.root.trans h.root,h.held.trans h'.held⟩
  · intro a ha
    rw [h'.kept a ha,h.kept a ha]
  · intro a z hz
    obtain ⟨y,hy,hid'⟩ := h'.left a z hz
    obtain ⟨x,hx,hid⟩ := h.left a y hy
    exact ⟨x,hx,hid'.trans hid⟩
  · intro p i sr hsr
    obtain ⟨sq,hsq,hr⟩ := h'.specs p i sr hsr
    obtain ⟨sp,hsp,hq⟩ := h.specs p i sq hsq
    refine ⟨sp,hsp,?_⟩
    rcases hr with rfl | ⟨hnone,hid⟩
    · exact hq
    · right
      refine ⟨hnone,?_⟩
      rcases hq with rfl | ⟨-,hid'⟩
      · exact hid
      · rcases hid with hid | hid
        · rcases hid' with hid' | hid'
          · exact .inl (hid.trans hid')
          · exact .inr (hid.trans hid')
        · exact .inr hid
  · intro id
    rcases h'.registry id with heq | ⟨hnone,a,y,ha,hy,hid⟩
    · rw [heq]
      exact h.registry id
    · obtain ⟨x,hx,hid'⟩ := h.left a y hy
      exact .inr ⟨hnone,a,x,ha,hx,hid' ▸ hid⟩

theorem Torn.below {gone : Nat → Prop} (h : Torn vm gone vm') (hb : Below vm' a c) :
    Below vm a c := by
  induction hb with
  | self => exact .self
  | @child p i c sq _ hsq hc ih =>
    obtain ⟨sp,hsp,hcase⟩ := h.specs p i sq hsq
    rcases hcase with rfl | ⟨hnone,-⟩
    · exact ih.child hsp hc
    · rw [hnone] at hc
      cases hc

theorem Torn.put {gone : Nat → Prop} (hx : vm.actors a = some x) (ha : gone a)
    (hid : y.actorId = x.actorId) (hheld : y.held = x.held)
    (hchildren : y.supData.map SupervisorData.children = x.supData.map SupervisorData.children) :
    Torn vm gone (vm.put a (some y)) := by
  refine ⟨?_,?_,fun p i sq h => ⟨sq,put_children_spec hx hchildren p i ▸ h,.inl rfl⟩,fun _ => .inl rfl,rfl,rfl,
    .put hx hid hheld⟩
  · intro b hb
    exact put_other _ (fun h => hb (h ▸ ha))
  · intro b z hz
    by_cases hb : b = a
    · subst hb
      obtain rfl : y = z := by simpa using hz
      exact ⟨x,hx,hid⟩
    · rw [put_other _ hb] at hz
      exact ⟨z,hz,rfl⟩

theorem Torn.free {gone : Nat → Prop} (hx : vm.actors a = some x) (ha : gone a)
    (hheld : x.held = 0) : Torn vm gone (vm.put a none) := by
  refine ⟨?_,?_,?_,fun _ => .inl rfl,rfl,rfl,?_⟩
  · intro b hb
    exact put_other _ (fun h => hb (h ▸ ha))
  · intro b z hz
    by_cases hb : b = a
    · subst hb
      simp at hz
    · rw [put_other _ hb] at hz
      exact ⟨z,hz,rfl⟩
  · intro p i sq hsq
    by_cases hp : p = a
    · subst hp
      rw [spec_none (put_same _ _ _)] at hsq
      cases hsq
    · exact ⟨sq,spec_congr (put_other _ hp) i ▸ hsq,.inl rfl⟩
  · intro b z hz hb
    have hne : b ≠ a := by
      rintro rfl
      cases hx.symm.trans hz
      omega
    exact ⟨z,by rw [put_other _ hne]; exact hz,rfl,rfl⟩

theorem Torn.unregister {gone : Nat → Prop} (hx : vm.actors a = some x) (ha : gone a) :
    Torn vm gone (vm.unregister x.actorId) := by
  unfold SupVm.unregister
  split
  · refine ⟨fun _ _ => rfl,fun _ y hy => ⟨y,hy,rfl⟩,fun _ _ sq h => ⟨sq,h,.inl rfl⟩,?_,rfl,rfl,
      .refl vm⟩
    intro id
    by_cases h : id = x.actorId
    · subst h
      exact .inr ⟨by simp,a,x,ha,hx,rfl⟩
    · exact .inl (by simp [h])
  · exact .refl _ _

variable {sp : ChildSpec} {t : SupVm → Nat → Option SupVm}

theorem Torn.clear {gone : Nat → Prop} {old : ChildSpec} (hx : vm.actors p = some x) (hp : gone p)
    (hold : vm.spec p i = some old) (hnone : sp.currentActor = none)
    (hid : sp.currentActorId = old.currentActorId ∨ sp.currentActorId = 0) :
    Torn vm gone (vm.put p (some (x.withSpec i sp))) := by
  refine ⟨?_,?_,?_,fun _ => .inl rfl,rfl,rfl,.put hx rfl rfl⟩
  · intro b hb
    exact put_other _ (fun h => hb (h ▸ hp))
  · intro b z hz
    obtain ⟨w,hw,hs⟩ := put_back hx (withSpec_same x i sp) hz
    exact ⟨w,hw,hs.actorId⟩
  · intro q j sq hsq
    rw [withSpec_spec hx hold] at hsq
    split at hsq
    · next heq =>
      cases heq
      cases hsq
      exact ⟨old,hold,.inr ⟨hnone,hid⟩⟩
    · exact ⟨sq,hsq,.inl rfl⟩

/-- What a termination of `a` does, if only `busy` records of older actors lead to `a`. -/
def Terminates (t : SupVm → Nat → Option SupVm) (vm : SupVm) (a : Nat) : Prop :=
  ∀ busy x,Wired busy vm → vm.actors a = some x → x.refcount = x.held + 1 →
    OlderThan vm busy x →
    (∀ p i sp,vm.spec p i = some sp → sp.currentActor = some a → (p,i) ∈ busy) →
    ∃ vm',t vm a = some vm' ∧ Wired busy vm' ∧ Torn vm (Below vm a) vm'

/-- The first `n` records of `p` have lost their actors. -/
structure Dropped (forget : Bool) (vm : SupVm) (p n : Nat) (vm' : SupVm) : Prop where
  torn : Torn vm (Below vm p) vm'
  actor : ∀ x,vm.actors p = some x → ∃ y,vm'.actors p = some y ∧ y.actorId = x.actorId ∧
    y.supervisor = x.supervisor ∧ y.refcount = x.refcount ∧ y.held = x.held
  others : ∀ j,n ≤ j → vm'.spec p j = vm.spec p j
  record : ∀ j sp,j < n → vm.spec p j = some sp → ∃ sq,vm'.spec p j = some sq ∧
    sq.currentActor = none ∧
    sq.currentActorId = if forget = true ∧ sp.currentActor ≠ none then 0 else sp.currentActorId

theorem Below.trans {b : Nat} (h : Below vm a b) (h' : Below vm b c) : Below vm a c := by
  induction h' with
  | self => exact h
  | child _ hsp hc ih => exact ih.child hsp hc

/-- Detaching a child concerns its own record only. -/
theorem Wired.detach (hw : Wired busy vm) (hsp : vm.spec p i = some sp)
    (hc : sp.currentActor = some c) (hx : vm.actors c = some x) :
    Wired ((p,i) :: busy) (vm.put c (some { x with supervisor := none })) := by
  have hspec := put_children_spec (y := { x with supervisor := none }) hx rfl
  -- but for the pointer the actor is what it was
  have hback : ∀ b z,(vm.put c (some { x with supervisor := none })).actors b = some z →
      ∃ w,vm.actors b = some w ∧ z.actorId = w.actorId ∧ z.refcount = w.refcount ∧
        z.held = w.held := by
    intro b z hz
    by_cases hb : b = c
    · subst hb
      obtain rfl : { x with supervisor := none } = z := by simpa using hz
      exact ⟨x,hx,rfl,rfl,rfl⟩
    · rw [put_other _ hb] at hz
      exact ⟨z,hz,rfl,rfl,rfl⟩
  refine hw.of_left (fun b z hz => ?_) (fun q j _ hsq => hspec q j ▸ hsq) rfl
    (fun q j sq d hsq hd hb => ?_) (fun id b hreg => ?_) (fun b z hz => ?_)
  · obtain ⟨w,hw',hid,-⟩ := hback b z hz
    exact ⟨w,hw',hid⟩
  · simp only [mem_cons,not_or] at hb
    have hne : d ≠ c := by
      rintro rfl
      exact hb.1 (hw.apart q j p i sq sp d hsq hsp hd hc)
    obtain ⟨w,hw',h⟩ := hw.child q j sq d hsq hd hb.2
    exact ⟨w,by rw [put_other _ hne]; exact hw',h⟩
  · obtain ⟨w,hw',hid,href⟩ := hw.registered id b hreg
    by_cases hb : b = c
    · subst hb
      cases hx.symm.trans hw'
      exact ⟨_,put_same _ _ _,hid,href⟩
    · exact ⟨w,by rw [put_other _ hb]; exact hw',hid,href⟩
  · obtain ⟨w,hw',-,href,hheld⟩ := hback b z hz
    rw [href,hheld]
    exact hw.counted b w hw'

/-- The child of a record is terminated, detached before or not. -/
theorem terminateChild_spec (forget : Bool) (hw : Wired busy vm) (hx : vm.actors p = some x)
    (hold : OlderThan vm busy x) (ht : ∀ v y,v.actors c = some y → x.actorId < y.actorId →
      v.nextActorId = vm.nextActorId → Terminates t v c) (hsp : vm.spec p i = some sp)
    (hc : sp.currentActor = some c) :
    ∃ vm',((if forget then vm.detach c else some vm) >>= fun v => t v c) = some vm' ∧
      Wired ((p,i) :: busy) vm' ∧ Torn vm (Below vm c) vm' ∧ vm'.actors p = some x := by
  have hfree : (p,i) ∉ busy := fun h => Nat.lt_irrefl _ (hold _ h x hx)
  obtain ⟨y,hy,hid,-,href⟩ := hw.child p i sp c hsp hc hfree
  have hyoung : x.actorId < y.actorId := hid ▸ hw.younger p i sp x hsp (by simp [hc]) hx
  have hne : p ≠ c := by
    rintro rfl
    rw [Option.some.inj (hx.symm.trans hy)] at hyoung
    exact Nat.lt_irrefl _ hyoung
  -- the state in which the child is terminated
  obtain ⟨v,hv,hwv,htorn,hvp,⟨z,hvc,hzid,hzref⟩⟩ : ∃ v,
      (if forget then vm.detach c else some vm) = some v ∧ Wired ((p,i) :: busy) v ∧
      Torn vm (fun b => b = c) v ∧ v.actors p = some x ∧
      ∃ z,v.actors c = some z ∧ z.actorId = y.actorId ∧ z.refcount = z.held + 1 := by
    cases forget with
    | false => exact ⟨vm,rfl,hw.weaken _,.refl _ _,hx,y,hy,rfl,href⟩
    | true =>
      refine ⟨_,modify_of hy _,hw.detach hsp hc hy,.put hy rfl rfl rfl rfl,?_,_,put_same _ _ _,rfl,href⟩
      rw [put_other _ hne]
      exact hx
  have holdv : OlderThan v ((p,i) :: busy) z := by
    intro e he w hw'
    rw [hzid]
    rcases mem_cons.mp he with rfl | he
    · cases hvp.symm.trans hw'
      exact hyoung
    · obtain ⟨w₀,hw₀,hidw⟩ := htorn.left _ w hw'
      exact hidw ▸ Nat.lt_trans (hold e he w₀ hw₀) hyoung
  have honly : ∀ q j sq,v.spec q j = some sq → sq.currentActor = some c →
      (q,j) ∈ (p,i) :: busy := by
    intro q j sq hsq hq
    obtain ⟨sr,hsr,hcase⟩ := htorn.specs q j sq hsq
    rcases hcase with rfl | ⟨hnone,-⟩
    · exact mem_cons.mpr (.inl (hw.apart q j p i sq sp c hsr hsp hq hc))
    · rw [hnone] at hq
      cases hq
  obtain ⟨vm',hvm',hw',htorn'⟩ :=
    ht v z hvc (hzid ▸ hyoung) htorn.next ((p,i) :: busy) z hwv hvc hzref holdv honly
  have hnot : ¬ Below v c p := by
    intro hb
    have hle := hb.id_le hwv hvc hvp holdv
    omega
  refine ⟨vm',by simp [hv,hvm'],hw',?_,?_⟩
  · exact (htorn.mono (fun b hb => hb ▸ .self)).trans (htorn'.mono fun b hb => htorn.below hb)
  · rw [htorn'.kept p hnot]
    exact hvp

theorem dropChild_spec (forget : Bool) (hw : Wired busy vm) (hx : vm.actors p = some x)
    (hold : OlderThan vm busy x) (ht : ∀ c v y,v.actors c = some y → x.actorId < y.actorId →
      v.nextActorId = vm.nextActorId → Terminates t v c) (hsp : vm.spec p i = some sp) :
    ∃ vm' y,dropChild t forget p vm i = some vm' ∧ Wired busy vm' ∧ Torn vm (Below vm p) vm' ∧
      vm'.actors p = some y ∧ y.actorId = x.actorId ∧ y.supervisor = x.supervisor ∧
      y.refcount = x.refcount ∧ y.held = x.held ∧ (∀ j,j ≠ i → vm'.spec p j = vm.spec p j) ∧
      ∃ sq,vm'.spec p i = some sq ∧ sq.currentActor = none ∧ sq.currentActorId =
        if forget = true ∧ sp.currentActor ≠ none then 0 else sp.currentActorId := by
  unfold dropChild
  simp only [hsp,bind_eq_bind,bind_some]
  cases hc : sp.currentActor with
  | none => exact ⟨vm,x,rfl,hw,.refl _ _,hx,rfl,rfl,rfl,rfl,fun _ _ => rfl,sp,hsp,hc,by simp⟩
  | some c =>
    obtain ⟨v,hv,hwv,htorn,hvp⟩ := terminateChild_spec forget hw hx hold (ht c) hsp hc
    obtain ⟨v₀,hv₀,hv⟩ := bind_eq_some_iff.mp hv
    have hvsp : v.spec p i = some sp := (spec_congr (hvp.trans hx.symm) i).trans hsp
    have hid : (if forget then 0 else sp.currentActorId) = sp.currentActorId ∨
        (if forget then 0 else sp.currentActorId) = 0 := by
      cases forget <;> simp
    simp only [hv₀,hv,bind_some,setSpec_of hvp]
    refine ⟨_,_,rfl,hwv.clear hvp hvsp rfl hid,?_,put_same _ _ _,rfl,rfl,rfl,rfl,?_,?_⟩
    · have hbelow : Below vm p c := Below.self.child hsp hc
      exact (htorn.mono fun b hb => hbelow.trans hb).trans (Torn.clear hvp .self hvsp rfl hid)
    · intro j hj
      rw [withSpec_spec hvp hvsp,if_neg (fun h => hj (congrArg Prod.snd h))]
      exact spec_congr (hvp.trans hx.symm) j
    · refine ⟨_,(withSpec_spec hvp hvsp p i).trans (if_pos rfl),rfl,?_⟩
      cases forget <;> simp

theorem dropChildren_spec (forget : Bool) (n : Nat) (hw : Wired busy vm) (hx : vm.actors p = some x)
    (hold : OlderThan vm busy x) (ht : ∀ c v y,v.actors c = some y → x.actorId < y.actorId →
      v.nextActorId = vm.nextActorId → Terminates t v c) (hn : ∀ i < n,(vm.spec p i).isSome) :
    ∃ vm',dropChildren t forget p n vm = some vm' ∧ Wired busy vm' ∧ Dropped forget vm p n vm' := by
  induction n with
  | zero =>
    exact ⟨vm,rfl,hw,.refl _ _,fun x hx => ⟨x,hx,rfl,rfl,rfl,rfl⟩,fun _ _ => rfl,
      fun _ _ h => absurd h (Nat.not_lt_zero _)⟩
  | succ n ih =>
    obtain ⟨v,hv,hwv,hdrop⟩ := ih (fun i hi => hn i (Nat.lt_succ_of_lt hi))
    obtain ⟨y,hy,hid,hsup,href,hheld⟩ := hdrop.actor x hx
    obtain ⟨sp,hsp⟩ := isSome_iff_exists.mp (hn n (Nat.lt_succ_self n))
    have hspv : v.spec p n = some sp := (hdrop.others n (Nat.le_refl n)).trans hsp
    have holdv : OlderThan v busy y := by
      intro e he w hw'
      obtain ⟨w₀,hw₀,hidw⟩ := hdrop.torn.left _ w hw'
      rw [hidw,hid]
      exact hold e he w₀ hw₀
    have htv : ∀ c v' z,v'.actors c = some z → y.actorId < z.actorId →
        v'.nextActorId = v.nextActorId → Terminates t v' c := by
      intro c v' z hz hlt hnext
      exact ht c v' z hz (hid ▸ hlt) (hnext.trans hdrop.torn.next)
    obtain ⟨v',z,hv',hwv',htorn,hz,hidz,hsupz,hrefz,hheldz,hothers,sq,hsq,hnone,hsqid⟩ :=
      dropChild_spec forget hwv hy holdv htv hspv
    refine ⟨v',?_,hwv',?_,?_,?_,?_⟩
    · rw [dropChildren,range_succ,foldlM_append]
      rw [dropChildren] at hv
      simp [hv,hv']
    · exact hdrop.torn.trans (htorn.mono fun b hb => hdrop.torn.below hb)
    · intro w hw'
      cases hx.symm.trans hw'
      exact ⟨z,hz,hidz.trans hid,hsupz.trans hsup,hrefz.trans href,hheldz.trans hheld⟩
    · intro j hj
      rw [hothers j (by omega),hdrop.others j (by omega)]
    · intro j sp' hj hsp'
      by_cases hjn : j = n
      · subst hjn
        cases hsp.symm.trans hsp'
        exact ⟨sq,hsq,hnone,hsqid⟩
      · rw [hothers j hjn]
        exact hdrop.record j sp' (by omega) hsp'

theorem Below.congr (hspec : ∀ p i,vm'.spec p i = vm.spec p i) : Below vm' a c ↔ Below vm a c := by
  constructor
  · intro h
    induction h with
    | self => exact .self
    | @child p i c sp _ hsp hc ih => exact ih.child (hspec p i ▸ hsp) hc
  · intro h
    induction h with
    | self => exact .self
    | @child p i c sp _ hsp hc ih => exact ih.child ((hspec p i).trans hsp) hc

/-- The actor itself goes last, when only `busy` records and no entry lead to it. -/
theorem Wired.release (hw : Wired busy vm) (hx : vm.actors a = some x)
    (honly : ∀ p i sp,vm.spec p i = some sp → sp.currentActor = some a → (p,i) ∈ busy)
    (hreg : ∀ id,vm.registry id ≠ some a) (hcount : x.held < x.refcount) :
    ∃ vm',vm.release a = some vm' ∧ Wired busy vm' ∧ Torn vm (fun b => b = a) vm' := by
  -- whether it is freed or only loses a reference
  obtain ⟨vm',hvm',htorn⟩ : ∃ vm',vm.release a = some vm' ∧ Torn vm (fun b => b = a) vm' := by
    unfold SupVm.release
    rw [hx,map_some]
    split
    · exact ⟨_,rfl,.free hx rfl (by omega)⟩
    · exact ⟨_,rfl,.put hx rfl rfl rfl rfl⟩
  have hregistry : vm'.registry = vm.registry := by
    unfold SupVm.release at hvm'
    rw [hx,map_some] at hvm'
    split at hvm' <;> · cases hvm'; rfl
  have hspec : ∀ p i sq,vm'.spec p i = some sq → vm.spec p i = some sq := by
    intro p i sq hsq
    by_cases hp : p = a
    · subst hp
      unfold SupVm.release at hvm'
      rw [hx,map_some] at hvm'
      split at hvm'
      · cases hvm'
        rw [spec_none (put_same _ _ _)] at hsq
        cases hsq
      · cases hvm'
        rw [spec_of (put_same _ _ _)] at hsq
        rw [spec_of hx]
        exact hsq
    · rw [spec_congr (htorn.kept p hp)] at hsq
      exact hsq
  have hother : ∀ {b w},b ≠ a → vm.actors b = some w → vm'.actors b = some w :=
    fun hb h => (htorn.kept _ hb).trans h
  refine ⟨vm',hvm',hw.of_left htorn.left hspec htorn.next (fun p i sp c hsp hc hb => ?_)
    (fun id b hb => ?_) (fun b z hz => ?_),htorn⟩
  · have hca : c ≠ a := by
      rintro rfl
      exact hb (honly p i sp hsp hc)
    obtain ⟨w,hw',h⟩ := hw.child p i sp c hsp hc hb
    exact ⟨w,hother hca hw',h⟩
  · rw [hregistry] at hb
    obtain ⟨w,hw',h⟩ := hw.registered id b hb
    exact ⟨w,hother (fun hba => hreg id (hba ▸ hb)) hw',h⟩
  · by_cases hb : b = a
    · subst hb
      unfold SupVm.release at hvm'
      rw [hx,map_some] at hvm'
      split at hvm'
      · cases hvm'
        simp at hz
      · cases hvm'
        cases (put_same _ _ _).symm.trans hz
        exact Nat.le_sub_one_of_lt hcount
    · exact hw.counted b z ((htorn.kept b hb).symm.trans hz)

theorem Wired.registrable (hw : Wired busy vm) (hx : vm.actors a = some x) :
    SupVm.registrable x.actorId = true := by
  have hid := hw.ids a x hx
  have hcounter := hw.counter
  simp only [SupVm.registrable,ne_eq,decide_not,Bool.and_eq_true,Bool.not_eq_true',
    decide_eq_false_iff_not]
  omega

/-- `sta_actor_terminate` returns, and takes down the tree below the actor and nothing else. -/
theorem terminate_spec (fuel : Nat) (vm : SupVm) (a : Nat)
    (hfuel : ∀ x,vm.actors a = some x → vm.nextActorId ≤ fuel + x.actorId) :
    Terminates (terminate fuel) vm a := by
  induction fuel generalizing vm a with
  | zero =>
    intro busy x hw hx
    have := hfuel x hx
    have := (hw.ids a x hx).2
    omega
  | succ fuel ih =>
    intro busy x hw hx href hold honly
    have hlt := (hw.ids a x hx).2
    -- the state is set and the entry removed
    let y := { x with state := ActorState.terminated }
    have halike : SameTree x y := ⟨⟨rfl,rfl,id,id⟩,rfl⟩
    let v := (vm.put a (some y)).unregister x.actorId
    have hv : v = { vm.put a (some y) with
        registry := Function.update vm.registry x.actorId none } := by
      simp only [v,SupVm.unregister,hw.registrable hx,if_true]
      rfl
    have hvactors : v.actors = (vm.put a (some y)).actors := by rw [hv]
    have hvspec : ∀ p i,v.spec p i = vm.spec p i := by
      intro p i
      rw [← put_spec hx halike p i]
      exact spec_congr (congrFun hvactors p) i
    have hva : v.actors a = some y := by rw [hvactors]; exact put_same _ _ _
    have hwv : Wired busy v := (hw.put hx halike).unregister _
    have htorny : Torn vm (Below vm a) (vm.put a (some y)) := .put hx .self rfl rfl rfl
    have hentry : Torn (vm.put a (some y)) (Below vm a) ((vm.put a (some y)).unregister y.actorId) :=
      .unregister (put_same _ _ _) Below.self
    have htornv : Torn vm (Below vm a) v := htorny.trans hentry
    have hvreg : ∀ id,v.registry id ≠ some a := by
      intro id hid
      obtain ⟨z,hz,hzid,-⟩ := hwv.registered id a hid
      cases hva.symm.trans hz
      rw [hv] at hid
      simp [← hzid,y] at hid
    have holdv : OlderThan v busy y := by
      intro e he w hw'
      obtain ⟨w₀,hw₀,hid⟩ := htornv.left _ w hw'
      exact hid ▸ hold e he w₀ hw₀
    -- the children
    obtain ⟨v',hv',hwv',htorn,⟨z,hz,hzref⟩⟩ : ∃ v',x.supData.elim (some v)
          (fun d => dropChildren (terminate fuel) false a d.children.length v) = some v' ∧
        Wired busy v' ∧ Torn v (Below v a) v' ∧
        ∃ z,v'.actors a = some z ∧ z.refcount = z.held + 1 := by
      cases hd : x.supData with
      | none => exact ⟨v,rfl,hwv,.refl _ _,y,hva,href⟩
      | some d =>
        have ht : ∀ c u z,u.actors c = some z → y.actorId < z.actorId →
            u.nextActorId = v.nextActorId → Terminates (terminate fuel) u c := by
          intro c u z hz hlt' hnext
          refine ih u c (fun w hw' => ?_)
          cases hz.symm.trans hw'
          have := hfuel x hx
          have hnextv : v.nextActorId = vm.nextActorId := htornv.next
          have hyid : y.actorId = x.actorId := rfl
          omega
        have hn : ∀ i < d.children.length,(v.spec a i).isSome := by
          intro i hi
          rw [spec_of hva]
          simp [y,hd,hi]
        obtain ⟨v',hv',hwv',hdrop⟩ := dropChildren_spec false _ hwv hva holdv ht hn
        obtain ⟨z,hz,-,-,hrefz,hheldz⟩ := hdrop.actor y hva
        exact ⟨v',hv',hwv',hdrop.torn,z,hz,by rw [hrefz,hheldz]; exact href⟩
    -- the release
    have honly' : ∀ p i sp,v'.spec p i = some sp → sp.currentActor = some a → (p,i) ∈ busy := by
      intro p i sq hsq hc
      obtain ⟨sp,hsp,hcase⟩ := htorn.specs p i sq hsq
      rcases hcase with rfl | ⟨hnone,-⟩
      · exact honly p i sq (hvspec p i ▸ hsp) hc
      · rw [hnone] at hc
        cases hc
    have hreg' : ∀ id,v'.registry id ≠ some a := by
      intro id hid
      rcases htorn.registry id with heq | ⟨hnone,-⟩
      · exact hvreg id (heq ▸ hid)
      · rw [hnone] at hid
        cases hid
    obtain ⟨vm',hvm',hw',htorn'⟩ := hwv'.release hz honly' hreg' (by omega)
    refine ⟨vm',?_,hw',?_⟩
    · rw [terminate,hx]
      simp only [bind_eq_bind,bind_some,SupVm.setState,modify_of hx]
      split <;> rename_i hd <;> rw [hd] at hv' <;>
        exact (congrArg (fun o => o.bind fun u => u.release a) hv').trans hvm'
    · have hmid : Torn vm (Below vm a) v' :=
        htornv.trans (htorn.mono fun b hb => (Below.congr hvspec).mp hb)
      exact hmid.trans (htorn'.mono fun b hb => hb ▸ .self)

theorem staActorTerminate_spec (vm : SupVm) (a : Nat) : Terminates staActorTerminate vm a :=
  terminate_spec vm.nextActorId vm a (fun _ _ => Nat.le_add_right _ _)

end

end SmalltalkA
