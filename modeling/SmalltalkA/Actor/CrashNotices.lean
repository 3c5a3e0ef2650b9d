import SmalltalkA.Actor.SupervisionRecords

/-! Crash notifications: `handle_actor_exception`, `notify_supervisor` and the send to the
supervisor (`actor.c`, `mailbox.c`), between the steps of others. -/

set_option autoImplicit false

namespace SmalltalkA

open SupVm Interleaving List Option

/-- What has become of a notification. -/
inductive NoticeOutcome where
  | pending | unsupervised | supervisorDead | lost | queued
  deriving DecidableEq,Repr

/-- An unhandled exception. The supervisor's id is known once the notification is addressed. -/
structure Crash where
  actorId : Nat
  reason : Oop
  supervisorId : Option Nat
  outcome : NoticeOutcome
  deriving DecidableEq,Repr

/-- Where a thread stands in `notify_supervisor` or `sta_actor_send_msg`. It holds the actor that it
works on. -/
inductive SendPc where
  | idle
  | notify (a id k : Nat)
  | check (t id : Nat) (msg : ActorMsg)
  | count (t id : Nat) (msg : ActorMsg)
  | full (t id : Nat)
  | exchange (t id : Nat) (msg : ActorMsg)
  deriving DecidableEq,Repr

def SendPc.target : SendPc → Option (Nat × Nat)
  | .idle => none
  | .notify a id _ => some (a,id)
  | .check t id _ | .count t id _ | .full t id | .exchange t id _ => some (t,id)

def ActorMsg.crash (msg : ActorMsg) : Option Nat :=
  match msg.origin with
  | 0 => none
  | k + 1 => some k

def SendPc.job : SendPc → Option Nat
  | .idle | .full _ _ => none
  | .notify _ _ k => some k
  | .check _ _ msg | .count _ _ msg | .exchange _ _ msg => msg.crash

/-- The actors and the threads, with the crashes, the messages put in mailboxes with the receiver's
id, and the ids whose strategy was applied. -/
structure NoticeSys where
  vm : SupVm
  threads : List SendPc
  crashes : List Crash
  log : List (Nat × ActorMsg)
  applied : List Nat

def settle (crashes : List Crash) (job : Option Nat) (o : NoticeOutcome) : List Crash :=
  match job with
  | none => crashes
  | some k => crashes.modify k (fun c => { c with outcome := o })

/-- The notification of crash `k`. -/
def noticeMsg (k : Nat) (c : Crash) : ActorMsg :=
  ⟨some [smallIntOop c.actorId,c.reason],k + 1⟩

namespace NoticeSys

def holds (t : Nat) (pc : SendPc) : Nat := if pc.target.map Prod.fst = some t then 1 else 0

def spare (sys : NoticeSys) (a : Nat) : Bool :=
  match sys.vm.actors a with
  | none => false
  | some x => tally (holds a) sys.threads < x.held

/-- `notify_supervisor` up to the lookup in `sta_actor_send_msg`. -/
def notifySupervisor (sys : NoticeSys) (i a k : Nat) : Option NoticeSys := do
  let x ← sys.vm.actors a
  let c ← sys.crashes[k]?
  match x.supervisor with
  | none =>
    return { sys with
      threads := sys.threads.set i .idle,crashes := settle sys.crashes (some k) .unsupervised }
  | some p =>
    let sup ← sys.vm.actors p
    match sys.vm.registry sup.actorId with
    | none =>
      return { sys with
        threads := sys.threads.set i .idle
        crashes := settle sys.crashes (some k)
          (if sup.state = .terminated then .supervisorDead else .lost) }
    | some t =>
      let vm ← sys.vm.lookup sup.actorId
      return { sys with
        vm := vm
        threads := sys.threads.set i (.check t sup.actorId (noticeMsg k c))
        crashes := sys.crashes.modify k (fun c => { c with supervisorId := some sup.actorId }) }

def finish (sys : NoticeSys) (i t : Nat) (job : Option Nat) (o : NoticeOutcome) :
    Option NoticeSys := do
  let vm ← sys.vm.letGo t
  return { sys with
    vm := vm,threads := sys.threads.set i .idle,crashes := settle sys.crashes job o }

/-- One step of a thread: a send checks the target's state, allocates, counts up the mailbox, and
exchanges its tail and wakes. -/
def go (sys : NoticeSys) (i : Nat) (memory running : Bool) : Option NoticeSys :=
  match sys.threads[i]? with
  | none | some .idle => none
  | some (.notify a _ k) => sys.notifySupervisor i a k
  | some (.check t id msg) => do
    let x ← sys.vm.actors t
    if x.state = .terminated then sys.finish i t msg.crash .supervisorDead
    else if !memory then sys.finish i t msg.crash .lost
    else if x.capacity = 0 then
      return { sys with threads := sys.threads.set i (.exchange t id msg) }
    else return { sys with threads := sys.threads.set i (.count t id msg) }
  | some (.count t id msg) => do
    let x ← sys.vm.actors t
    let vm ← sys.vm.modify t (fun x => { x with count := inc32 x.count })
    if x.capacity ≤ x.count then
      return { sys with
        vm := vm
        threads := sys.threads.set i (.full t id)
        crashes := settle sys.crashes msg.crash .lost }
    else return { sys with vm := vm,threads := sys.threads.set i (.exchange t id msg) }
  | some (.full t _) => do
    let vm ← sys.vm.modify t (fun x => { x with count := dec32 x.count })
    { sys with vm := vm }.finish i t none .lost
  | some (.exchange t _ msg) => do
    let x ← sys.vm.actors t
    let vm ← sys.vm.modify t (fun x => { x with
      queue := x.queue ++ [msg]
      state := if running ∧ (x.state = .suspended ∨ x.state = .created) then .ready
        else x.state })
    { sys with vm := vm,log := sys.log ++ [(x.actorId,msg)] }.finish i t msg.crash .queued

/-- The id whose strategy `sta_supervisor_handle_failure` is about to apply. -/
def strategyApplied (vm : SupVm) (s : Nat) (args : List Oop) (fate : Fate) : Option Nat := do
  let d ← vm.data s
  let id ← failedId args
  let i ← d.findChildById id
  let sp ← d.children[i]?
  if sp.strategy = .restart ∧ d.exceeded fate.now then none else some id

/-- `sta_actor_process_one_preemptible` of a supervisor, as far as its C code goes. -/
def process (exceedReason : Oop) (sys : NoticeSys) (s : Nat) (fate : Fate) : Option NoticeSys := do
  let x ← sys.vm.actors s
  let msg ← x.queue.head?
  let vm ← sys.vm.dequeue s
  match msg.childFailed,x.supData with
  | some args,some _ =>
    let (vm',_) ← vm.handleFailure exceedReason s args fate
    return { sys with
      vm := vm',applied := sys.applied ++ (strategyApplied vm s args fate).toList }
  | _,_ => return { sys with vm := vm }

def crash (sys : NoticeSys) (i a : Nat) (reason : Oop) : Option NoticeSys := do
  let x ← sys.vm.actors a
  if sys.threads[i]? = some .idle ∧ sys.spare a then
    let vm ← sys.vm.setState a (if x.state = .running then .terminated else x.state)
    return { sys with
      vm := vm
      threads := sys.threads.set i (.notify a x.actorId sys.crashes.length)
      crashes := sys.crashes ++ [⟨x.actorId,reason,none,.pending⟩] }
  else none

def send (sys : NoticeSys) (i id : Nat) (childFailed : Option (List Oop)) : Option NoticeSys := do
  let t ← sys.vm.registry id
  if sys.threads[i]? = some .idle then
    let vm ← sys.vm.lookup id
    return { sys with vm := vm,threads := sys.threads.set i (.check t id ⟨childFailed,0⟩) }
  else none

/-- What happens besides sends and handled notifications. -/
def permits (sys : NoticeSys) : SupEvent → Bool
  | .letGo a => sys.spare a
  | .send .. | .handle .. => false
  | _ => true

end NoticeSys

inductive NoticeEvent where
  | crash (i a : Nat) (reason : Oop)
  | send (i id : Nat) (childFailed : Option (List Oop))
  | go (i : Nat) (memory running : Bool)
  | process (s : Nat) (fate : Fate)
  | other (e : SupEvent)

def noticeStep (exceedReason : Oop) (sys : NoticeSys) : NoticeEvent → Option NoticeSys
  | .crash i a reason => sys.crash i a reason
  | .send i id childFailed => sys.send i id childFailed
  | .go i memory running => sys.go i memory running
  | .process s fate => sys.process exceedReason s fate
  | .other e =>
    if sys.permits e then (supStep exceedReason sys.vm e).map (fun vm => { sys with vm := vm })
    else none

/-- A VM after `sta_vm_create`, with threads that do nothing yet. -/
def quietSys (objectClass : Oop) (n : Nat) : NoticeSys :=
  ⟨bootVm objectClass,List.replicate n .idle,[],[],[]⟩

/-! ## The property -/

/-- The notifications of crash `k` that were put in mailboxes. -/
def noticesFor (log : List (Nat × ActorMsg)) (k : Nat) : List (Nat × ActorMsg) :=
  log.filter (fun q => q.2.crash = some k)

/-- What there is of the notification of crash `k`. -/
def CrashReported (sys : NoticeSys) (k : Nat) (c : Crash) : Prop :=
  match c.outcome with
  | .pending => noticesFor sys.log k = [] ∧ ∃ pc ∈ sys.threads,pc.job = some k
  | .unsupervised | .supervisorDead => noticesFor sys.log k = []
  | .queued => ∃ id,c.supervisorId = some id ∧ noticesFor sys.log k = [(id,noticeMsg k c)]
  | .lost => False

/-- Every crash is reported, a strategy is applied once for an actor, and a later notification for
it changes nothing. -/
structure NoticesOk (exceedReason : Oop) (sys : NoticeSys) : Prop where
  reported : ∀ k c,sys.crashes[k]? = some c → CrashReported sys k c
  once : (sys.applied.filter (· ≠ 0)).Nodup
  stale : ∀ id ∈ sys.applied,id ≠ 0 → ∀ s x args fate,sys.vm.actors s = some x →
    failedId args = some id →
      (sys.vm.handleFailure exceedReason s args fate).map Prod.fst = some sys.vm

/-- The step drops no notification: a supervisor that is not terminated is registered, there is
memory, and its mailbox is not full. -/
def delivers (sys : NoticeSys) : NoticeEvent → Bool
  | .go i memory _ =>
    match sys.threads[i]? with
    | some (.notify a _ _) =>
      match (sys.vm.actors a).bind SupActor.supervisor with
      | none => true
      | some p =>
        match sys.vm.actors p with
        | none => true
        | some sup => (sys.vm.registry sup.actorId).isSome || sup.state = .terminated
    | some (.check t _ msg) =>
      msg.crash.isNone || memory ||
        (match sys.vm.actors t with
        | none => true
        | some x => x.state = .terminated)
    | some (.count t _ msg) =>
      msg.crash.isNone ||
        (match sys.vm.actors t with
        | none => true
        | some x => x.count < x.capacity)
    | _ => true
  | _ => true

def noticeOk (sys : NoticeSys) (e : NoticeEvent) : Prop :=
  sys.vm.nextActorId + 1 < 2 ^ 32 ∧ delivers sys e = true

instance (sys : NoticeSys) (e : NoticeEvent) : Decidable (noticeOk sys e) := by
  unfold noticeOk
  infer_instance

/-! ## Held actors -/

section

variable {vm vm' : SupVm} {threads : List SendPc} {pc pc' : SendPc} {i a t id : Nat} {x : SupActor}

/-- What the threads hold is there, under the id by which they found it, and counted. -/
structure Holding (vm : SupVm) (threads : List SendPc) : Prop where
  target : ∀ pc ∈ threads,∀ t id,pc.target = some (t,id) →
    ∃ x,vm.actors t = some x ∧ x.actorId = id
  counted : ∀ t x,vm.actors t = some x → tally (NoticeSys.holds t) threads ≤ x.held

def Spare (vm : SupVm) (threads : List SendPc) (t : Nat) : Prop :=
  ∃ x,vm.actors t = some x ∧ tally (NoticeSys.holds t) threads < x.held

theorem spare_iff (sys : NoticeSys) : sys.spare a = true ↔ Spare sys.vm sys.threads a := by
  unfold NoticeSys.spare Spare
  cases sys.vm.actors a <;> simp

theorem holds_eq_one (h : pc.target = some (t,id)) : NoticeSys.holds t pc = 1 := by
  simp [NoticeSys.holds,h]

theorem holds_eq_zero (h : pc.target = none) (t : Nat) : NoticeSys.holds t pc = 0 := by
  simp [NoticeSys.holds,h]

theorem Holding.held (h : Holding vm threads) (hpc : pc ∈ threads)
    (ht : pc.target = some (t,id)) : ∃ x,vm.actors t = some x ∧ x.actorId = id ∧ 0 < x.held := by
  obtain ⟨x,hx,hid⟩ := h.target pc hpc t id ht
  obtain ⟨i,hi⟩ := mem_iff_getElem?.mp hpc
  have hle := le_tally hi (NoticeSys.holds t)
  have := h.counted t x hx
  rw [holds_eq_one ht] at hle
  exact ⟨x,hx,hid,by omega⟩

theorem Holding.kept (h : Holding vm threads) (hk : HeldKept vm vm') : Holding vm' threads := by
  refine ⟨fun pc hpc t id ht => ?_,fun t y hy => ?_⟩
  · obtain ⟨x,hx,hid,hheld⟩ := h.held hpc ht
    obtain ⟨y,hy,hid',-⟩ := hk t x hx hheld
    exact ⟨y,hy,hid'.trans hid⟩
  · by_cases hzero : tally (NoticeSys.holds t) threads = 0
    · omega
    · obtain ⟨j,pc,hj,hpos⟩ := exists_of_tally_pos (Nat.pos_of_ne_zero hzero)
      have htarget : ∃ id,pc.target = some (t,id) := by
        unfold NoticeSys.holds at hpos
        split at hpos
        · next hmap =>
          obtain ⟨⟨t',id⟩,ht,rfl⟩ := map_eq_some_iff.mp hmap
          exact ⟨id,ht⟩
        · cases hpos
      obtain ⟨id,ht⟩ := htarget
      obtain ⟨x,hx,-,hheld⟩ := h.held (mem_of_getElem? hj) ht
      obtain ⟨z,hz,-,heq⟩ := hk t x hx hheld
      cases hy.symm.trans hz
      rw [heq]
      exact h.counted t x hx

theorem Holding.stay (h : Holding vm threads) (hi : threads[i]? = some pc)
    (ht : pc'.target = pc.target) : Holding vm (threads.set i pc') := by
  refine ⟨forall_mem_set h.target ?_,fun t x hx => ?_⟩
  · rw [ht]
    exact h.target pc (mem_of_getElem? hi)
  · have hsum := tally_set hi pc' (NoticeSys.holds t)
    have heq : NoticeSys.holds t pc' = NoticeSys.holds t pc := by
      rw [NoticeSys.holds,NoticeSys.holds,ht]
    have := h.counted t x hx
    omega

theorem Holding.drop (h : Holding vm threads) (hi : threads[i]? = some pc)
    (ht : pc'.target = none) : Holding vm (threads.set i pc') := by
  refine ⟨forall_mem_set h.target (by simp [ht]),fun t x hx => ?_⟩
  have hsum := tally_set hi pc' (NoticeSys.holds t)
  rw [holds_eq_zero ht] at hsum
  have := h.counted t x hx
  omega

theorem Holding.spare (h : Holding vm threads) (hi : threads[i]? = some pc)
    (ht : pc.target = some (t,id)) (ht' : pc'.target = none) :
    Spare vm (threads.set i pc') t := by
  obtain ⟨x,hx,-,-⟩ := h.held (mem_of_getElem? hi) ht
  have hsum := tally_set hi pc' (NoticeSys.holds t)
  rw [holds_eq_zero ht',holds_eq_one ht] at hsum
  have := h.counted t x hx
  exact ⟨x,hx,by omega⟩

theorem Holding.take (h : Holding vm threads) (hi : threads[i]? = some pc)
    (hpc : pc.target = none) (ht : pc'.target = some (t,id)) (hs : Spare vm threads t)
    (hid : ∀ x,vm.actors t = some x → x.actorId = id) : Holding vm (threads.set i pc') := by
  obtain ⟨x,hx,hlt⟩ := hs
  refine ⟨forall_mem_set h.target ?_,fun u y hy => ?_⟩
  · intro u id' hu
    obtain ⟨rfl,rfl⟩ : t = u ∧ id = id' := by simpa [ht] using hu
    exact ⟨x,hx,hid x hx⟩
  · have hsum := tally_set hi pc' (NoticeSys.holds u)
    rw [holds_eq_zero hpc] at hsum
    by_cases hu : u = t
    · subst hu
      cases hx.symm.trans hy
      rw [holds_eq_one ht] at hsum
      omega
    · have hzero : NoticeSys.holds u pc' = 0 := by simp [NoticeSys.holds,ht,Ne.symm hu]
      have := h.counted u y hy
      omega

theorem Holding.lookup (h : Holding vm threads) (hw : Wired [] vm) (hreg : vm.registry id = some t)
    (hl : vm.lookup id = some vm') : Holding vm' threads ∧ Spare vm' threads t ∧
      ∀ x,vm'.actors t = some x → x.actorId = id := by
  obtain ⟨t',ht',hl⟩ := bind_eq_some_iff.mp hl
  cases hreg.symm.trans ht'
  obtain ⟨x,hx,rfl⟩ := modify_some hl
  obtain ⟨z,hz,hid,-⟩ := hw.registered id t hreg
  cases hx.symm.trans hz
  have hle := h.counted t x hx
  refine ⟨⟨fun pc hpc u id' hu => ?_,fun u y hy => ?_⟩,⟨_,put_same _ _ _,by dsimp only; omega⟩,?_⟩
  · obtain ⟨y,hy,hid'⟩ := h.target pc hpc u id' hu
    by_cases hut : u = t
    · subst hut
      cases hx.symm.trans hy
      exact ⟨_,put_same _ _ _,hid'⟩
    · exact ⟨y,by rw [put_other _ hut]; exact hy,hid'⟩
  · by_cases hut : u = t
    · subst hut
      cases (put_same _ _ _).symm.trans hy
      dsimp only
      omega
    · rw [put_other _ hut] at hy
      exact h.counted u y hy
  · intro y hy
    cases (put_same _ _ _).symm.trans hy
    exact hid

theorem Holding.letGo (h : Holding vm threads) (hw : Wired [] vm) (hs : Spare vm threads t)
    (hl : vm.letGo t = some vm') : Holding vm' threads := by
  obtain ⟨x,hx,hlt⟩ := hs
  have hle := hw.counted t x hx
  obtain ⟨z,hz,-,hcase⟩ := letGo_some hl
  cases hx.symm.trans hz
  rcases hcase with ⟨hlast,rfl⟩ | ⟨-,rfl⟩
  · refine ⟨fun pc hpc u id' hu => ?_,fun u y hy => ?_⟩
    · have hut : u ≠ t := by
        rintro rfl
        obtain ⟨j,hj⟩ := mem_iff_getElem?.mp hpc
        have := le_tally hj (NoticeSys.holds u)
        rw [holds_eq_one hu] at this
        omega
      rw [put_other _ hut]
      exact h.target pc hpc u id' hu
    · have hut : u ≠ t := by
        rintro rfl
        simp at hy
      exact h.counted u y ((put_other _ hut).symm.trans hy)
  · refine ⟨fun pc hpc u id' hu => ?_,fun u y hy => ?_⟩
    · obtain ⟨y,hy,hid⟩ := h.target pc hpc u id' hu
      by_cases hut : u = t
      · subst hut
        cases hx.symm.trans hy
        exact ⟨_,put_same _ _ _,hid⟩
      · exact ⟨y,(put_other _ hut).trans hy,hid⟩
    · by_cases hut : u = t
      · subst hut
        cases (put_same _ _ _).symm.trans hy
        dsimp only
        omega
      · exact h.counted u y ((put_other _ hut).symm.trans hy)

end

/-! ## Jobs and the log -/

section

variable {threads : List SendPc} {crashes : List Crash} {log : List (Nat × ActorMsg)}
  {pc pc' : SendPc} {i k : Nat} {c : Crash}

def SendPc.Matches (k : Nat) (c : Crash) : SendPc → Prop
  | .idle | .full _ _ => True
  | .notify _ id _ => c.actorId = id
  | .check _ id msg | .count _ id msg | .exchange _ id msg =>
    c.supervisorId = some id ∧ msg = noticeMsg k c

def reporting (k : Nat) (pc : SendPc) : Nat := if pc.job = some k then 1 else 0

def Crash.notices (k : Nat) (c : Crash) : List (Nat × ActorMsg) :=
  if c.outcome = .queued then (c.supervisorId.map (fun id => (id,noticeMsg k c))).toList else []

/-- Each crash that is not dealt with has one thread at it, and the log has what the outcomes
say. -/
structure Reports (threads : List SendPc) (crashes : List Crash) (log : List (Nat × ActorMsg)) :
    Prop where
  working : ∀ k,tally (reporting k) threads =
    if crashes[k]?.map Crash.outcome = some NoticeOutcome.pending then 1 else 0
  job : ∀ pc ∈ threads,∀ k,pc.job = some k → ∃ c,crashes[k]? = some c ∧ pc.Matches k c
  log : ∀ k,noticesFor log k = (crashes[k]?.map (Crash.notices k)).getD []
  addressed : ∀ (k : Nat) (c : Crash),crashes[k]? = some c → c.outcome = .queued →
    c.supervisorId.isSome = true

section

variable (h : Reports threads crashes log)

include h

theorem Reports.pending (hpc : pc ∈ threads)
    (hk : pc.job = some k) : ∃ c,crashes[k]? = some c ∧ c.outcome = .pending ∧ pc.Matches k c := by
  obtain ⟨c,hc,hm⟩ := h.job pc hpc k hk
  obtain ⟨i,hi⟩ := mem_iff_getElem?.mp hpc
  have hle := le_tally hi (reporting k)
  have hone : reporting k pc = 1 := if_pos hk
  have hsum := h.working k
  rw [hc,map_some] at hsum
  refine ⟨c,hc,?_,hm⟩
  by_contra hne
  rw [if_neg (fun h => hne (Option.some.inj h))] at hsum
  omega

section

variable (hi : threads[i]? = some pc)

include hi

theorem Reports.alone {j : Nat}
    (hj : threads[j]? = some pc') (hk : pc.job = some k) (hk' : pc'.job = some k) : i = j := by
  by_contra hij
  have hle := add_le_tally hi hj hij (reporting k)
  have hone : reporting k pc = 1 := if_pos hk
  have hone' : reporting k pc' = 1 := if_pos hk'
  have hsum := h.working k
  split at hsum <;> omega

theorem Reports.stay
    (hjob : pc'.job = pc.job) (hm : ∀ k c,pc.job = some k → pc.Matches k c → pc'.Matches k c) :
    Reports (threads.set i pc') crashes log := by
  refine ⟨fun k => ?_,forall_mem_set h.job ?_,h.log,h.addressed⟩
  · have hsum := tally_set hi pc' (reporting k)
    have heq : reporting k pc' = reporting k pc := by rw [reporting,reporting,hjob]
    rw [← h.working k]
    omega
  · intro k hk
    rw [hjob] at hk
    obtain ⟨c,hc,hmatch⟩ := h.job pc (mem_of_getElem? hi) k hk
    exact ⟨c,hc,hm k c hk hmatch⟩

theorem Reports.begin
    (hidle : pc.job = none) (hjob : pc'.job = some crashes.length) (hc : c.outcome = .pending)
    (hm : pc'.Matches crashes.length c) : Reports (threads.set i pc') (crashes ++ [c]) log := by
  have hget : ∀ k,k ≠ crashes.length → (crashes ++ [c])[k]? = crashes[k]? := by
    intro k hk
    rw [getElem?_append]
    split
    · rfl
    · rw [getElem?_eq_none (by simp; omega),getElem?_eq_none (by omega)]
  have hnew : (crashes ++ [c])[crashes.length]? = some c := by simp
  refine ⟨fun k => ?_,forall_mem_set (fun pc hpc k hk => ?_) ?_,fun k => ?_,fun k c' hc' => ?_⟩
  · have hsum := tally_set hi pc' (reporting k)
    have hzero : reporting k pc = 0 := by simp [reporting,hidle]
    have hold := h.working k
    by_cases hk : k = crashes.length
    · subst hk
      have hone : reporting crashes.length pc' = 1 := if_pos hjob
      rw [hnew,map_some,hc,if_pos rfl]
      simp at hold
      omega
    · have hzero' : reporting k pc' = 0 := by simp [reporting,hjob,Ne.symm hk]
      rw [hget k hk,← hold]
      omega
  · obtain ⟨c',hc',hmatch⟩ := h.job pc hpc k hk
    exact ⟨c',by rw [getElem?_append_left (List.getElem?_eq_some_iff.mp hc').1]; exact hc',hmatch⟩
  · intro k hk
    cases hjob.symm.trans hk
    exact ⟨c,hnew,hm⟩
  · rw [h.log k]
    by_cases hk : k = crashes.length
    · subst hk
      simp [Crash.notices,hc]
    · rw [hget k hk]
  · by_cases hk : k = crashes.length
    · subst hk
      cases hnew.symm.trans hc'
      simp [hc]
    · exact h.addressed k c' ((hget k hk).symm.trans hc')

/-- The crash of a thread changes, and with it the thread and the log. -/
theorem Reports.advance
    (hk : pc.job = some k) (hc : crashes[k]? = some c) (f : Crash → Crash)
    (log' : List (Nat × ActorMsg)) (hjob : pc'.job = if (f c).outcome = .pending then some k else none)
    (hm : (f c).outcome = .pending → pc'.Matches k (f c))
    (hlog : noticesFor log' k = (f c).notices k)
    (hothers : ∀ k',k' ≠ k → noticesFor log' k' = noticesFor log k')
    (haddr : (f c).outcome = .queued → (f c).supervisorId.isSome) :
    Reports (threads.set i pc') (crashes.modify k f) log' := by
  have hself : (crashes.modify k f)[k]? = some (f c) := by simp [hc]
  have hother : ∀ k',k' ≠ k → (crashes.modify k f)[k']? = crashes[k']? := by
    intro k' hk'
    simp [Ne.symm hk']
  obtain ⟨c₀,hc₀,hpend,-⟩ := h.pending (mem_of_getElem? hi) hk
  cases hc.symm.trans hc₀
  refine ⟨fun k' => ?_,fun q hq k' hk' => ?_,fun k' => ?_,fun k' c' hc' => ?_⟩
  · have hsum := tally_set hi pc' (reporting k')
    have hold := h.working k'
    by_cases hkk : k' = k
    · subst hkk
      have hone : reporting k' pc = 1 := if_pos hk
      rw [hc,map_some,hpend,if_pos rfl] at hold
      rw [hself,map_some]
      by_cases hp : (f c).outcome = .pending
      · have hone' : reporting k' pc' = 1 := if_pos (by rw [hjob,if_pos hp])
        rw [if_pos (congrArg some hp)]
        omega
      · have hzero : reporting k' pc' = 0 := if_neg (by rw [hjob,if_neg hp]; simp)
        rw [if_neg (fun h => hp (Option.some.inj h))]
        omega
    · have hzero : reporting k' pc = 0 := if_neg (fun h => hkk (Option.some.inj (h.symm.trans hk)))
      have hzero' : reporting k' pc' = 0 := by
        refine if_neg fun h => ?_
        rw [hjob] at h
        split at h
        · exact hkk (Option.some.inj h).symm
        · cases h
      rw [hother k' hkk,← hold]
      omega
  · -- another thread has another job
    obtain ⟨j,hj⟩ := mem_iff_getElem?.mp hq
    by_cases hij : j = i
    · subst hij
      obtain rfl := eq_of_getElem?_set hj
      rw [hjob] at hk'
      split at hk'
      · next hp =>
        obtain rfl := Option.some.inj hk'
        exact ⟨f c,hself,hm hp⟩
      · cases hk'
    · rw [getElem?_set_ne (Ne.symm hij)] at hj
      have hkk : k' ≠ k := by
        rintro rfl
        exact hij (h.alone hj hi hk' hk)
      rw [hother k' hkk]
      exact h.job q (mem_of_getElem? hj) k' hk'
  · by_cases hkk : k' = k
    · subst hkk
      rw [hself]
      exact hlog
    · rw [hothers k' hkk,hother k' hkk]
      exact h.log k'
  · by_cases hkk : k' = k
    · subst hkk
      cases hself.symm.trans hc'
      exact haddr
    · exact h.addressed k' c' ((hother k' hkk).symm.trans hc')

theorem Reports.settled
    {o : NoticeOutcome} (ho : o ≠ .pending) (ho' : o ≠ .queued) (hjob : pc'.job = none) :
    Reports (threads.set i pc') (settle crashes pc.job o) log := by
  cases hk : pc.job with
  | none => exact h.stay hi (by rw [hjob,hk]) (fun k c hk' => by rw [hk] at hk'; cases hk')
  | some k =>
    obtain ⟨c,hc,hpend,-⟩ := h.pending (mem_of_getElem? hi) hk
    refine h.advance hi hk hc _ log (by rw [hjob,if_neg ho]) (fun hp => absurd hp ho) ?_
      (fun _ _ => rfl) (fun hq => absurd hq ho')
    rw [h.log k,hc]
    simp [Crash.notices,hpend,ho']

end

end

theorem noticesFor_append (log : List (Nat × ActorMsg)) (q : Nat × ActorMsg) (k : Nat) :
    noticesFor (log ++ [q]) k = noticesFor log k ++ if q.2.crash = some k then [q] else [] := by
  simp [noticesFor,filter_append,filter_cons]

theorem Reports.deliver {t id : Nat} {msg : ActorMsg} (h : Reports threads crashes log)
    (hi : threads[i]? = some (.exchange t id msg)) :
    Reports (threads.set i .idle) (settle crashes msg.crash .queued) (log ++ [(id,msg)]) := by
  cases hk : msg.crash with
  | none =>
    have hlog : ∀ k,noticesFor (log ++ [(id,msg)]) k = noticesFor log k := by
      intro k
      simp [noticesFor_append,hk]
    have hstay : Reports (threads.set i .idle) crashes log :=
      h.stay hi hk.symm (fun _ _ _ _ => trivial)
    exact { hstay with log := fun k => (hlog k).trans (h.log k) }
  | some k =>
    obtain ⟨c,hc,hpend,hsup,hmsg⟩ := h.pending (mem_of_getElem? hi) hk
    refine h.advance hi hk hc (fun c => { c with outcome := .queued }) _ rfl (by simp) ?_ ?_ ?_
    · rw [noticesFor_append,h.log k,hc,if_pos hk]
      simp [Crash.notices,hpend,hsup,hmsg,noticeMsg]
    · intro k' hk'
      rw [noticesFor_append,if_neg (fun h => hk' (Option.some.inj (h.symm.trans hk))),append_nil]
    · simp [hsup]

end

/-! ## Applied strategies -/

section

variable {vm vm' : SupVm} {s id : Nat} {x : SupActor} {d : SupervisorData} {args : List Oop}
  {fate : Fate} {er : Oop}

/-- The id was given out and no record has it any more. -/
structure IdGone (vm : SupVm) (id : Nat) : Prop where
  given : id < vm.nextActorId
  unused : ∀ p i sp,vm.spec p i = some sp → sp.currentActorId ≠ id

theorem IdGone.onward (h : IdGone vm id) (h0 : id ≠ 0) (ho : Onward vm vm') : IdGone vm' id := by
  refine ⟨Nat.lt_of_lt_of_le h.given ho.next,fun p i sq hsq heq => ?_⟩
  have hlt := h.given
  rcases ho.specs p i sq hsq with hzero | hle | ⟨sp,hsp,hid⟩
  · omega
  · omega
  · exact h.unused p i sp hsp (hid.trans heq)

theorem IdGone.lookup {a : Nat} (h : IdGone vm id) (hl : vm.lookup a = some vm') :
    IdGone vm' id := by
  obtain ⟨t,-,hl⟩ := bind_eq_some_iff.mp hl
  obtain ⟨x,hx,rfl⟩ := modify_some hl
  have halike : SameTree x { x with refcount := x.refcount + 1,held := x.held + 1 } :=
    ⟨⟨rfl,rfl,fun h => by dsimp only; omega,fun h => by dsimp only; omega⟩,rfl⟩
  exact ⟨h.given,fun p i sp hsp => h.unused p i sp ((put_spec hx halike p i).symm.trans hsp)⟩

theorem IdGone.letGo {a : Nat} (h : IdGone vm id) (hl : vm.letGo a = some vm') : IdGone vm' id := by
  obtain ⟨x,hx,hheld,⟨-,rfl⟩ | ⟨hlast,rfl⟩⟩ := letGo_some hl
  · refine ⟨h.given,fun p i sp hsp => ?_⟩
    by_cases hp : p = a
    · subst hp
      rw [spec_none (put_same _ _ _)] at hsp
      cases hsp
    · exact h.unused p i sp ((spec_congr (put_other _ hp) i).symm.trans hsp)
  · have halike : SameTree x { x with held := x.held - 1,refcount := x.refcount - 1 } :=
      ⟨⟨rfl,rfl,fun h => by dsimp only; omega,fun h => by dsimp only; omega⟩,rfl⟩
    exact ⟨h.given,fun p i sp hsp => h.unused p i sp ((put_spec hx halike p i).symm.trans hsp)⟩

theorem Handled.gone (h : Handled vm s d args fate vm') (hw : Wired [] vm)
    (hs : vm.actors s = some x) (hd : x.supData = some d)
    (happ : NoticeSys.strategyApplied vm s args fate = some id) :
    (∃ i sp,vm.spec s i = some sp ∧ sp.currentActorId = id) ∧ (id ≠ 0 → IdGone vm' id) := by
  have hdata : vm.data s = some d := by simp [SupVm.data,hs,hd]
  simp only [NoticeSys.strategyApplied,hdata,bind_eq_bind,bind_some] at happ
  obtain ⟨id',hargs',happ⟩ := bind_eq_some_iff.mp happ
  obtain ⟨i',hf',happ⟩ := bind_eq_some_iff.mp happ
  obtain ⟨sp',hi',happ⟩ := bind_eq_some_iff.mp happ
  split at happ
  · cases happ
  next hrule' =>
  obtain rfl := Option.some.inj happ
  have hsp : vm.spec s i' = some sp' := (spec_iff hs hd i').trans hi'
  have hid : sp'.currentActorId = id' := findChildById_some hf' hi'
  have hsame : ∀ {id i sp},failedId args = some id → d.findChildById id = some i →
      d.children[i]? = some sp → id = id' ∧ i = i' ∧ sp = sp' := by
    intro id i sp hargs hf hi
    cases hargs.symm.trans hargs'
    cases hf.symm.trans hf'
    exact ⟨rfl,rfl,Option.some.inj (hi.symm.trans hi')⟩
  refine ⟨⟨i',sp',hsp,hid⟩,fun h0 => ?_⟩
  have hlt := hw.specIds s i' sp' hsp
  cases h with
  | unfound hmiss => simp [hargs',hf'] at hmiss
  | @replaced _ id i sp sq hargs hf hi hrule hnew _ hrep =>
    obtain ⟨rfl,rfl,rfl⟩ := hsame hargs hf hi
    refine ⟨Nat.lt_of_lt_of_le (hid ▸ hlt) hrep.onward.next,fun p j sr hsr heq => ?_⟩
    rcases hrep.onward.specs p j sr hsr with hzero | hle | ⟨sp₀,hsp₀,hid₀⟩
    · omega
    · omega
    · -- the record that had the id is the one that was replaced
      cases hw.idsApart p j s i sp₀ sp hsp₀ hsp (by omega) (by omega)
      cases hrep.record.symm.trans hsr
      rcases hnew with ⟨-,hzero⟩ | hle <;> omega
  | rootExceeded hargs hf hi hrule | torn hargs hf hi hrule =>
    obtain ⟨rfl,rfl,rfl⟩ := hsame hargs hf hi
    exact absurd hrule hrule'

theorem IdGone.ignored (h : IdGone vm id) (hs : vm.actors s = some x)
    (hargs : failedId args = some id) :
    (vm.handleFailure er s args fate).map Prod.fst = some vm := by
  simp only [handleFailure,hs,bind_eq_bind,bind_some,hargs]
  cases hd : x.supData with
  | none => rfl
  | some d =>
    have hmiss : d.findChildById id = none := by
      rw [SupervisorData.findChildById,findIdx?_eq_none_iff]
      intro sp hsp
      obtain ⟨j,hj⟩ := mem_iff_getElem?.mp hsp
      simpa using h.unused s j sp ((spec_iff hs hd j).trans hj)
    simp [hmiss]

/-- The ids whose strategy was applied are gone, and were applied once. -/
structure AppliedOnce (vm : SupVm) (applied : List Nat) : Prop where
  gone : ∀ id ∈ applied,id ≠ 0 → IdGone vm id
  nodup : (applied.filter (· ≠ 0)).Nodup

theorem AppliedOnce.onward {applied : List Nat} (h : AppliedOnce vm applied)
    (ho : ∀ id,id ≠ 0 → IdGone vm id → IdGone vm' id) : AppliedOnce vm' applied :=
  ⟨fun id hid h0 => ho id h0 (h.gone id hid h0),h.nodup⟩

theorem AppliedOnce.append {applied : List Nat} (h : AppliedOnce vm applied)
    (ho : Onward vm vm') (new : Option Nat) (hnew : ∀ id,new = some id →
      (∃ i sp,vm.spec s i = some sp ∧ sp.currentActorId = id) ∧ (id ≠ 0 → IdGone vm' id)) :
    AppliedOnce vm' (applied ++ new.toList) := by
  cases new with
  | none => simpa using h.onward (fun _ h0 hg => hg.onward h0 ho)
  | some id =>
    obtain ⟨⟨i,sp,hsp,hid⟩,hgone⟩ := hnew id rfl
    refine ⟨fun id' hmem h0 => ?_,?_⟩
    · rcases mem_append.mp hmem with hmem | hmem
      · exact (h.gone id' hmem h0).onward h0 ho
      · obtain rfl : id' = id := by simpa using hmem
        exact hgone h0
    · rw [filter_append]
      refine nodup_append.mpr ⟨h.nodup,(by simp : [id].Nodup).filter _,?_⟩
      rintro id' hmem _ hmem' rfl
      simp only [toList_some,mem_filter,mem_singleton] at hmem hmem'
      obtain rfl := hmem'.1
      exact (h.gone id' hmem.1 (by simpa using hmem.2)).unused s i sp hsp hid

end

/-! ## Runs -/

section

variable {vm vm' : SupVm} {er : Oop} {sys sys' : NoticeSys} {e : NoticeEvent} {a : Nat}

/-- Everything that a run keeps. -/
structure NoticeInv (sys : NoticeSys) : Prop where
  wired : Wired [] sys.vm
  holding : Holding sys.vm sys.threads
  reports : Reports sys.threads sys.crashes sys.log
  applied : AppliedOnce sys.vm sys.applied

theorem addChild_keeps {s : Nat} {cls : Oop} {strategy : RestartStrategy} {fate : Fate}
    (hw : Wired [] vm) (hleft : vm.nextActorId + 1 < 2 ^ 32)
    (h : vm.addChild s cls strategy fate = some vm') :
    HeldKept vm vm' ∧ ∀ id,id ≠ 0 → IdGone vm id → IdGone vm' id := by
  unfold addChild at h
  obtain ⟨x,hs,h⟩ := bind_eq_some_iff.mp h
  split at h
  · cases h
    exact ⟨.refl vm,fun _ _ hg => hg⟩
  · cases h
    exact ⟨.refl vm,fun _ _ hg => hg⟩
  next d a hd hc =>
  obtain ⟨v,hv,h⟩ := bind_eq_some_iff.mp h
  have hcreated := create_some hleft hv
  have hon : Onward vm v := hcreated.onward rfl
  have hwv := hw.create hleft hcreated rfl rfl (Nat.zero_le _)
  split at h
  · have hfresh := hcreated.fresh hw rfl
    obtain ⟨u,hu,-,htorn⟩ := staActorTerminate_spec v a [] _ hwv hcreated.new rfl
      (by intro e he; cases he) (fun q j sq hsq hq => absurd hq (hfresh q j sq hsq).1)
    cases hu.symm.trans h
    have hon' := hon.trans (.torn htorn)
    exact ⟨hon'.held,fun _ h0 hg => hg.onward h0 hon'⟩
  · obtain ⟨u,hu,h⟩ := bind_eq_some_iff.mp h
    cases h
    obtain ⟨z,hz,rfl⟩ := modify_some hu
    cases (hcreated.old hs).symm.trans hz
    have hreg := register_onward (v.put s (some { x with supData := some { d with
      children := ⟨cls,strategy,some a,vm.nextActorId⟩ :: d.children } })) vm.nextActorId a
      fate.registers
    have hheld : HeldKept v (v.put s (some { x with supData := some { d with
      children := ⟨cls,strategy,some a,vm.nextActorId⟩ :: d.children } })) := .put hz rfl rfl
    refine ⟨(hon.held.trans hheld).trans hreg.held,fun id h0 hg => ?_⟩
    refine IdGone.onward ⟨?_,fun p i sq hsq => ?_⟩ h0 hreg
    · exact Nat.lt_of_lt_of_le hg.given hon.next
    · have hgv := hg.onward h0 hon
      by_cases hp : p = s
      · subst hp
        rw [spec_of (put_same _ _ _)] at hsq
        cases i with
        | zero =>
          obtain rfl : _ = sq := by simpa using hsq
          exact Nat.ne_of_gt hg.given
        | succ j => exact hgv.unused p j sq ((spec_iff hz hd j).trans (by simpa using hsq))
      · exact hgv.unused p i sq ((spec_congr (put_other _ hp) i).symm.trans hsq)

theorem supStep_keeps {e : SupEvent} (hw : Wired [] vm) (hleft : vm.nextActorId + 1 < 2 ^ 32)
    (h : supStep er vm e = some vm') :
    (∀ id,id ≠ 0 → IdGone vm id → IdGone vm' id) ∧
    ((∀ id,e ≠ .lookup id) → (∀ a,e ≠ .letGo a) → HeldKept vm vm') := by
  have hof : ∀ {v},Onward vm v → (∀ id,id ≠ 0 → IdGone vm id → IdGone v id) ∧
      ((∀ id,e ≠ .lookup id) → (∀ a,e ≠ .letGo a) → HeldKept vm v) :=
    fun ho => ⟨fun _ h0 hg => hg.onward h0 ho,fun _ _ => ho.held⟩
  cases e with
  | spawn a cls registers =>
    obtain ⟨v,hv,h⟩ := bind_eq_some_iff.mp h
    cases h
    have hcreated := create_some hleft hv
    exact hof ((hcreated.onward rfl).trans (register_onward _ _ _ _))
  | init a maxRestarts maxSeconds =>
    obtain ⟨x,hx,rfl⟩ := modify_some h
    refine hof ⟨.put hx rfl rfl,fun p i sq hsq => ?_,Nat.le_refl _⟩
    by_cases hp : p = a
    · subst hp
      rw [spec_of (put_same _ _ _)] at hsq
      simp at hsq
    · exact .inr (.inr ⟨sq,(spec_congr (put_other _ hp) i).symm.trans hsq,rfl⟩)
  | addChild s cls strategy fate =>
    obtain ⟨hheld,hgone⟩ := addChild_keeps hw hleft h
    exact ⟨hgone,fun _ _ => hheld⟩
  | setState a st =>
    obtain ⟨x,hx,rfl⟩ := modify_some h
    exact hof (.put hx ⟨⟨rfl,rfl,fun h => h,fun h => h⟩,rfl⟩ rfl)
  | lookup id => exact ⟨fun _ _ hg => hg.lookup h,fun hl => absurd rfl (hl id)⟩
  | letGo a => exact ⟨fun _ _ hg => hg.letGo h,fun _ hl => absurd rfl (hl a)⟩
  | send id msg fate => exact hof (staActorSendMsg_harmless h).onward
  | dequeue a =>
    obtain ⟨x,-,h⟩ := bind_eq_some_iff.mp h
    split at h
    · cases h
      exact hof (.refl vm)
    · obtain ⟨y,hy,rfl⟩ := modify_some h
      exact hof (.put hy ⟨⟨rfl,rfl,fun h => h,fun h => h⟩,rfl⟩ rfl)
  | handle s args fate =>
    obtain ⟨⟨v,rc⟩,hv,rfl⟩ := map_eq_some_iff.mp h
    obtain ⟨x,hs,-⟩ := bind_eq_some_iff.mp (id hv)
    cases hd : x.supData with
    | none =>
      simp only [handleFailure,hs,hd,bind_eq_bind,bind_some] at hv
      cases hv
      exact hof (.refl vm)
    | some d => exact hof (handleFailure_handled hw hs hd hleft hv).onward

/-! ### Steps -/

def NoneLost (crashes : List Crash) : Prop :=
  ∀ (k : Nat) (c : Crash),crashes[k]? = some c → c.outcome ≠ .lost

theorem NoneLost.modify {crashes : List Crash} {k : Nat} {c : Crash} {f : Crash → Crash}
    (h : NoneLost crashes) (hc : crashes[k]? = some c) :
    NoneLost (crashes.modify k f) ↔ (f c).outcome ≠ .lost := by
  have hself : (crashes.modify k f)[k]? = some (f c) := by simp [hc]
  refine ⟨fun h' => h' k (f c) hself,fun hf k' c' hc' => ?_⟩
  by_cases hk : k' = k
  · subst hk
    cases hself.symm.trans hc'
    exact hf
  · exact h k' c' (by simpa [Ne.symm hk] using hc')

theorem Reports.noneLost_settle {threads : List SendPc} {crashes : List Crash}
    {log : List (Nat × ActorMsg)} {pc : SendPc} {o : NoticeOutcome}
    (h : Reports threads crashes log) (hpc : pc ∈ threads) (hfree : NoneLost crashes) :
    NoneLost (settle crashes pc.job o) ↔ (pc.job = none ∨ o ≠ .lost) := by
  cases hk : pc.job with
  | none => simpa [settle] using hfree
  | some k =>
    obtain ⟨c,hc,-,-⟩ := h.pending hpc hk
    simpa [settle] using hfree.modify hc

variable {i id : Nat}

theorem finish_inv {t : Nat} {pc : SendPc} {job : Option Nat} {o : NoticeOutcome}
    (h : sys.finish i t job o = some sys') (hw : Wired [] sys.vm) (hh : Holding sys.vm sys.threads)
    (ha : AppliedOnce sys.vm sys.applied) (hi : sys.threads[i]? = some pc)
    (ht : pc.target = some (t,id))
    (hr : Reports (sys.threads.set i .idle) (settle sys.crashes job o) sys.log) :
    NoticeInv sys' ∧ sys'.crashes = settle sys.crashes job o := by
  obtain ⟨vm,hvm,h⟩ := bind_eq_some_iff.mp h
  cases h
  exact ⟨⟨letGo_wired hw hvm,(hh.drop hi rfl).letGo hw (hh.spare hi ht rfl) hvm,hr,
    ha.onward fun _ _ hg => hg.letGo hvm⟩,rfl⟩

section

variable (h : NoticeInv sys)

include h

theorem notify_inv {k : Nat} (hi : sys.threads[i]? = some (.notify a id k))
    (hstep : sys.notifySupervisor i a k = some sys') :
    NoticeInv sys' ∧ (NoneLost sys.crashes →
      (NoneLost sys'.crashes ↔ delivers sys (.go i true true) = true)) := by
  have hmem := mem_of_getElem? hi
  have hpend := h.reports.pending hmem (k := k) rfl
  obtain ⟨x,hx,hstep⟩ := bind_eq_some_iff.mp hstep
  obtain ⟨c,hc,hstep⟩ := bind_eq_some_iff.mp hstep
  obtain ⟨c',hc',hout,hmatch⟩ := hpend
  cases hc.symm.trans hc'
  have hidle : Holding sys.vm (sys.threads.set i .idle) := h.holding.drop hi rfl
  cases hsup : x.supervisor with
  | none =>
    simp only [hsup] at hstep
    cases hstep
    refine ⟨⟨h.wired,hidle,h.reports.settled hi (by simp) (by simp) rfl,h.applied⟩,fun hfree => ?_⟩
    have hdel : delivers sys (.go i true true) = true := by simp [delivers,hi,hx,hsup]
    refine (h.reports.noneLost_settle hmem hfree).trans ?_
    simp [hdel]
  | some p =>
    simp only [hsup] at hstep
    obtain ⟨sup,hp,hstep⟩ := bind_eq_some_iff.mp hstep
    cases hreg : sys.vm.registry sup.actorId with
    | none =>
      simp only [hreg] at hstep
      cases hstep
      refine ⟨⟨h.wired,hidle,h.reports.settled hi ?_ ?_ rfl,h.applied⟩,fun hfree => ?_⟩
      · split <;> simp
      · split <;> simp
      · refine (h.reports.noneLost_settle hmem hfree).trans ?_
        simp [delivers,hi,hx,hsup,hp,hreg,SendPc.job]
    | some t =>
      simp only [hreg] at hstep
      obtain ⟨vm,hvm,hstep⟩ := bind_eq_some_iff.mp hstep
      cases hstep
      have hw := lookup_wired h.wired hvm
      have happ := h.applied.onward fun _ _ hg => hg.lookup hvm
      obtain ⟨hhold,hspare,hid⟩ := hidle.lookup h.wired hreg hvm
      refine ⟨⟨hw,?_,?_,happ⟩,fun hfree => ?_⟩
      · have hlt := (List.getElem?_eq_some_iff.mp hi).1
        have hnow : (sys.threads.set i .idle)[i]? = some SendPc.idle := by simp [hlt]
        have htake : Holding vm ((sys.threads.set i .idle).set i
            (.check t sup.actorId (noticeMsg k c))) := hhold.take hnow rfl rfl hspare hid
        rwa [set_set] at htake
      · refine h.reports.advance hi rfl hc _ sys.log ?_ (fun _ => ⟨rfl,rfl⟩) ?_ (fun _ _ => rfl) ?_
        · simp [SendPc.job,hout,noticeMsg,ActorMsg.crash]
        · rw [h.reports.log k,hc]
          simp [Crash.notices,hout]
        · simp
      · refine (hfree.modify hc).trans ?_
        simp [delivers,hi,hx,hsup,hp,hreg,hout]

theorem go_inv {memory running : Bool}
    (hstep : sys.go i memory running = some sys') :
    NoticeInv sys' ∧ (NoneLost sys.crashes →
      (NoneLost sys'.crashes ↔ delivers sys (.go i memory running) = true)) := by
  unfold NoticeSys.go at hstep
  cases hi : sys.threads[i]? with
  | none => simp [hi] at hstep
  | some pc =>
  have hmem := mem_of_getElem? hi
  cases pc with
  | idle => simp [hi] at hstep
  | notify a id k =>
    simp only [hi] at hstep
    have hsame : delivers sys (.go i memory running) = delivers sys (.go i true true) := by
      simp [delivers,hi]
    rw [hsame]
    exact notify_inv h hi hstep
  | check t id msg =>
    simp only [hi] at hstep
    obtain ⟨x,hx,hstep⟩ := bind_eq_some_iff.mp hstep
    have hsettled : ∀ o : NoticeOutcome,o ≠ .pending → o ≠ .queued →
        Reports (sys.threads.set i .idle) (settle sys.crashes msg.crash o) sys.log :=
      fun o ho ho' => h.reports.settled hi ho ho' rfl
    have hlost : ∀ o : NoticeOutcome,NoneLost sys.crashes →
        (NoneLost (settle sys.crashes msg.crash o) ↔ (msg.crash = none ∨ o ≠ .lost)) :=
      fun o hfree => h.reports.noneLost_settle hmem hfree
    split at hstep
    · next hdead =>
      obtain ⟨hinv,hcr⟩ := finish_inv hstep h.wired h.holding h.applied hi rfl
        (hsettled _ (by simp) (by simp))
      refine ⟨hinv,fun hfree => ?_⟩
      rw [hcr,hlost _ hfree]
      simp [delivers,hi,hx,hdead]
    next hdead =>
    split at hstep
    · next hmemory =>
      obtain ⟨hinv,hcr⟩ := finish_inv hstep h.wired h.holding h.applied hi rfl
        (hsettled _ (by simp) (by simp))
      refine ⟨hinv,fun hfree => ?_⟩
      rw [hcr,hlost _ hfree]
      simp_all [delivers]
    next hmemory =>
    have hdel : delivers sys (.go i memory running) = true := by
      simp_all [delivers]
    split at hstep <;>
    · cases hstep
      exact ⟨⟨h.wired,h.holding.stay hi rfl,h.reports.stay hi rfl (fun _ _ _ hm => hm),h.applied⟩,
        fun hfree => by simpa [hdel] using hfree⟩
  | count t id msg =>
    simp only [hi] at hstep
    obtain ⟨x,hx,hstep⟩ := bind_eq_some_iff.mp hstep
    obtain ⟨vm,hvm,hstep⟩ := bind_eq_some_iff.mp hstep
    cases (modify_of hx _).symm.trans hvm
    have halike : SameTree x { x with count := inc32 x.count } :=
      ⟨⟨rfl,rfl,fun h => h,fun h => h⟩,rfl⟩
    have hon : Onward sys.vm _ := .put hx halike rfl
    have happ := h.applied.onward (fun _ h0 hg => hg.onward h0 hon)
    have hhold := h.holding.kept hon.held
    have hw := h.wired.put hx halike
    split at hstep
    · next hfull =>
      cases hstep
      refine ⟨⟨hw,hhold.stay hi rfl,h.reports.settled hi (by simp) (by simp) rfl,happ⟩,
        fun hfree => (h.reports.noneLost_settle hmem hfree).trans ?_⟩
      simp [delivers,hi,hx,SendPc.job,Nat.not_lt.mpr hfull]
    · next hfull =>
      cases hstep
      refine ⟨⟨hw,hhold.stay hi rfl,h.reports.stay hi rfl (fun _ _ _ hm => hm),happ⟩,
        fun hfree => ?_⟩
      simpa [delivers,hi,hx,Nat.not_le.mp hfull] using hfree
  | full t id =>
    simp only [hi] at hstep
    obtain ⟨vm,hvm,hstep⟩ := bind_eq_some_iff.mp hstep
    obtain ⟨x,hx,rfl⟩ := modify_some hvm
    have halike : SameTree x { x with count := dec32 x.count } :=
      ⟨⟨rfl,rfl,fun h => h,fun h => h⟩,rfl⟩
    have hon : Onward sys.vm _ := .put hx halike rfl
    have hr : Reports (sys.threads.set i .idle) (settle sys.crashes none .lost) sys.log :=
      h.reports.stay hi rfl (fun _ _ _ _ => trivial)
    obtain ⟨hinv,hcr⟩ := finish_inv hstep (h.wired.put hx halike) (h.holding.kept hon.held)
      (h.applied.onward (fun _ h0 hg => hg.onward h0 hon)) hi rfl hr
    refine ⟨hinv,fun hfree => ?_⟩
    rw [hcr]
    simpa [settle,delivers,hi] using hfree
  | exchange t id msg =>
    simp only [hi] at hstep
    obtain ⟨x,hx,hstep⟩ := bind_eq_some_iff.mp hstep
    obtain ⟨vm,hvm,hstep⟩ := bind_eq_some_iff.mp hstep
    cases (modify_of hx _).symm.trans hvm
    obtain ⟨y,hy,hid⟩ := h.holding.target _ hmem t id rfl
    cases hx.symm.trans hy
    have halike : SameTree x { x with
        queue := x.queue ++ [msg]
        state := if running ∧ (x.state = .suspended ∨ x.state = .created) then .ready
          else x.state } :=
      ⟨⟨rfl,rfl,fun h => h,fun h => h⟩,rfl⟩
    have hon : Onward sys.vm _ := .put hx halike rfl
    have hr := h.reports.deliver hi
    rw [← hid] at hr
    obtain ⟨hinv,hcr⟩ := finish_inv hstep (h.wired.put hx halike) (h.holding.kept hon.held)
      (h.applied.onward (fun _ h0 hg => hg.onward h0 hon)) hi rfl hr
    refine ⟨hinv,fun hfree => ?_⟩
    rw [hcr]
    refine (h.reports.noneLost_settle hmem hfree).trans ?_
    simp [delivers,hi]

theorem crash_inv {reason : Oop} (hstep : sys.crash i a reason = some sys') :
    NoticeInv sys' ∧ (NoneLost sys.crashes → NoneLost sys'.crashes) := by
  obtain ⟨x,hx,hstep⟩ := bind_eq_some_iff.mp hstep
  split at hstep
  · next hpre =>
    obtain ⟨hi,hspare⟩ := hpre
    obtain ⟨vm,hvm,hstep⟩ := bind_eq_some_iff.mp hstep
    cases hstep
    cases (modify_of hx _).symm.trans hvm
    have halike : SameTree x { x with
        state := if x.state = .running then .terminated else x.state } :=
      ⟨⟨rfl,rfl,fun h => h,fun h => h⟩,rfl⟩
    have hon : Onward sys.vm _ := .put hx halike rfl
    obtain ⟨y,hy,hlt⟩ := (spare_iff sys).mp hspare
    cases hx.symm.trans hy
    refine ⟨⟨h.wired.put hx halike,?_,h.reports.begin hi rfl rfl rfl rfl,
      h.applied.onward fun _ h0 hg => hg.onward h0 hon⟩,fun hfree k c hc => ?_⟩
    · refine (h.holding.kept hon.held).take hi rfl rfl ⟨_,put_same _ _ _,hlt⟩ (fun z hz => ?_)
      cases (put_same _ _ _).symm.trans hz
      rfl
    · have hmem := mem_of_getElem? hc
      rcases mem_append.mp hmem with hmem | hmem
      · obtain ⟨j,hj⟩ := mem_iff_getElem?.mp hmem
        exact hfree j c hj
      · obtain rfl := mem_singleton.mp hmem
        simp
  · cases hstep

theorem send_inv {childFailed : Option (List Oop)}
    (hstep : sys.send i id childFailed = some sys') :
    NoticeInv sys' ∧ sys'.crashes = sys.crashes := by
  obtain ⟨t,hreg,hstep⟩ := bind_eq_some_iff.mp hstep
  split at hstep
  · next hi =>
    obtain ⟨vm,hvm,hstep⟩ := bind_eq_some_iff.mp hstep
    cases hstep
    obtain ⟨hhold,hspare,hid⟩ := h.holding.lookup h.wired hreg hvm
    exact ⟨⟨lookup_wired h.wired hvm,hhold.take hi rfl rfl hspare hid,
      h.reports.stay hi rfl (fun _ _ hk => by cases hk),
      h.applied.onward fun _ _ hg => hg.lookup hvm⟩,rfl⟩
  · cases hstep

section

variable (hleft : sys.vm.nextActorId + 1 < 2 ^ 32)

include hleft

theorem process_inv {s : Nat} {fate : Fate} (hstep : sys.process er s fate = some sys') :
    NoticeInv sys' ∧ sys'.crashes = sys.crashes := by
  obtain ⟨x,hx,hstep⟩ := bind_eq_some_iff.mp hstep
  obtain ⟨msg,hmsg,hstep⟩ := bind_eq_some_iff.mp hstep
  obtain ⟨vm,hvm,hstep⟩ := bind_eq_some_iff.mp hstep
  -- the message is taken
  obtain ⟨y,hy,hdata,hon,hw,hnext⟩ : ∃ y,vm.actors s = some y ∧ y.supData = x.supData ∧
      Onward sys.vm vm ∧ Wired [] vm ∧ vm.nextActorId = sys.vm.nextActorId := by
    obtain ⟨z,hz,hvm⟩ := bind_eq_some_iff.mp hvm
    cases hx.symm.trans hz
    split at hvm
    · cases hvm
      exact ⟨x,hx,rfl,.refl _,h.wired,rfl⟩
    · cases (modify_of hx _).symm.trans hvm
      have halike : ∀ rest,SameTree x { x with
          queue := rest,count := if 0 < x.capacity then dec32 x.count else x.count } :=
        fun _ => ⟨⟨rfl,rfl,fun h => h,fun h => h⟩,rfl⟩
      exact ⟨_,put_same _ _ _,rfl,.put hx (halike _) rfl,h.wired.put hx (halike _),rfl⟩
  have happ := h.applied.onward fun _ h0 hg => hg.onward h0 hon
  have hhold := h.holding.kept hon.held
  split at hstep
  · next args d hargs hd =>
    obtain ⟨⟨vm',rc⟩,hv,hstep⟩ := bind_eq_some_iff.mp hstep
    cases hstep
    have hd' : y.supData = some d := hdata.trans hd
    have hhandled := handleFailure_handled hw hy hd' (hnext ▸ hleft) hv
    refine ⟨⟨hhandled.wired hw,hhold.kept hhandled.onward.held,h.reports,?_⟩,rfl⟩
    exact happ.append hhandled.onward _ (fun id hid => hhandled.gone hw hy hd' hid)
  · cases hstep
    exact ⟨⟨hw,hhold,h.reports,happ⟩,rfl⟩

theorem other_inv {e : SupEvent}
    (hpermit : sys.permits e = true) (hvm : supStep er sys.vm e = some vm') :
    NoticeInv { sys with vm := vm' } := by
  obtain ⟨hgone,hheld⟩ := supStep_keeps h.wired hleft hvm
  have hhold : Holding vm' sys.threads := by
    cases e with
    | lookup id =>
      obtain ⟨t,hreg,-⟩ := bind_eq_some_iff.mp (show sys.vm.lookup id = some vm' from hvm)
      exact (h.holding.lookup h.wired hreg hvm).1
    | letGo a => exact h.holding.letGo h.wired ((spare_iff sys).mp hpermit) hvm
    | _ => exact h.holding.kept (hheld (by simp) (by simp))
  exact ⟨supStep_wired h.wired hleft hvm,hhold,h.reports,h.applied.onward hgone⟩

theorem noticeStep_inv
    (hstep : noticeStep er sys e = some sys') : NoticeInv sys' ∧ (NoneLost sys.crashes →
      (NoneLost sys'.crashes ↔ delivers sys e = true)) := by
  cases e with
  | crash i a reason =>
    obtain ⟨hinv,hfree⟩ := crash_inv h hstep
    exact ⟨hinv,fun hf => iff_of_true (hfree hf) rfl⟩
  | send i id childFailed =>
    obtain ⟨hinv,hcr⟩ := send_inv h hstep
    exact ⟨hinv,fun hf => iff_of_true (hcr ▸ hf) rfl⟩
  | go i memory running => exact go_inv h hstep
  | process s fate =>
    obtain ⟨hinv,hcr⟩ := process_inv h hleft hstep
    exact ⟨hinv,fun hf => iff_of_true (hcr ▸ hf) rfl⟩
  | other e =>
    simp only [noticeStep] at hstep
    split at hstep
    · next hpermit =>
      obtain ⟨vm,hvm,rfl⟩ := map_eq_some_iff.mp hstep
      exact ⟨other_inv h hleft hpermit hvm,fun hf => iff_of_true hf rfl⟩
    · cases hstep

end

end

theorem tally_replicate_idle (f : SendPc → Nat) (hf : f .idle = 0) (n : Nat) :
    tally f (List.replicate n .idle) = 0 := by
  simp [tally,hf]

theorem quietSys_inv (objectClass : Oop) (n : Nat) : NoticeInv (quietSys objectClass n) := by
  have hidle : ∀ pc ∈ (quietSys objectClass n).threads,pc = .idle :=
    fun pc hpc => eq_of_mem_replicate hpc
  refine ⟨bootVm_wired objectClass,⟨fun pc hpc t id ht => ?_,fun t x hx => ?_⟩,
    ⟨fun k => ?_,fun pc hpc k hk => ?_,fun k => rfl,fun k c hc => ?_⟩,⟨fun id hid => ?_,.nil⟩⟩
  · rw [hidle pc hpc] at ht
    cases ht
  · exact Nat.le_trans (Nat.le_of_eq (tally_replicate_idle _ rfl n)) (Nat.zero_le _)
  · exact tally_replicate_idle _ rfl n
  · rw [hidle pc hpc] at hk
    cases hk
  · cases hc
  · cases hid

theorem NoticeInv.ok_iff (h : NoticeInv sys) : NoticesOk er sys ↔ NoneLost sys.crashes := by
  refine ⟨fun hok k c hc hlost => ?_,fun hfree => ⟨fun k c hc => ?_,h.applied.nodup,?_⟩⟩
  · have := hok.reported k c hc
    simp [CrashReported,hlost] at this
  · have hlog := h.reports.log k
    rw [hc] at hlog
    unfold CrashReported
    cases ho : c.outcome with
    | pending =>
      refine ⟨by simpa [Crash.notices,ho] using hlog,?_⟩
      have hwork := h.reports.working k
      rw [hc,map_some,ho,if_pos rfl] at hwork
      obtain ⟨j,pc,hj,hpos⟩ := exists_of_tally_pos (by rw [hwork]; exact Nat.one_pos)
      refine ⟨pc,mem_of_getElem? hj,?_⟩
      unfold reporting at hpos
      split at hpos
      · assumption
      · cases hpos
    | unsupervised | supervisorDead => simpa [Crash.notices,ho] using hlog
    | lost => exact absurd ho (hfree k c hc)
    | queued =>
      obtain ⟨id,hid⟩ := isSome_iff_exists.mp (h.reports.addressed k c hc ho)
      exact ⟨id,hid,by simpa [Crash.notices,ho,hid] using hlog⟩
  · intro id hid h0 s x args fate hs hargs
    exact (h.applied.gone id hid h0).ignored hs hargs

/-- In a run that has dropped no notification, crashes are reported exactly once and strategies
applied at most once after the next step exactly if that step drops none. -/
theorem crash_notices_iff {objectClass : Oop} {n : Nat}
    (hrun : Path (noticeStep er) noticeOk (quietSys objectClass n) sys)
    (hleft : sys.vm.nextActorId + 1 < 2 ^ 32) (hstep : noticeStep er sys e = some sys') :
    NoticesOk er sys' ↔ delivers sys e = true := by
  have hinv : NoticeInv sys ∧ NoneLost sys.crashes := by
    refine hrun.invariant (I := fun sys => NoticeInv sys ∧ NoneLost sys.crashes)
      ⟨quietSys_inv objectClass n,fun k c hc => by cases hc⟩ ?_
    rintro t e u ⟨ht,hfree⟩ ⟨hl,hdel⟩ hs
    obtain ⟨hu,hiff⟩ := noticeStep_inv ht hl hs
    exact ⟨hu,(hiff hfree).mpr hdel⟩
  obtain ⟨hinv',hiff⟩ := noticeStep_inv hinv.1 hleft hstep
  exact hinv'.ok_iff.trans (hiff hinv.2)

end

/-! ### A full mailbox -/

/-- The root supervisor gets a child at address 5, which a worker then holds. -/
def childAtWork : List NoticeEvent :=
  [.other (.addChild 1 8 .stop (kindFate 5)),.other (.lookup 3),.other (.setState 5 .running)]

/-- The child fails, and its worker goes through `notify_supervisor` up to the exchange. -/
def childFails : List NoticeEvent :=
  [.crash 0 5 8,.go 0 true true,.go 0 true true,.go 0 true true]

/-- A child's crash is reported when its supervisor's mailbox has room. -/
theorem crash_notices_reported : ∃ sys sys' : NoticeSys,
    Path (noticeStep 8) noticeOk (quietSys 8 1) sys ∧
    noticeStep 8 sys (.go 0 true true) = some sys' ∧ NoticesOk 8 sys' := by
  have hpath : Path (noticeStep 8) noticeOk (quietSys 8 1) _ :=
    runAll_path (childAtWork ++ childFails) rfl
  exact ⟨_,_,hpath,rfl,(crash_notices_iff (e := .go 0 true true) hpath (by decide)
    rfl).mpr (by decide +kernel)⟩

/-- Other messages fill the root supervisor's mailbox. -/
def otherSends : List NoticeEvent :=
  (List.replicate mailboxDefaultCapacity
    [.send 0 2 none,.go 0 true false,.go 0 true false,.go 0 true false]).flatten

/-- With the mailbox full of other messages, the child's crash is not reported. -/
theorem full_mailbox_unreported : ∃ sys sys' : NoticeSys,
    Path (noticeStep 8) noticeOk (quietSys 8 1) sys ∧
    noticeStep 8 sys (.go 0 true true) = some sys' ∧ ¬ NoticesOk 8 sys' := by
  have hrun : (runAll (noticeStep 8) noticeOk (childAtWork ++ otherSends ++ childFails.take 3)
      (quietSys 8 1)).map (fun sys =>
        (noticeStep 8 sys (.go 0 true true)).map NoticeSys.crashes) =
      some (some [⟨3,8,some 2,.lost⟩]) := by decide +kernel
  obtain ⟨sys,hpath,hsys⟩ := runAll_map_path hrun
  obtain ⟨sys',hstep,hlost⟩ := map_eq_some_iff.mp hsys
  refine ⟨sys,sys',hpath,hstep,fun hok => ?_⟩
  have := hok.reported 0 ⟨3,8,some 2,.lost⟩ (by rw [hlost]; rfl)
  simp [CrashReported] at this

end SmalltalkA
