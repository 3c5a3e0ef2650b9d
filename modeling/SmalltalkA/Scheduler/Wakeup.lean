import SmalltalkA.Scheduler.RunQueues

/-! Waiting for a future: `prim_future_wait` and the settling and waking of `future.c`, one step for
each atomic operation, on top of the scheduler. A worker makes the steps of the wait, any thread
those of a resolver. -/

set_option autoImplicit false

namespace SmalltalkA

open Interleaving List Function Option

/-- Where a worker is in `prim_future_wait`, after the load that found the future not settled. -/
inductive WaitPc where
  | out
  | pending (f : Nat)
  | stored (f : Nat)
  | suspend (f : Nat)
  deriving DecidableEq

/-- Where a thread is in `sta_future_resolve` or `sta_future_fail`, after its CAS. -/
inductive ResolvePc where
  | idle
  | publish (f : Nat) (fails : Bool)
  | load (f : Nat)
  | found (a : Nat)
  deriving DecidableEq

/-- The scheduler with futures; `waits a` is the future the last wait of actor `a` suspended for,
until the actor is resumed. -/
structure WakeSys where
  sys : Sys
  future : Nat → FutureState
  waiter : Nat → Nat
  waits : Nat → Option Nat
  waiting : List WaitPc
  resolvers : List ResolvePc

inductive WakeEvent where
  | sys (e : SysEvent)
  | waitLoad (w f : Nat)
  | waitStore (w : Nat)
  | waitRecheck (w : Nat)
  | suspend (w : Nat)
  | decide (i f : Nat) (fails : Bool)
  | publish (i : Nat)
  | loadWaiter (i : Nat)
  | wake (i : Nat)

def settled : FutureState → Bool
  | .resolved | .failed => true
  | _ => false

namespace WakeSys

def setWaiting (s : WakeSys) (w : Nat) (pc : WaitPc) : WakeSys :=
  { s with waiting := s.waiting.set w pc }

def setResolver (s : WakeSys) (i : Nat) (pc : ResolvePc) : WakeSys :=
  { s with resolvers := s.resolvers.set i pc }

def setFuture (s : WakeSys) (f : Nat) (st : FutureState) : WakeSys :=
  { s with future := update s.future f st }

def free (s : WakeSys) : SysEvent → Bool
  | .worker _ .wait | .client _ (.wake _) => false
  | .worker w _ => s.waiting[w]? == some .out
  | .client i _ => s.resolvers[i]? == some .idle
  | .stop => true

end WakeSys

def resumes (s : Sys) (a : Nat) : SysEvent → Bool
  | .worker w .go =>
    match (s.workers[w]?).map Worker.pc with
    | some (.dispatch b) => b == a && s.shared.saved a
    | _ => false
  | _ => false

def wakeStep (s : WakeSys) : WakeEvent → Option WakeSys
  | .sys e =>
    if s.free e then
      (sysStep s.sys e).map (fun t =>
        { s with sys := t,waits := fun a => if resumes s.sys a e then none else s.waits a })
    else none
  | .waitLoad w f =>
    match s.sys.workers[w]?,s.waiting[w]? with
    | some ⟨.execute _,_⟩,some .out =>
      if settled (s.future f) then some s else some (s.setWaiting w (.pending f))
    | _,_ => none
  | .waitStore w =>
    match s.sys.workers[w]?,s.waiting[w]? with
    | some ⟨.execute a,_⟩,some (.pending f) =>
      some { s.setWaiting w (.stored f) with waiter := update s.waiter f a }
    | _,_ => none
  | .waitRecheck w =>
    match s.waiting[w]? with
    | some (.stored f) =>
      some (s.setWaiting w (if settled (s.future f) then .out else .suspend f))
    | _ => none
  | .suspend w =>
    match s.sys.workers[w]?,s.waiting[w]? with
    | some ⟨.execute a,_⟩,some (.suspend f) =>
      (sysStep s.sys (.worker w .wait)).map (fun t =>
        { s.setWaiting w .out with sys := t,waits := update s.waits a (some f) })
    | _,_ => none
  | .decide i f fails =>
    match s.sys.clients[i]?,s.resolvers[i]? with
    | some .idle,some .idle =>
      if s.future f = .pending then
        some ((s.setFuture f (if fails then .failing else .resolving)).setResolver i
          (.publish f fails))
      else some s
    | _,_ => none
  | .publish i =>
    match s.resolvers[i]? with
    | some (.publish f fails) =>
      some ((s.setFuture f (if fails then .failed else .resolved)).setResolver i (.load f))
    | _ => none
  | .loadWaiter i =>
    match s.resolvers[i]? with
    | some (.load f) =>
      some (s.setResolver i (if s.waiter f = 0 then .idle else .found (s.waiter f)))
    | _ => none
  | .wake i =>
    match s.resolvers[i]? with
    | some (.found a) =>
      if s.sys.shared.registered a then
        (sysStep s.sys (.client i (.wake a))).map (fun t =>
          { s.setResolver i .idle with sys := t })
      else some (s.setResolver i .idle)
    | _ => none

def wakeOk (s : WakeSys) : WakeEvent → Prop
  | .sys e => orderly s.sys e ∧ hasRoom s.sys e
  | _ => True

def wakeRoom (s : WakeSys) : WakeEvent → Prop
  | .sys e => hasRoom s.sys e
  | _ => True

instance (s : WakeSys) (e : WakeEvent) : Decidable (wakeOk s e) := by
  unfold wakeOk
  split <;> infer_instance

instance (s : WakeSys) (e : WakeEvent) : Decidable (wakeRoom s e) := by
  unfold wakeRoom
  split <;> infer_instance

/-! ### An actor whose wait has returned -/

/-- The positions of a worker that runs such an actor: it has not been resumed. -/
def WorkerPc.inWait (a : Nat) : WorkerPc → Prop
  | .waited b | .returned b .preempted | .requeue b | .dispatch b => b = a
  | _ => False

def WorkerPc.willRequeue (a : Nat) : WorkerPc → Prop
  | .waited b | .returned b .preempted | .requeue b => b = a
  | _ => False

structure Awaits (s : Sys) (a : Nat) : Prop where
  phase : ∀ x ∈ s.workers,x.pc.runs a ≠ 0 → x.pc.inWait a
  saved : s.shared.saved a = true ∨ ∃ x ∈ s.workers,x.pc = .waited a
  alive : s.shared.state a = .running ∨ s.shared.state a = .ready ∨
    s.shared.state a = .terminated ∨ ∃ x ∈ s.workers,x.pc.willRequeue a

section

variable {sh sh' : Shared} {a : Nat}

theorem share_eq_zero {b : Nat} (h : share b a = 0) : a ≠ b := by
  rintro rfl
  exact absurd (share_self a) (by omega)

/-- A worker that does not run the actor leaves its saved frame alone and takes it at most from
READY to RUNNING or from SUSPENDED to READY. -/
theorem workerStep_away {x y : Worker} {c : WorkerChoice}
    (hs : workerStep sh x c = some (sh',y)) (hx : x.pc.runs a = 0) :
    sh'.saved a = sh.saved a ∧ (y.pc.runs a ≠ 0 → y.pc.inWait a) ∧
      (sh'.state a = sh.state a ∨ sh'.state a = .running ∨ sh'.state a = .ready) := by
  obtain ⟨pc,d⟩ := x
  cases c with
  | steal v => cases hs
  | pop | overflow =>
    simp only [workerStep] at hs
    repeat' split at hs
    all_goals cases hs
    exact ⟨rfl,fun h => absurd rfl h,.inl rfl⟩
  | finish rc =>
    cases pc with
    | execute b =>
      have hne := share_eq_zero hx
      cases rc <;> cases hs
      · exact ⟨update_of_ne hne ..,fun h => absurd hx h,.inl rfl⟩
      · exact ⟨rfl,fun h => absurd hx h,.inl rfl⟩
      · exact ⟨update_of_ne hne ..,fun h => absurd hx h,.inl rfl⟩
    | _ => cases rc <;> cases hs
  | wait | crash =>
    cases pc with
    | execute b =>
      have hne := share_eq_zero hx
      simp only [workerStep] at hs
      split at hs <;> cases hs <;>
        exact ⟨by simp [Shared.setSaved,Shared.setState,hne],fun h => absurd hx h,
          .inl (by simp [Shared.setSaved,hne])⟩
    | _ => cases hs
  | go =>
    cases pc with
    | hold b =>
      simp only [workerStep] at hs
      split at hs <;> cases hs
      · by_cases hba : b = a
        · subst hba
          exact ⟨rfl,fun _ => rfl,.inr (.inl (setState_self ..))⟩
        · exact ⟨rfl,fun h => absurd (if_neg hba) h,.inl (setState_of_ne _ (Ne.symm hba) _)⟩
      · exact ⟨rfl,fun h => absurd rfl h,.inl rfl⟩
    | waited b =>
      cases hs
      exact ⟨update_of_ne (share_eq_zero hx) ..,fun h => absurd hx h,.inl rfl⟩
    | requeue b | suspend b =>
      cases hs
      exact ⟨rfl,fun h => absurd rfl h,.inl (setState_of_ne _ (share_eq_zero hx) _)⟩
    | rewake b =>
      simp only [workerStep] at hs
      split at hs <;> cases hs
      · by_cases hba : b = a
        · subst hba
          exact ⟨rfl,fun h => absurd rfl h,.inr (.inr (setState_self ..))⟩
        · exact ⟨rfl,fun h => absurd rfl h,.inl (setState_of_ne _ (Ne.symm hba) _)⟩
      · exact ⟨rfl,fun h => absurd rfl h,.inl rfl⟩
    | _ =>
      -- the others store no state, and go on with the actor or let it go
      simp only [workerStep] at hs
      repeat' split at hs
      all_goals cases hs
      all_goals first
        | exact ⟨rfl,fun h => absurd rfl h,.inl rfl⟩
        | exact ⟨rfl,fun h => absurd hx h,.inl rfl⟩
        | exact ⟨update_of_ne (share_eq_zero hx) ..,fun h => absurd hx h,.inl rfl⟩

theorem clientGo_saved {i : Nat} {c d : ClientPc} (hs : clientGo sh i c = some (sh',d)) :
    sh'.saved = sh.saved := by
  cases c <;> simp only [clientGo] at hs <;> repeat' split at hs
  all_goals
    cases hs
    try rfl

theorem clientBegin_saved {c : ClientChoice} {d : ClientPc}
    (hs : clientBegin sh c = some (sh',d)) : sh'.saved = sh.saved := by
  cases c <;> simp only [clientBegin] at hs <;> try split at hs
  all_goals
    cases hs
    try rfl

end

section

variable {s t : Sys} {a w : Nat} {x y : Worker} {sh : Shared}

theorem inWait_of_willRequeue {pc : WorkerPc} (h : pc.willRequeue a) : pc.inWait a := by
  cases pc with
  | returned b rc =>
    cases rc with
    | preempted => exact h
    | _ => exact h.elim
  | waited b => exact h
  | requeue b => exact h
  | _ => exact h.elim

theorem runs_of_inWait {pc : WorkerPc} (h : pc.inWait a) : pc.runs a = 1 := by
  cases pc with
  | returned b rc =>
    cases rc with
    | preempted => exact h ▸ share_self a
    | _ => exact h.elim
  | waited b | requeue b | dispatch b => exact h ▸ share_self a
  | _ => exact h.elim

theorem RunQueuesOk.sole_runner {strict : Prop} (h : RunQueuesOk strict s) {v : Nat}
    (hx : s.workers[w]? = some x) (hy : s.workers[v]? = some y) (hxa : x.pc.runs a ≠ 0)
    (hya : y.pc.runs a ≠ 0) : w = v := by
  obtain ⟨l,r,-,-,hbal⟩ := h
  by_contra hne
  have hle := add_le_tally hx hy hne (fun x => x.pc.runs a)
  have hone := (hbal a).atMostOne
  unfold runTally at hone
  omega

theorem Awaits.away (h : Awaits s a) {c : WorkerChoice} (hx : s.workers[w]? = some x)
    (hs : workerStep s.shared x c = some (sh,y)) (hxa : x.pc.runs a = 0) :
    Awaits { s with shared := sh,workers := s.workers.set w y } a := by
  obtain ⟨hsaved,hphase,hstate⟩ := workerStep_away hs hxa
  have hne : ∀ pc : WorkerPc,pc.runs a = 1 → x.pc ≠ pc := by
    rintro pc hpc rfl
    omega
  refine ⟨forall_mem_set h.phase hphase,?_,?_⟩
  · refine h.saved.imp (fun hsv => hsaved.trans hsv) (fun hex => ?_)
    exact exists_mem_set hx hex (fun hw => absurd hw (hne _ (share_self a)))
  · rcases hstate with hst | hst | hst
    · rw [hst]
      refine h.alive.imp_right (.imp_right (.imp_right (fun hex => ?_)))
      refine exists_mem_set hx hex (fun hw => ?_)
      exact absurd (runs_of_inWait (inWait_of_willRequeue hw)) (by omega)
    · exact .inl hst
    · exact .inr (.inl hst)

theorem Awaits.runner (h : Awaits s a) (hq : RunQueuesOk True s) {c : WorkerChoice}
    (hx : s.workers[w]? = some x) (hs : workerStep s.shared x c = some (sh,y))
    (hxa : x.pc.inWait a) (hres : resumes s a (.worker w c) = false) :
    Awaits { s with shared := sh,workers := s.workers.set w y } a := by
  have hmem : y ∈ s.workers.set w y := mem_set_new hx
  obtain ⟨pc,d⟩ := x
  have hkeep (hpc : pc ≠ .waited a) :
      s.shared.saved a = true ∨ ∃ z ∈ s.workers.set w y,z.pc = .waited a :=
    h.saved.imp_right (fun hex => exists_mem_set hx hex (fun hw => absurd hw hpc))
  have hgo : c = .go := by
    cases pc with
    | poll | execute b => exact hxa.elim
    | _ => cases c with
      | go => rfl
      | finish rc => cases rc <;> cases hs
      | overflow => simp [workerStep] at hs
      | _ => cases hs
  subst hgo
  cases pc with
  | waited b =>
    obtain rfl : b = a := hxa
    cases hs
    exact ⟨forall_mem_set h.phase (fun _ => rfl),.inl (update_self ..),
      .inr (.inr (.inr ⟨_,hmem,rfl⟩))⟩
  | returned b rc =>
    cases rc with
    | preempted =>
      obtain rfl : b = a := hxa
      have hsaved := hkeep (by simp)
      simp only [workerStep] at hs
      repeat' split at hs
      · rename_i hor
        cases hs
        exact ⟨forall_mem_set h.phase (fun h0 => absurd rfl h0),hsaved,
          .inr (.inr (.inl (by simpa using hor)))⟩
      · cases hs
        exact ⟨forall_mem_set h.phase (fun _ => rfl),hsaved,.inr (.inr (.inr ⟨_,hmem,rfl⟩))⟩
      · rename_i hrc
        exact absurd trivial hrc
    | _ => exact hxa.elim
  | requeue b =>
    obtain rfl : b = a := hxa
    have hsaved := hkeep (by simp)
    cases hs
    exact ⟨forall_mem_set h.phase (fun h0 => absurd rfl h0),hsaved,.inr (.inl (update_self ..))⟩
  | dispatch b =>
    obtain rfl : b = a := hxa
    -- the frame is saved, since no other worker runs the actor
    have hsv : s.shared.saved b = true := by
      refine h.saved.resolve_right (fun hrun => ?_)
      obtain ⟨z,hz,hzw⟩ := hrun
      obtain ⟨v,hv⟩ := mem_iff_getElem?.mp hz
      have hvw := hq.sole_runner (a := b) hv hx (by simp [hzw,WorkerPc.runs])
        (by simp [WorkerPc.runs])
      subst hvw
      rw [hx,some.injEq] at hv
      subst hv
      cases hzw
    simp [resumes,hx,hsv] at hres
  | _ => exact hxa.elim

theorem Awaits.setState (h : Awaits s a) {clients : List ClientPc}
    (hsaved : sh.saved = s.shared.saved) (hst : sh.state a = s.shared.state a ∨ sh.state a = .ready
      ∨ sh.state a = .terminated ∨ ∃ x ∈ s.workers,x.pc.willRequeue a) :
    Awaits { s with shared := sh,clients := clients } a := by
  refine ⟨h.phase,?_,?_⟩
  · rw [hsaved]
    exact h.saved
  · rcases hst with hst | hst
    · rw [hst]
      exact h.alive
    · exact .inr hst

theorem Awaits.clientGo (h : Awaits s a) {i : Nat} {c d : ClientPc}
    (hi : s.clients[i]? = some c) (hs : clientGo s.shared i c = some (sh,d))
    (hord : orderly s (.client i .go)) :
    Awaits { s with shared := sh,clients := s.clients.set i d } a := by
  refine h.setState (clientGo_saved hs) ?_
  rcases clientGo_state hs with hst | ⟨b,st,hstore,hst⟩
  · exact .inl (by rw [hst])
  · by_cases hab : a = b
    · subst hab
      rw [hst,update_self]
      cases hstore with
      | restart =>
        simp only [orderly,hi] at hord
        have halive := h.alive
        simp only [hord,reduceCtorEq,false_or] at halive
        exact .inr (.inr (.inr halive))
      | terminate | exceeded => exact .inr (.inr (.inl rfl))
      | _ => exact .inr (.inl rfl)
    · exact .inl (by rw [hst,update_of_ne hab])

theorem Awaits.step (h : Awaits s a) (hq : RunQueuesOk True s) {e : SysEvent}
    (hord : orderly s e) (hres : resumes s a e = false) (hs : sysStep s e = some t) :
    Awaits t a := by
  cases sysStep_moves hs with
  | worker hx hw =>
    rename_i x y sh
    by_cases hxa : x.pc.runs a = 0
    · exact h.away hx hw hxa
    · exact h.runner hq hx hw (h.phase x (mem_of_getElem? hx) hxa) hres
  | steal hx hy hpc hne hd =>
    rename_i w v b x y d
    have hxv : (s.workers.set v ⟨y.pc,d⟩)[w]? = some x := by rw [getElem?_set_ne hne,hx]
    refine ⟨forall_mem_set (forall_mem_set h.phase (h.phase y (mem_of_getElem? hy)))
      (fun h0 => absurd rfl h0),?_,?_⟩
    · refine h.saved.imp_right (fun hex => ?_)
      exact exists_mem_set hxv (exists_mem_set hy hex id) (fun hw => by simp [hpc] at hw)
    · refine h.alive.imp_right (.imp_right (.imp_right (fun hex => ?_)))
      refine exists_mem_set hxv (exists_mem_set hy hex id) (fun hw => ?_)
      rw [hpc] at hw
      exact hw.elim
  | go hi hc => exact h.clientGo hi hc hord
  | call hi hc => exact h.setState (clientBegin_saved hc) (.inl (by rw [clientBegin_state hc]))
  | stop => exact ⟨h.phase,h.saved,h.alive⟩

theorem awaits_of_wait (hq : RunQueuesOk True s) {d : List Nat}
    (hx : s.workers[w]? = some ⟨.execute a,d⟩)
    (hs : sysStep s (.worker w .wait) = some t) : Awaits t a := by
  cases sysStep_moves hs with
  | worker hx' hw =>
    rename_i x y sh
    rw [hx,some.injEq] at hx'
    subst hx'
    have hy : y.pc = .waited a := by
      simp only [workerStep,some.injEq,Prod.mk.injEq] at hw
      rw [← hw.2]
    have hmem : y ∈ s.workers.set w y := mem_set_new hx
    have hwill : y.pc.willRequeue a := by simp [hy,WorkerPc.willRequeue]
    refine ⟨fun z hz hza => ?_,.inr ⟨y,hmem,hy⟩,.inr (.inr (.inr ⟨y,hmem,hwill⟩))⟩
    obtain ⟨v,hv⟩ := mem_iff_getElem?.mp hz
    by_cases hvw : w = v
    · subst hvw
      obtain rfl : y = z := by
        rw [getElem?_set_self (List.getElem?_eq_some_iff.mp hx).1] at hv
        exact Option.some.inj hv
      simp [hy,WorkerPc.inWait]
    · rw [getElem?_set_ne hvw] at hv
      exact absurd (hq.sole_runner hx hv (by simp [WorkerPc.runs]) hza) hvw

end

/-! ### Whole runs -/

/-- The scheduler has started and no wait has begun; futures and resolvers are in any state. -/
structure WakeStarted (s : WakeSys) : Prop where
  sys : Started s.sys
  waits : ∀ a,s.waits a = none
  waiting : ∀ (w : Nat) (x : Worker),s.sys.workers[w]? = some x → s.waiting[w]? = some .out

structure AwaitOk (s : WakeSys) : Prop where
  queues : RunQueuesOk True s.sys
  awaits : ∀ a,s.waits a ≠ none → Awaits s.sys a
  waiting : ∀ (w : Nat) (x : Worker),s.sys.workers[w]? = some x → (∀ a,x.pc ≠ .execute a) →
    s.waiting[w]? = some .out

/-- The worker needs only its own next steps to make the actor READY and to hold it for its deque.
-/
def Requeues (s : WakeSys) (w a : Nat) : Prop :=
  ∃ n t,runAll wakeStep (fun _ _ => True) (List.replicate n (.sys (.worker w .go))) s = some t ∧
    t.sys.shared.state a = .ready ∧ (t.sys.workers[w]?).map Worker.pc = some (.push a)

/-- The actor is RUNNING, READY in a run queue, terminated, or about to be queued by a worker. -/
def WakeupOk (s : WakeSys) (a : Nat) : Prop :=
  s.sys.shared.state a = .running ∨
  (s.sys.shared.state a = .ready ∧ (s.sys.shared.running = true →
    ∃ l r,Linked s.sys.shared.nextRunnable s.sys.shared.overflowHead l ∧
      Linked s.sys.shared.nextRunnable (Drain.pointer s.sys.shared.drain) r ∧
      queuedTally s.sys l r a = 1)) ∨
  s.sys.shared.state a = .terminated ∨ ∃ w,Requeues s w a

section

variable {s t : WakeSys} {a w : Nat}

theorem WakeStarted.awaitOk (h : WakeStarted s) : AwaitOk s :=
  ⟨h.sys.runQueuesOk True,fun a ha => absurd (h.waits a) ha,fun w x hx _ => h.waiting w x hx⟩

theorem sysStep_pc {s t : Sys} {e : SysEvent} (hs : sysStep s e = some t) {v : Nat} {y : Worker}
    (hy : t.workers[v]? = some y) :
    (∃ c,e = .worker v c) ∨ ∃ x,s.workers[v]? = some x ∧ x.pc = y.pc := by
  cases sysStep_moves hs with
  | worker hx hw =>
    rename_i w c x z sh
    by_cases hwv : w = v
    · exact .inl ⟨c,by rw [hwv]⟩
    · exact .inr ⟨y,by rwa [getElem?_set_ne hwv] at hy,rfl⟩
  | steal hx hz hpc hne hd =>
    rename_i w u b x z d
    by_cases hwv : w = v
    · exact .inl ⟨_,by rw [hwv]⟩
    · rw [getElem?_set_ne hwv] at hy
      by_cases huv : u = v
      · subst huv
        rw [getElem?_set_self (List.getElem?_eq_some_iff.mp hz).1,some.injEq] at hy
        exact .inr ⟨z,hz,by rw [← hy]⟩
      · exact .inr ⟨y,by rwa [getElem?_set_ne huv] at hy,rfl⟩
  | go hi hc | call hi hc | stop => exact .inr ⟨y,hy,rfl⟩

theorem AwaitOk.sysStep (h : AwaitOk s) {e : SysEvent} (hok : wakeOk s (.sys e))
    (hs : wakeStep s (.sys e) = some t) : AwaitOk t := by
  simp only [wakeStep] at hs
  split at hs
  · rename_i hfree
    rw [map_eq_some_iff] at hs
    obtain ⟨u,hu,rfl⟩ := hs
    refine ⟨h.queues.step hok.1 (fun _ => hok.2) hu,fun a ha => ?_,fun v y hy hpc => ?_⟩
    · dsimp only at ha
      split at ha
      · exact absurd rfl ha
      · rename_i hres
        exact (h.awaits a ha).step h.queues hok.1 (Bool.eq_false_iff.mpr hres) hu
    · rcases sysStep_pc hu hy with ⟨c,rfl⟩ | ⟨x,hx,hxy⟩
      · have hout : (s.waiting[v]? == some .out) = true := by
          cases c with
          | wait => cases hfree
          | _ => exact hfree
        simpa using hout
      · exact h.waiting v x hx (by rwa [hxy])
  · cases hs

variable {x : Worker} {d : List Nat}

theorem AwaitOk.setWaiting (h : AwaitOk s) {p : WaitPc} (waiter : Nat → Nat)
    (hx : s.sys.workers[w]? = some x) (hpc : x.pc = .execute a) :
    AwaitOk { s.setWaiting w p with waiter := waiter } := by
  refine ⟨h.queues,h.awaits,fun v y hy hne => ?_⟩
  have hwv : w ≠ v := by
    rintro rfl
    rw [show s.sys.workers[w]? = some y from hy,some.injEq] at hx
    exact hne a (hx ▸ hpc)
  exact (getElem?_set_ne hwv).trans (h.waiting v y hy hne)

theorem AwaitOk.recheck (h : AwaitOk s) {p : WaitPc} {f : Nat}
    (hw : s.waiting[w]? = some (.stored f)) : AwaitOk (s.setWaiting w p) := by
  refine ⟨h.queues,h.awaits,fun v y hy hne => ?_⟩
  have hwv : w ≠ v := by
    rintro rfl
    have hout := h.waiting w y hy hne
    rw [hw] at hout
    cases hout
  exact (getElem?_set_ne hwv).trans (h.waiting v y hy hne)

theorem AwaitOk.suspend (h : AwaitOk s) {f : Nat} (hx : s.sys.workers[w]? = some ⟨.execute a,d⟩)
    (hp : s.waiting[w]? = some (.suspend f)) {u : Sys}
    (hu : SmalltalkA.sysStep s.sys (.worker w .wait) = some u) :
    AwaitOk { s.setWaiting w .out with sys := u,waits := update s.waits a (some f) } := by
  have hord : orderly s.sys (.worker w .wait) := trivial
  have hroom : hasRoom s.sys (.worker w .wait) := trivial
  refine ⟨h.queues.step hord (fun _ => hroom) hu,fun b hb => ?_,fun v y hy hpc => ?_⟩
  · by_cases hba : b = a
    · subst hba
      exact awaits_of_wait h.queues hx hu
    · have hb' : s.waits b ≠ none := fun h0 => hb ((update_of_ne hba ..).trans h0)
      exact (h.awaits b hb').step h.queues hord rfl hu
  · by_cases hwv : w = v
    · subst hwv
      exact getElem?_set_self (List.getElem?_eq_some_iff.mp hp).1
    · rcases sysStep_pc hu hy with ⟨c,he⟩ | ⟨x,hx',hxy⟩
      · cases he
        exact absurd rfl hwv
      · exact (getElem?_set_ne hwv).trans (h.waiting v x hx' (by rwa [hxy]))

theorem AwaitOk.wake (h : AwaitOk s) {i : Nat} {p : ResolvePc} {u : Sys}
    (hu : SmalltalkA.sysStep s.sys (.client i (.wake a)) = some u) :
    AwaitOk { s.setResolver i p with sys := u } := by
  have hord : orderly s.sys (.client i (.wake a)) := trivial
  have hroom : hasRoom s.sys (.client i (.wake a)) := trivial
  refine ⟨h.queues.step hord (fun _ => hroom) hu,fun b hb => ?_,fun v y hy hpc => ?_⟩
  · exact (h.awaits b hb).step h.queues hord rfl hu
  · rcases sysStep_pc hu hy with ⟨c,he⟩ | ⟨x,hx,hxy⟩
    · cases he
    · exact h.waiting v x hx (by rwa [hxy])

theorem AwaitOk.step (h : AwaitOk s) {e : WakeEvent} (hok : wakeOk s e)
    (hs : wakeStep s e = some t) : AwaitOk t := by
  cases e with
  | sys e => exact h.sysStep hok hs
  | waitLoad w f =>
    simp only [wakeStep] at hs
    repeat' split at hs
    all_goals cases hs
    · exact h
    · rename_i b d hx _ _
      exact h.setWaiting s.waiter hx rfl
  | waitStore w =>
    simp only [wakeStep] at hs
    split at hs <;> cases hs
    rename_i b d f hx _
    exact h.setWaiting _ hx rfl
  | waitRecheck w =>
    simp only [wakeStep] at hs
    split at hs <;> cases hs
    rename_i f hw
    exact h.recheck hw
  | suspend w =>
    simp only [wakeStep] at hs
    split at hs
    · rename_i b d f hx hp
      rw [map_eq_some_iff] at hs
      obtain ⟨u,hu,rfl⟩ := hs
      exact h.suspend hx hp hu
    · cases hs
  | wake i =>
    simp only [wakeStep] at hs
    repeat' split at hs
    · rw [map_eq_some_iff] at hs
      obtain ⟨u,hu,rfl⟩ := hs
      exact h.wake hu
    · cases hs
      exact ⟨h.queues,h.awaits,h.waiting⟩
    · cases hs
  | decide i f fails | publish i | loadWaiter i =>
    simp only [wakeStep] at hs
    repeat' split at hs
    all_goals
      cases hs
      try exact ⟨h.queues,h.awaits,h.waiting⟩

theorem wakeStep_go {y : Worker} {sh : Shared} (hx : s.sys.workers[w]? = some x)
    (hout : s.waiting[w]? = some .out) (hs : workerStep s.sys.shared x .go = some (sh,y)) :
    ∃ t,wakeStep s (.sys (.worker w .go)) = some t ∧ t.sys.shared = sh ∧
      t.sys.workers[w]? = some y ∧ t.waiting[w]? = some .out := by
  have hfree : s.free (.worker w .go) = true := by simp [WakeSys.free,hout]
  have hstep : sysStep s.sys (.worker w .go) =
      some { s.sys with shared := sh,workers := s.sys.workers.set w y } := by
    simp only [sysStep,hx,bind_some,hs,map_some]
  rw [wakeStep,if_pos hfree,hstep]
  exact ⟨_,rfl,rfl,getElem?_set_self (List.getElem?_eq_some_iff.mp hx).1,hout⟩

theorem Requeues.cons (hs : wakeStep s (.sys (.worker w .go)) = some t) (h : Requeues t w a) :
    Requeues s w a := by
  obtain ⟨n,u,hu,hr⟩ := h
  exact ⟨n + 1,u,by simpa [replicate_succ,runAll,hs] using hu,hr⟩

theorem requeues_of_requeue (hx : s.sys.workers[w]? = some ⟨.requeue a,d⟩)
    (hout : s.waiting[w]? = some .out) : Requeues s w a := by
  obtain ⟨t,ht,hsh,hw,-⟩ := wakeStep_go hx hout rfl
  exact Requeues.cons ht ⟨0,t,rfl,by rw [hsh]; exact setState_self ..,by rw [hw]; rfl⟩

theorem requeues_of_preempted (hx : s.sys.workers[w]? = some ⟨.returned a .preempted,d⟩)
    (hout : s.waiting[w]? = some .out) (hst : s.sys.shared.state a ≠ .terminated) :
    Requeues s w a := by
  have hgo : workerStep s.sys.shared ⟨.returned a .preempted,d⟩ .go =
      some (s.sys.shared,⟨.requeue a,d⟩) := by simp [workerStep,hst]
  obtain ⟨t,ht,-,hw,hout'⟩ := wakeStep_go hx hout hgo
  exact Requeues.cons ht (requeues_of_requeue hw hout')

theorem requeues_of_waited (hx : s.sys.workers[w]? = some ⟨.waited a,d⟩)
    (hout : s.waiting[w]? = some .out) (hst : s.sys.shared.state a ≠ .terminated) :
    Requeues s w a := by
  obtain ⟨t,ht,hsh,hw,hout'⟩ := wakeStep_go hx hout rfl
  exact Requeues.cons ht (requeues_of_preempted hw hout' (by rw [hsh]; exact hst))

theorem AwaitOk.requeues (h : AwaitOk s) (hx : s.sys.workers[w]? = some x)
    (hwill : x.pc.willRequeue a) (hst : s.sys.shared.state a ≠ .terminated) :
    Requeues s w a := by
  obtain ⟨pc,d⟩ := x
  have hout := h.waiting w _ hx
  cases pc with
  | waited b =>
    obtain rfl : b = a := hwill
    exact requeues_of_waited hx (hout (by simp)) hst
  | returned b rc =>
    cases rc with
    | preempted =>
      obtain rfl : b = a := hwill
      exact requeues_of_preempted hx (hout (by simp)) hst
    | _ => exact hwill.elim
  | requeue b =>
    obtain rfl : b = a := hwill
    exact requeues_of_requeue hx (hout (by simp))
  | _ => exact hwill.elim

theorem AwaitOk.wakeupOk (h : AwaitOk s) (ha : s.waits a ≠ none) : WakeupOk s a := by
  rcases (h.awaits a ha).alive with hst | hst | hst | ⟨x,hx,hwill⟩
  · exact .inl hst
  · obtain ⟨l,r,hl,hr,hbal⟩ := h.queues
    refine .inr (.inl ⟨hst,fun hrun => ⟨l,r,hl,hr,?_⟩⟩)
    have hne := (hbal a).ready ⟨trivial,hrun⟩ hst
    have hone := (hbal a).atMostOne
    omega
  · exact .inr (.inr (.inl hst))
  · by_cases hst : s.sys.shared.state a = .terminated
    · exact .inr (.inr (.inl hst))
    · obtain ⟨w,hw⟩ := mem_iff_getElem?.mp hx
      exact .inr (.inr (.inr ⟨w,h.requeues hw hwill hst⟩))

/-- `twoWorkers` with futures that nobody waits for yet. -/
def twoWorkersWaiting : WakeSys where
  sys := twoWorkers
  future := fun _ => .pending
  waiter := fun _ => 0
  waits := fun _ => none
  waiting := [.out,.out]
  resolvers := [.idle,.idle]

theorem twoWorkersWaiting_started : WakeStarted twoWorkersWaiting where
  sys := twoWorkers_started
  waits := fun _ => rfl
  waiting := fun w x hx => by
    match w with
    | 0 | 1 => rfl
    | w + 2 => simp [twoWorkersWaiting,twoWorkers] at hx

/-- Actor 2, run by worker 0, waits for future 1, which thread 1 then resolves. -/
def waitAndResolve : List WakeEvent :=
  sendAndClaim.map .sys ++ [.waitLoad 0 1,.waitStore 0,.waitRecheck 0,.suspend 0,
    .decide 1 1 false,.publish 1]

/-- Thread 1 wakes the actor before worker 0 has left the wait; worker 1 finds nothing to do and
suspends the actor after worker 0 has stored READY. -/
def wakeTooEarly : List WakeEvent :=
  waitAndResolve ++ .loadWaiter 1 :: .wake 1 :: List.replicate 3 (.sys (.client 1 .go)) ++
  .sys (.worker 1 .overflow) :: List.replicate 6 (.sys (.worker 1 .go)) ++
  List.replicate 4 (.sys (.worker 0 .go)) ++ List.replicate 2 (.sys (.worker 1 .go)) ++
  [.sys (.worker 0 .pop),.sys (.worker 0 .go)]

theorem wakeStep_go_polling (h : ∀ x ∈ s.sys.workers,x.pc = .poll) (w : Nat) :
    wakeStep s (.sys (.worker w .go)) = none := by
  simp only [wakeStep,sysStep]
  split
  · cases hx : s.sys.workers[w]? with
    | none => rfl
    | some x => simp [workerStep,h x (mem_of_getElem? hx)]
  · rfl

theorem not_wakeupOk_of_polling (h : ∀ x ∈ s.sys.workers,x.pc = .poll)
    (hst : s.sys.shared.state a = .suspended) : ¬ WakeupOk s a := by
  rintro (hrun | ⟨hready,-⟩ | hterm | ⟨w,n,t,ht,hready,-⟩)
  · simp [hst] at hrun
  · simp [hst] at hready
  · simp [hst] at hterm
  · cases n with
    | zero =>
      cases ht
      simp [hst] at hready
    | succ n => simp [replicate_succ,runAll,wakeStep_go_polling h w] at ht

end

end SmalltalkA
