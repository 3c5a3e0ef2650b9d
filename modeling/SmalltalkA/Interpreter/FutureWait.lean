import SmalltalkA.Actor.State
import SmalltalkA.Interpreter.Preemption

/-! `Future>>wait` (primitive 201), the suspension it asks for, and what the worker loop and
`sta_interpret_resume` make of it. -/

set_option autoImplicit false

namespace SmalltalkA

open Runs

/-- `STA_Future` as `wait` and its settling calls use it; `transfer` says whether the result lies in
a transfer heap. -/
structure Future where
  state : FutureState
  resultBuf : List Oop
  transfer : Bool
  waiterActorId : Nat

/-- The VM's future table and the fields of the waiting actor. -/
structure Futures where
  table : Nat → Option Future
  actorId : Nat
  isRoot : Bool
  actorState : ActorState

/-- What `wait` relies on: copying a result onto the actor's heap, handing an exception to the
handler chain (none if unhandled), and what other threads do to the future between the two loads of
its state. -/
structure WaitParams where
  nilOop : Oop
  copy : Exec Futures → Oop → Oop × Exec Futures
  signal : Exec Futures → Oop → Option (Exec Futures)
  race : Future → Future

def primFutureWaitIndex : Nat := 201

def Exec.setRest {ω : Type} (e : Exec ω) (r : ω) : Exec ω := ⟨{ e.world with rest := r },e.stack⟩

def Futures.set (r : Futures) (id : Nat) (f : Option Future) : Futures :=
  { r with table := Function.update r.table id f }

/-- The receiver's `futureId`; `some none` if it is no Future. -/
def futureId (m : Memory) (receiver : Oop) : Option (Option Nat) :=
  match m receiver with
  | none => none
  | some obj =>
    if obj.classIndex ≠ clsFuture then some none
    else match obj.payload[0]? with
      | none => none
      | some o => if isSmallInt o then some (some (smallIntVal o % 2 ^ 32).toNat) else some none

/-- `consume_future`. -/
def consumeFuture (e : Exec Futures) (id : Nat) : Exec Futures :=
  e.setRest (e.world.rest.set id none)

/-- `handle_resolved` with `copy_future_result`. -/
def handleResolved (p : WaitParams) (e : Exec Futures) (id : Nat) (f : Future) :
    PrimResult Futures :=
  let val := f.resultBuf.getD 0 0
  let (result,e) := if f.transfer then p.copy e val else (val,e)
  .success result (consumeFuture e id)

/-- `handle_failed` with `signal_future_failure`. -/
def handleFailed (p : WaitParams) (e : Exec Futures) (id : Nat) (f : Future) :
    PrimResult Futures :=
  let reason := f.resultBuf.getD 0 p.nilOop
  let e := consumeFuture e id
  match e.world.alloc clsFutureFailure 2 with
  | none => .aborted
  | some (exc,w) =>
    match w.setSlots exc 0 [reason,p.nilOop] with
    | .error _ => .aborted
    | .ok w =>
      match p.signal ⟨w,e.stack⟩ exc with
      | some e => .unwound e
      | none => .aborted

/-- CAS `RUNNING` to `SUSPENDED`. -/
def markSuspended (e : Exec Futures) : Exec Futures :=
  if e.world.rest.actorState = .running then
    e.setRest { e.world.rest with actorState := .suspended }
  else e

/-- `prim_future_wait` once the future is found. -/
def waitOn (p : WaitParams) (e : Exec Futures) (id : Nat) (f : Future) : PrimResult Futures :=
  match f.state with
  | .resolved => handleResolved p e id f
  | .failed => handleFailed p e id f
  | _ =>
    if e.world.rest.isRoot then .failure primBadReceiver e
    else
      let f := p.race { f with waiterActorId := e.world.rest.actorId }
      let e := e.setRest (e.world.rest.set id (some f))
      match f.state with
      | .resolved => handleResolved p e id f
      | .failed => handleFailed p e id f
      | _ => .failure primSuspend (markSuspended e)

/-- `prim_future_wait`. -/
def primFutureWait (p : WaitParams) : Primitive Futures := fun e args =>
  let receiver := args.headD 0
  if isImmediate receiver then .failure primBadReceiver e
  else match futureId e.world.mem receiver with
    | none => .aborted
    | some none => .failure primBadReceiver e
    | some (some id) =>
      match e.world.rest.table id with
      | none => .failure primBadReceiver e
      | some f => waitOn p e id f

/-! ### The schedule -/

/-- `wake_waiter` for the actor at hand. -/
def wakeWaiter (r : Futures) (waiter : Nat) : Futures :=
  if waiter ≠ 0 ∧ waiter = r.actorId ∧ r.actorState = .suspended then
    { r with actorState := .ready }
  else r

/-- `sta_future_resolve` and `sta_future_fail`: the first settling call wins. -/
def settleFuture (state : FutureState) (buf : List Oop) (transfer : Bool) (r : Futures)
    (id : Nat) : Futures :=
  match r.table id with
  | some f =>
    if f.state = .pending then
      wakeWaiter (r.set id (some ⟨state,buf,transfer,f.waiterActorId⟩)) f.waiterActorId
    else r
  | none => r

/-- What the other threads do: settle a future, or take the actor from a run queue. -/
inductive Event where
  | resolve (id : Nat) (buf : List Oop) (transfer : Bool)
  | fail (id : Nat) (buf : List Oop)
  | claim

/-- `worker_thread_main` after a preemption: the actor is made ready and pushed to the deque. -/
def reenqueue (e : Exec Futures) : Exec Futures :=
  if e.world.rest.actorState = .terminated then e
  else e.setRest { e.world.rest with actorState := .ready }

/-- The loop state in which a schedule first runs the actor again, at its saved frame. -/
def resumedBy : List Event → Exec Futures → Option (Machine Futures)
  | [],_ => none
  | .resolve id buf transfer :: rest,e =>
    resumedBy rest (e.setRest (settleFuture .resolved buf transfer e.world.rest id))
  | .fail id buf :: rest,e =>
    resumedBy rest (e.setRest (settleFuture .failed buf false e.world.rest id))
  | .claim :: rest,e =>
    if e.world.rest.actorState = .ready then
      some (enterLoop (e.setRest { e.world.rest with actorState := .running }))
    else resumedBy rest e

section

variable (env : Env Futures) (p : WaitParams)

/-- A scheduled actor executes the send `c` of `wait`, which suspends and leaves `e`; nobody has
terminated the actor. -/
structure SuspendedSend (m : Machine Futures) (c : Call) (e : Exec Futures) : Prop where
  primitive : env.primitives primFutureWaitIndex = some (primFutureWait p)
  charged : m.reductions + 1 < 1000
  send : ∃ f fs cm isSuper l w,m.exec.stack.frames = f :: fs ∧
    env.methods f.act.method = some cm ∧
    control (Opcode.ofCode (decodeInsn cm.bytecodes f.act.pc).opcode) = .send isSuper ∧
    prepareSend env isSuper cm (decodeInsn cm.bytecodes f.act.pc) f.act m.exec.world =
      .ok (c,l,w) ∧
    primFutureWait p (m.exec.setLocals l w) (c.receiver :: c.args) = .failure primSuspend e
  hasPrim : methodHasPrim c.code.header = true
  isWait : calleePrimitive c.code = primFutureWaitIndex
  live : e.world.rest.actorState ≠ .terminated

/-- The actor goes on as if `wait` had been called just now: with the value in place of the
receiver, or with the exception signalled. -/
def AsIfSettled (c : Call) (m : Machine Futures) : Prop :=
  AlikeResults (.ok m)
    (afterPrimitive env (sourceMode true) m c (primFutureWait p m.exec (c.receiver :: c.args)))

/-- A wait that suspends in state `m` is transparent to the caller, whatever the schedule. -/
def WaitTransparent (m : Machine Futures) : Prop :=
  ∀ c e,SuspendedSend env p m c e → ∀ events m',resumedBy events (reenqueue e) = some m' →
    AsIfSettled env p c m'

end

/-! ### What a resumed actor finds -/

section

variable {env : Env Futures} {p : WaitParams} {e : Exec Futures}

def Exec.depth {ω : Type} (e : Exec ω) : Option Nat :=
  e.stack.frames.head?.map (fun f => f.act.stack.length)

theorem depth_pushValue {ω : Type} (e : Exec ω) (v : Oop) :
    (e.pushValue v).depth = e.depth.map (· + 1) := by
  unfold Exec.depth Exec.pushValue Exec.setLocals CallStack.setAct
  cases h : e.stack.frames with
  | nil => simp [h]
  | cons f fs => simp [Locals.push]

theorem pushValue_not_alike {ω : Type} {m : Machine ω} {e : Exec ω} (hd : e.depth = m.exec.depth)
    (hne : m.exec.stack.frames ≠ []) (v : Oop) :
    ¬Alike m { m with exec := e.pushValue v } := by
  rintro ⟨h,-⟩
  have hdepth := congrArg Exec.depth h
  simp only [depth_pushValue,hd] at hdepth
  obtain ⟨f,fs,hf⟩ := List.exists_cons_of_ne_nil hne
  simp [Exec.depth,hf] at hdepth

/-- Copying a result moves objects, never the expression stack's end. -/
def CopyKeepsDepth (p : WaitParams) : Prop := ∀ e v,(p.copy e v).2.depth = e.depth

theorem handleResolved_success (hcopy : CopyKeepsDepth p) (e : Exec Futures) (id : Nat)
    (f : Future) :
    ∃ v e',handleResolved p e id f = .success v e' ∧ e'.depth = e.depth := by
  unfold handleResolved
  split
  · exact ⟨_,_,rfl,hcopy e _⟩
  · exact ⟨_,_,rfl,rfl⟩

theorem handleFailed_leaves (p : WaitParams) (e : Exec Futures) (id : Nat) (f : Future) :
    (∃ e',handleFailed p e id f = .unwound e') ∨ handleFailed p e id f = .aborted := by
  obtain ⟨r,hr⟩ : ∃ r,handleFailed p e id f = r := ⟨_,rfl⟩
  rw [hr]
  simp only [handleFailed] at hr
  repeat' split at hr
  all_goals simp [← hr]

variable (env) in
theorem waitOn_changes (hcopy : CopyKeepsDepth p) {m : Machine Futures}
    (hne : m.exec.stack.frames ≠ []) (hroot : m.exec.world.rest.isRoot = false) (c : Call)
    (id : Nat) (f : Future) :
    ¬AlikeResults (.ok m) (afterPrimitive env (sourceMode true) m c (waitOn p m.exec id f)) := by
  have resolved : ∀ r f,¬AlikeResults (.ok m) (afterPrimitive env (sourceMode true) m c
      (handleResolved p (m.exec.setRest r) id f)) := by
    intro r f
    obtain ⟨v,e',hv,hd⟩ := handleResolved_success hcopy (m.exec.setRest r) id f
    rw [hv]
    exact pushValue_not_alike hd hne v
  have failed : ∀ r f,¬AlikeResults (.ok m) (afterPrimitive env (sourceMode true) m c
      (handleFailed p (m.exec.setRest r) id f)) := by
    intro r f h
    rcases handleFailed_leaves p (m.exec.setRest r) id f with ⟨e',he⟩ | he
    all_goals
      rw [he] at h
      exact h
  unfold waitOn
  split
  · exact resolved m.exec.world.rest f
  · exact failed m.exec.world.rest f
  · rw [hroot]
    simp only [Bool.false_eq_true,if_false]
    split
    · exact resolved _ _
    · exact failed _ _
    · exact fun h => h

theorem markSuspended_eq (e : Exec Futures) :
    ∃ s,markSuspended e = e.setRest { e.world.rest with actorState := s } := by
  unfold markSuspended
  split
  · exact ⟨_,rfl⟩
  · exact ⟨e.world.rest.actorState,rfl⟩

theorem waitOn_suspended {id : Nat} {f : Future} {e' : Exec Futures}
    (h : waitOn p e id f = .failure primSuspend e') :
    ∃ f' r,r.table id = some f' ∧ r.isRoot = false ∧ e' = e.setRest r := by
  have resolved : ∀ e₁ f,handleResolved p e₁ id f ≠ .failure primSuspend e' := by
    intro e₁ f h
    cases h
  have failed : ∀ e₁ f,handleFailed p e₁ id f ≠ .failure primSuspend e' := by
    intro e₁ f h
    rcases handleFailed_leaves p e₁ id f with ⟨e₂,he⟩ | he
    all_goals
      rw [he] at h
      cases h
  simp only [waitOn] at h
  split at h
  · exact absurd h (resolved _ _)
  · exact absurd h (failed _ _)
  · split at h
    · cases h
    · rename_i hroot
      split at h
      · exact absurd h (resolved _ _)
      · exact absurd h (failed _ _)
      · cases h
        obtain ⟨s,hs⟩ := markSuspended_eq (e.setRest (e.world.rest.set id (some (p.race
          { f with waiterActorId := e.world.rest.actorId }))))
        rw [hs]
        refine ⟨p.race { f with waiterActorId := e.world.rest.actorId },_,?_,?_,rfl⟩
        · exact Function.update_self ..
        · exact Bool.eq_false_iff.mpr hroot

theorem wait_suspended {args : List Oop} {e' : Exec Futures}
    (h : primFutureWait p e args = .failure primSuspend e') :
    ∃ id f r,isImmediate (args.headD 0) = false ∧
      futureId e.world.mem (args.headD 0) = some (some id) ∧
      r.table id = some f ∧ r.isRoot = false ∧ e' = e.setRest r := by
  simp only [primFutureWait] at h
  split at h
  · cases h
  · rename_i himm
    split at h
    · cases h
    · cases h
    · rename_i id hid
      split at h
      · cases h
      · obtain ⟨f,r,hf,hroot,he⟩ := waitOn_suspended h
        exact ⟨id,f,r,by simpa using himm,hid,hf,hroot,he⟩

theorem settleFuture_keeps (state : FutureState) (buf : List Oop) (transfer : Bool)
    (r : Futures) (id : Nat) :
    (settleFuture state buf transfer r id).isRoot = r.isRoot ∧
      ∀ i,(r.table i).isSome → ((settleFuture state buf transfer r id).table i).isSome := by
  unfold settleFuture wakeWaiter Futures.set
  repeat' split
  all_goals
    refine ⟨rfl,fun i hi => ?_⟩
    by_cases hid : i = id
    · simp_all
    · simpa [hid] using hi

/-- Only the future table and the actor's state have changed; no future was removed. -/
def Kept (e e' : Exec Futures) : Prop :=
  ∃ r,e' = e.setRest r ∧ r.isRoot = e.world.rest.isRoot ∧
    ∀ id,(e.world.rest.table id).isSome → (r.table id).isSome

theorem Kept.trans {e₁ e₂ e₃ : Exec Futures} (h : Kept e₁ e₂) (h' : Kept e₂ e₃) : Kept e₁ e₃ := by
  obtain ⟨r,rfl,hroot,htable⟩ := h
  obtain ⟨r',rfl,hroot',htable'⟩ := h'
  exact ⟨r',rfl,hroot'.trans hroot,fun id hid => htable' id (htable id hid)⟩

theorem kept_settle (state : FutureState) (buf : List Oop) (transfer : Bool)
    (e : Exec Futures) (id : Nat) :
    Kept e (e.setRest (settleFuture state buf transfer e.world.rest id)) :=
  ⟨_,rfl,settleFuture_keeps state buf transfer e.world.rest id⟩

theorem resumedBy_kept {events : List Event} {m : Machine Futures}
    (h : resumedBy events e = some m) : ∃ e',Kept e e' ∧ m = enterLoop e' := by
  induction events generalizing e with
  | nil => cases h
  | cons event rest ih =>
    cases event with
    | resolve id buf transfer =>
      obtain ⟨e',hk,hm⟩ := ih h
      exact ⟨e',(kept_settle .resolved buf transfer e id).trans hk,hm⟩
    | fail id buf =>
      obtain ⟨e',hk,hm⟩ := ih h
      exact ⟨e',(kept_settle .failed buf false e id).trans hk,hm⟩
    | claim =>
      simp only [resumedBy] at h
      split at h
      · cases h
        exact ⟨_,⟨{ e.world.rest with actorState := .running },rfl,rfl,fun _ hid => hid⟩,rfl⟩
      · exact ih h

theorem kept_reenqueue (e : Exec Futures) : Kept e (reenqueue e) := by
  unfold reenqueue
  split
  · exact ⟨e.world.rest,rfl,rfl,fun _ hid => hid⟩
  · exact ⟨_,rfl,rfl,fun _ hid => hid⟩

theorem resumedBy_claim (hlive : e.world.rest.actorState ≠ .terminated) :
    (resumedBy [.claim] (reenqueue e)).isSome := by
  simp [reenqueue,hlive,resumedBy,Exec.setRest]

theorem performCall_wait {m : Machine Futures} {c : Call}
    (hprim : env.primitives primFutureWaitIndex = some (primFutureWait p))
    (hhas : methodHasPrim c.code.header = true)
    (hindex : calleePrimitive c.code = primFutureWaitIndex) (mode : LoopMode) :
    performCall env mode m c =
      afterPrimitive env mode m c (primFutureWait p m.exec (c.receiver :: c.args)) := by
  have hblock : isBlockActivation m.exec.world.mem primFutureWaitIndex c.receiver = .ok false := by
    simp [isBlockActivation,primFutureWaitIndex]
  have hfind : findPrimitive env primFutureWaitIndex = some (primFutureWait p) := by
    rw [findPrimitive,if_pos (by decide),hprim]
  simp only [performCall,if_pos hhas,hindex,hblock,hfind]
  rfl

theorem SuspendedSend.step_eq {m : Machine Futures} {c : Call}
    (h : SuspendedSend env p m c e) : step env (sourceMode true) m = .error (.preempted e) := by
  obtain ⟨f,fs,cm,isSuper,l,w,hf,hcm,hsend,hprep,hwait⟩ := h.send
  have hcharge : chargeReduction (sourceMode true) m =
      .ok { m with reductions := m.reductions + 1 } := by
    have hc := h.charged
    simp [chargeReduction,sourceMode,Nat.not_le.mpr hc]
  rw [step_dispatch hf hcm]
  simp only [dispatch,hsend,sendStep,hcharge]
  change (liftFault (prepareSend env isSuper cm _ f.act m.exec.world) >>= _) = _
  rw [hprep]
  change performCall env (sourceMode true) _ c = _
  rw [performCall_wait h.primitive h.hasPrim h.isWait,hwait]
  rfl

/-- A resumed wait never continues as one that did not have to suspend: the value is not pushed, a
failure not signalled, and a pending future not waited for. -/
theorem wait_never_transparent (hcopy : CopyKeepsDepth p) {m : Machine Futures} {c : Call}
    (h : SuspendedSend env p m c e) :
    step env (sourceMode true) m = .error (.preempted e) ∧
      (∀ events m',resumedBy events (reenqueue e) = some m' → ¬AsIfSettled env p c m') ∧
      ¬WaitTransparent env p m := by
  have never : ∀ events m',resumedBy events (reenqueue e) = some m' → ¬AsIfSettled env p c m' := by
    intro events m' hm
    obtain ⟨f,fs,cm,isSuper,l,w,hf,-,-,-,hwait⟩ := h.send
    obtain ⟨id,future,r,himm,hid,hfuture,hroot,rfl⟩ := wait_suspended hwait
    obtain ⟨e',hk,rfl⟩ := resumedBy_kept hm
    obtain ⟨r',rfl,hroot',htable⟩ := (kept_reenqueue _).trans hk
    have hsome : (r'.table id).isSome := htable id (by simp [Exec.setRest,hfuture])
    obtain ⟨future',hf'⟩ := Option.isSome_iff_exists.mp hsome
    have hexec := enterLoop_exec (((m.exec.setLocals l w).setRest r).setRest r')
    have hretry : primFutureWait p (((m.exec.setLocals l w).setRest r).setRest r')
        (c.receiver :: c.args) =
        waitOn p (((m.exec.setLocals l w).setRest r).setRest r') id future' := by
      simp only [primFutureWait,himm,Bool.false_eq_true,if_false]
      change (match futureId (m.exec.setLocals l w).world.mem _ with
        | none => _ | some none => _ | some (some id) => _) = _
      rw [hid]
      change (match r'.table id with | none => _ | some f => _) = _
      rw [hf']
    unfold AsIfSettled
    rw [hexec,hretry]
    have hne : (((m.exec.setLocals l w).setRest r).setRest r').stack.frames ≠ [] := by
      simp [Exec.setRest,setLocals_frames hf]
    have hnotRoot : (((m.exec.setLocals l w).setRest r).setRest r').world.rest.isRoot = false :=
      hroot'.trans hroot
    rw [← hexec] at hne hnotRoot
    have hchange := waitOn_changes env hcopy hne hnotRoot c id future'
    rwa [hexec] at hchange
  refine ⟨h.step_eq,never,fun ht => ?_⟩
  obtain ⟨m',hm'⟩ := Option.isSome_iff_exists.mp (resumedBy_claim h.live)
  exact never _ m' hm' (ht c e h _ m' hm')

end

/-- `await ^self wait` and `wait` with its primitive, in the class Future. -/
def waitEnv (p : WaitParams) : Env Futures :=
  tableEnv
    [(1024,⟨methodHeader 0 0 1 0 false false,[272],[0x02,0,0x20,0,0x30,0]⟩),
      (1040,⟨methodHeader 0 0 0 201 true false,[],[0x50,201,0x31,0]⟩)]
    [((528,272),1040)] [(272,0)] [(201,primFutureWait p)]

def quietParams : WaitParams := ⟨16,fun e v => (v,e),fun _ _ => none,id⟩

/-- Actor 1 is about to send `wait` to the Future object 768, number 7 in the table. -/
def waitMachine (state : FutureState) (buf : List Oop) : Machine Futures :=
  enterLoop ⟨{
      heap := ⟨8192,4096,0⟩
      mem := tableMemory
        [(512,plainObj 16 [16,528,1,16]),(768,plainObj clsFuture [smallIntOop 7])]
      classTable := (List.replicate 33 0).set clsFuture 512
      handlers := []
      signaled := 0
      rest :=
        ⟨fun id => if id = 7 then some ⟨state,buf,false,0⟩ else none,1,false,.running⟩ },
    ⟨4096,some 65536,4160,
      [⟨4096,{ newActivation 16 (methodHeader 0 0 1 0 false false) 1024 768 [] with
        pc := 2,stack := [768] }⟩],[]⟩⟩

/-- The send of `wait` in `waitMachine`. -/
def waitCall : Call :=
  ⟨1040,⟨methodHeader 0 0 0 201 true false,[],[0x50,201,0x31,0]⟩,768,[],true⟩

/-- The state a suspended wait of `waitMachine` leaves. -/
def waitingExec : Exec Futures :=
  match primFutureWait quietParams
    ((waitMachine .pending []).exec.setLocals ⟨4,[],[]⟩ (waitMachine .pending []).exec.world)
    [768] with
  | .failure _ e => e
  | _ => (waitMachine .pending []).exec

theorem waitMachine_suspends :
    SuspendedSend (waitEnv quietParams) quietParams (waitMachine .pending []) waitCall
      waitingExec where
  primitive := rfl
  charged := by decide
  send := ⟨_,_,_,_,_,_,rfl,rfl,rfl,rfl,rfl⟩
  hasPrim := by decide
  isWait := by decide
  live := by decide

/-- `await` answers 42 for a future resolved with 42. If it suspends first, it returns from an empty
expression stack. -/
theorem suspended_wait_loses_value : (∃ e,Halts (step (waitEnv quietParams) (sourceMode true))
      (waitMachine .resolved [smallIntOop 42]) (.returned (smallIntOop 42) e)) ∧
    step (waitEnv quietParams) (sourceMode true) (waitMachine .pending []) =
      .error (.preempted waitingExec) ∧
    (∃ m,resumedBy [.resolve 7 [smallIntOop 42] false,.claim] (reenqueue waitingExec) = some m ∧
      step (waitEnv quietParams) (sourceMode true) m = .error (.fault .undefined)) ∧
    ¬WaitTransparent (waitEnv quietParams) quietParams (waitMachine .pending []) := by
  refine ⟨⟨_,2,rfl⟩,rfl,⟨_,rfl,rfl⟩,fun ht => ?_⟩
  have h := ht waitCall waitingExec waitMachine_suspends
    [.resolve 7 [smallIntOop 42] false,.claim] _ rfl
  have hdepth := congrArg Exec.depth h.1
  revert hdepth
  decide

theorem wait_never_transparent_pending :
    ¬WaitTransparent (waitEnv quietParams) quietParams (waitMachine .pending []) :=
  (wait_never_transparent (fun _ _ => rfl) waitMachine_suspends).2.2

end SmalltalkA
