import SmalltalkA.Actor.State
import SmalltalkA.Lib.Interleaving

/-! The scheduler as a system of threads: the workers of `scheduler.c`, and calls of send, future
wake, restart and terminate. Each atomic load, store or CAS is one step; so is a deque operation,
and a critical section of `wake_mutex` except for the drain of the overflow list. -/

set_option autoImplicit false

namespace SmalltalkA

open Function Option

/-- A mailbox node: `linked` once its predecessor's `next` is stored, `late` if of a send that began
while the scheduler was running. -/
structure MbNode where
  owner : Nat
  linked : Bool
  late : Bool
  deriving DecidableEq,Repr

/-- The local variables of `drain_overflow`, which runs under `wake_mutex`. -/
structure Drain where
  list : Option Nat
  first : Option Nat
  deriving DecidableEq,Repr

/-- Actor fields by actor id, and the overflow list threaded through `next_runnable`. -/
structure Shared where
  running : Bool
  state : Nat → ActorState
  /-- `saved_frame` is set -/
  saved : Nat → Bool
  /-- `sta_actor_create` has not given out the id yet -/
  fresh : Nat → Bool
  registered : Nat → Bool
  count : Nat → Nat
  queue : Nat → List MbNode
  nextRunnable : Nat → Option Nat
  overflowHead : Option Nat
  /-- `wake_mutex` is held by a drain -/
  drain : Option Drain

namespace Shared

def setState (s : Shared) (a : Nat) (st : ActorState) : Shared :=
  { s with state := update s.state a st }

def setSaved (s : Shared) (a : Nat) (b : Bool) : Shared :=
  { s with saved := update s.saved a b }

def setQueue (s : Shared) (a : Nat) (q : List MbNode) : Shared :=
  { s with queue := update s.queue a q }

/-- The counter is a `uint32_t`. -/
def addCount (s : Shared) (a n : Nat) : Shared :=
  { s with count := update s.count a ((s.count a + n) % 2 ^ 32) }

def incCount (s : Shared) (a : Nat) : Shared := s.addCount a 1
def decCount (s : Shared) (a : Nat) : Shared := s.addCount a (2 ^ 32 - 1)

def setNext (s : Shared) (a : Nat) (n : Option Nat) : Shared :=
  { s with nextRunnable := update s.nextRunnable a n }

def setRegistered (s : Shared) (a : Nat) (b : Bool) : Shared :=
  { s with registered := update s.registered a b }

def setFresh (s : Shared) (a : Nat) (b : Bool) : Shared :=
  { s with fresh := update s.fresh a b }

/-- An id whose actor is as `sta_actor_create` will leave it. -/
def pristine (s : Shared) (a : Nat) : Bool :=
  s.fresh a && s.state a == .created && !s.saved a && s.count a == 0 && (s.queue a).isEmpty

end Shared

/-- What `sta_actor_process_one_preemptible` returns. -/
inductive MsgResult where
  | empty | processed | error | preempted | exception
  deriving DecidableEq,Repr

/-- Where a worker is in `worker_thread_main`; from `dispatch` to `drained` it is inside
`sta_actor_process_one_preemptible`. -/
inductive WorkerPc where
  | poll
  | drain
  | hold (a : Nat)
  | dispatch (a : Nat)
  | dequeued (a : Nat)
  | execute (a : Nat)
  | waited (a : Nat)
  | crashed (a : Nat)
  | drained (a : Nat)
  | returned (a : Nat) (rc : MsgResult)
  | idleCheck (a : Nat)
  | requeue (a : Nat)
  | push (a : Nat)
  | suspend (a : Nat)
  | recheck (a : Nat)
  | rewake (a : Nat)
  deriving DecidableEq,Repr

/-- A worker with its deque, bottom first. -/
structure Worker where
  pc : WorkerPc
  deque : List Nat
  deriving DecidableEq,Repr

def dequeCapacity : Nat := 1024

/-- `sta_deque_push`; every caller ignores that it was full. -/
def dequePush (d : List Nat) (a : Nat) : List Nat :=
  if d.length < dequeCapacity then a :: d else d

/-- What a worker does next where there is a choice. -/
inductive WorkerChoice where
  | pop
  | steal (victim : Nat)
  | overflow
  | finish (rc : MsgResult)
  | wait
  | crash
  | go
  deriving DecidableEq,Repr

def workerStep (s : Shared) (x : Worker) : WorkerChoice → Option (Shared × Worker)
  | .pop =>
    match x.pc,x.deque with
    | .poll,a :: d => if s.running then some (s,⟨.hold a,d⟩) else none
    | _,_ => none
  | .steal _ => none
  | .overflow =>
    if x.pc = .poll ∧ s.running ∧ s.drain = none ∧ s.overflowHead.isSome then
      some ({ s with overflowHead := none,drain := some ⟨s.overflowHead,none⟩ },⟨.drain,x.deque⟩)
    else none
  | .finish rc =>
    match x.pc,rc with
    | .execute a,.processed => some (s.setSaved a false,⟨.returned a .processed,x.deque⟩)
    | .execute a,.error => some (s,⟨.returned a .error,x.deque⟩)
    | .execute a,.preempted => some (s.setSaved a true,⟨.returned a .preempted,x.deque⟩)
    | _,_ => none
  | .wait =>
    -- the CAS of `prim_future_wait`
    match x.pc with
    | .execute a =>
      some (if s.state a = .running then s.setState a .suspended else s,⟨.waited a,x.deque⟩)
    | _ => none
  | .crash =>
    -- the CAS of `handle_actor_exception`
    match x.pc with
    | .execute a =>
      let s := s.setSaved a false
      some (if s.state a = .running then s.setState a .terminated else s,
        ⟨.crashed a,x.deque⟩)
    | _ => none
  | .go =>
    match x.pc with
    | .poll | .execute _ => none
    | .drain =>
      match s.drain with
      | none => none
      | some ⟨some a,none⟩ =>
        some ({ s.setNext a none with drain := some ⟨s.nextRunnable a,some a⟩ },x)
      | some ⟨some a,some f⟩ =>
        some ({ s.setNext a none with drain := some ⟨s.nextRunnable a,some f⟩ },
          ⟨.drain,dequePush x.deque a⟩)
      | some ⟨none,some f⟩ => some ({ s with drain := none },⟨.hold f,x.deque⟩)
      | some ⟨none,none⟩ => some ({ s with drain := none },⟨.poll,x.deque⟩)
    | .hold a =>
      if s.state a = .ready then some (s.setState a .running,⟨.dispatch a,x.deque⟩)
      else some (s,⟨.poll,x.deque⟩)
    | .dispatch a =>
      if s.saved a then some (s.setSaved a false,⟨.execute a,x.deque⟩)
      else match s.queue a with
        | ⟨_,true,_⟩ :: rest => some (s.setQueue a rest,⟨.dequeued a,x.deque⟩)
        | _ => some (s,⟨.returned a .empty,x.deque⟩)
    | .dequeued a => some (s.decCount a,⟨.execute a,x.deque⟩)
    | .waited a => some (s.setSaved a true,⟨.returned a .preempted,x.deque⟩)
    | .crashed a =>
      match s.queue a with
      | ⟨_,true,_⟩ :: rest => some (s.setQueue a rest,⟨.drained a,x.deque⟩)
      | _ => some (s,⟨.returned a .exception,x.deque⟩)
    | .drained a => some (s.decCount a,⟨.crashed a,x.deque⟩)
    | .returned a rc =>
      if rc = .exception ∨ s.state a = .terminated then some (s,⟨.poll,x.deque⟩)
      else if rc = .preempted then some (s,⟨.requeue a,x.deque⟩)
      else some (s,⟨.idleCheck a,x.deque⟩)
    | .idleCheck a =>
      if s.count a ≠ 0 then some (s,⟨.requeue a,x.deque⟩) else some (s,⟨.suspend a,x.deque⟩)
    | .requeue a => some (s.setState a .ready,⟨.push a,x.deque⟩)
    | .push a => some (s,⟨.poll,dequePush x.deque a⟩)
    | .suspend a => some (s.setState a .suspended,⟨.recheck a,x.deque⟩)
    | .recheck a =>
      if s.count a ≠ 0 then some (s,⟨.rewake a,x.deque⟩) else some (s,⟨.poll,x.deque⟩)
    | .rewake a =>
      if s.state a = .suspended then some (s.setState a .ready,⟨.push a,x.deque⟩)
      else some (s,⟨.poll,x.deque⟩)

/-- Who puts a message into a mailbox: a send, begun while the scheduler was running or not, or
`restart_child`. -/
inductive MailKind where
  | send (late : Bool)
  | restart
  deriving DecidableEq,Repr

def MailKind.late : MailKind → Bool
  | .send late => late
  | .restart => false

/-- Where a thread is in one of the calls. -/
inductive ClientPc where
  | idle
  | check (a : Nat) (late : Bool)
  | mailCount (k : MailKind) (a : Nat)
  | mailFull (k : MailKind) (a : Nat)
  | mailExchange (k : MailKind) (a : Nat)
  | mailLink (k : MailKind) (a : Nat)
  | sendRunning (a : Nat)
  | sendSuspended (a : Nat)
  | sendCreated (a : Nat)
  | wake (a : Nat)
  | wakeRunning (a : Nat)
  | restartStore (a : Nat)
  | restartRunning (a : Nat)
  | restartCas (a : Nat)
  | enqueue (a : Nat)
  | terminate (a : Nat)
  | unregister (a : Nat)
  | exceeded (a : Nat)
  deriving DecidableEq,Repr

inductive ClientChoice where
  | send (a : Nat)
  | wake (a : Nat)
  | create (a : Nat)
  | restart (a : Nat)
  | terminate (a : Nat)
  | exceed (a : Nat)
  | go
  deriving DecidableEq,Repr

/-- `STA_MAILBOX_DEFAULT_CAPACITY`. -/
def mailboxCapacity : Nat := 256

/-- After a failed `sta_mailbox_enqueue` a send returns, a restart goes on. -/
def afterFull (k : MailKind) (a : Nat) : ClientPc :=
  match k with
  | .send _ => .idle
  | .restart => .restartStore a

def afterLink (k : MailKind) (a : Nat) : ClientPc :=
  match k with
  | .send _ => .sendRunning a
  | .restart => .restartStore a

/-- Thread `i` links the node it has exchanged in. -/
def linkNode (i : Nat) (k : MailKind) (n : MbNode) : MbNode :=
  if n.owner = i ∧ n.linked = false then ⟨i,true,k.late⟩ else n

def clientBegin (s : Shared) : ClientChoice → Option (Shared × ClientPc)
  | .send a => if s.registered a then some (s,.check a s.running) else none
  | .wake a => if s.registered a then some (s,.wake a) else none
  | .create a =>
    if s.pristine a then some ((s.setFresh a false).setRegistered a true,.idle) else none
  | .restart a =>
    if s.pristine a then
      some ((s.setFresh a false).setRegistered a true,.mailCount .restart a)
    else none
  | .terminate a => if s.fresh a then none else some (s,.terminate a)
  | .exceed a => if s.fresh a then none else some (s,.exceeded a)
  | .go => none

/-- One step of thread `i` inside a call. -/
def clientGo (s : Shared) (i : Nat) : ClientPc → Option (Shared × ClientPc)
  | .idle => none
  | .check a late =>
    if s.state a = .terminated then some (s,.idle) else some (s,.mailCount (.send late) a)
  | .mailCount k a =>
    if mailboxCapacity ≤ s.count a then some (s.incCount a,.mailFull k a)
    else some (s.incCount a,.mailExchange k a)
  | .mailFull k a => some (s.decCount a,afterFull k a)
  | .mailExchange k a => some (s.setQueue a (s.queue a ++ [⟨i,false,k.late⟩]),.mailLink k a)
  | .mailLink k a => some (s.setQueue a ((s.queue a).map (linkNode i k)),afterLink k a)
  | .sendRunning a => if s.running then some (s,.sendSuspended a) else some (s,.idle)
  | .sendSuspended a =>
    if s.state a = .suspended then some (s.setState a .ready,.enqueue a)
    else some (s,.sendCreated a)
  | .sendCreated a =>
    if s.state a = .created then some (s.setState a .ready,.enqueue a) else some (s,.idle)
  | .wake a =>
    if s.state a = .suspended then some (s.setState a .ready,.wakeRunning a) else some (s,.idle)
  | .wakeRunning a => if s.running then some (s,.enqueue a) else some (s,.idle)
  | .restartStore a => some (s.setState a .created,.restartRunning a)
  | .restartRunning a => if s.running then some (s,.restartCas a) else some (s,.idle)
  | .restartCas a =>
    if s.state a = .created then some (s.setState a .ready,.enqueue a) else some (s,.idle)
  | .enqueue a =>
    if s.drain = none then
      some ({ s.setNext a s.overflowHead with overflowHead := some a },.idle)
    else none
  | .terminate a => some (s.setState a .terminated,.unregister a)
  | .unregister a => some (s.setRegistered a false,.idle)
  -- the store of `check_intensity` into its own supervisor's state
  | .exceeded a => some (s.setState a .terminated,.idle)

def clientStep (s : Shared) (i : Nat) (pc : ClientPc) : ClientChoice → Option (Shared × ClientPc)
  | .go => clientGo s i pc
  | c => if pc = .idle then clientBegin s c else none

/-- The whole system: any number of workers and of other threads. -/
structure Sys where
  shared : Shared
  workers : List Worker
  clients : List ClientPc

inductive SysEvent where
  | worker (w : Nat) (c : WorkerChoice)
  | client (i : Nat) (c : ClientChoice)
  | stop
  deriving DecidableEq,Repr

/-- `sta_deque_steal` takes the top of another worker's deque. -/
def stealStep (s : Sys) (w v : Nat) : Option Sys :=
  match s.workers[w]?,s.workers[v]? with
  | some x,some y =>
    if x.pc = .poll ∧ s.shared.running ∧ w ≠ v then
      y.deque.getLast?.map (fun a =>
        let workers := s.workers.set v ⟨y.pc,y.deque.dropLast⟩
        { s with workers := workers.set w ⟨.hold a,x.deque⟩ })
    else none
  | _,_ => none

def sysStep (s : Sys) : SysEvent → Option Sys
  | .worker w (.steal v) => stealStep s w v
  | .worker w c =>
    (s.workers[w]?).bind (fun x => (workerStep s.shared x c).map (fun (sh,y) =>
      { s with shared := sh,workers := s.workers.set w y }))
  | .client i c =>
    (s.clients[i]?).bind (fun pc => (clientStep s.shared i pc c).map (fun (sh,pc) =>
      { s with shared := sh,clients := s.clients.set i pc }))
  | .stop => some { s with shared := { s.shared with running := false } }

/-- `sta_scheduler_start` has started the workers: only the root actor is READY, nothing is queued
and no call is in progress. -/
structure Started (s : Sys) : Prop where
  running : s.shared.running = true
  root : s.shared.state rootActor = .ready
  states : ∀ a,a ≠ rootActor →
    s.shared.state a = .created ∨ s.shared.state a = .suspended ∨ s.shared.state a = .terminated
  counts : ∀ a,s.shared.count a = (s.shared.queue a).length ∧ s.shared.count a ≤ mailboxCapacity
  nodes : ∀ a,∀ n ∈ s.shared.queue a,n.linked = true ∧ n.late = false
  overflow : s.shared.overflowHead = none
  drain : s.shared.drain = none
  workers : ∀ x ∈ s.workers,x = ⟨.poll,[]⟩
  clients : ∀ c ∈ s.clients,c = .idle

/-! ### What a step can do -/

inductive Moves (s : Sys) : SysEvent → Sys → Prop where
  | worker {w : Nat} {c : WorkerChoice} {x y : Worker} {sh : Shared}
      (hx : s.workers[w]? = some x) (hs : workerStep s.shared x c = some (sh,y)) :
      Moves s (.worker w c) { s with shared := sh,workers := s.workers.set w y }
  | steal {w v b : Nat} {x y : Worker} {d : List Nat} (hx : s.workers[w]? = some x)
      (hy : s.workers[v]? = some y) (hpc : x.pc = .poll) (hne : v ≠ w)
      (hd : y.deque = d ++ [b]) :
      Moves s (.worker w (.steal v))
        { s with workers := (s.workers.set v ⟨y.pc,d⟩).set w ⟨.hold b,x.deque⟩ }
  | go {i : Nat} {c d : ClientPc} {sh : Shared} (hi : s.clients[i]? = some c)
      (hs : clientGo s.shared i c = some (sh,d)) :
      Moves s (.client i .go) { s with shared := sh,clients := s.clients.set i d }
  | call {i : Nat} {c : ClientChoice} {d : ClientPc} {sh : Shared}
      (hi : s.clients[i]? = some .idle) (hs : clientBegin s.shared c = some (sh,d)) :
      Moves s (.client i c) { s with shared := sh,clients := s.clients.set i d }
  | stop : Moves s .stop { s with shared := { s.shared with running := false } }

theorem stealStep_moves {s t : Sys} {w v : Nat} (h : stealStep s w v = some t) :
    Moves s (.worker w (.steal v)) t := by
  unfold stealStep at h
  split at h
  · rename_i x y hx hy
    split at h
    · rename_i hpre
      obtain ⟨hpc,-,hwv⟩ := hpre
      rw [map_eq_some_iff] at h
      obtain ⟨b,hb,rfl⟩ := h
      obtain ⟨d,hd⟩ := List.getLast?_eq_some_iff.mp hb
      have hdrop : y.deque.dropLast = d := by rw [hd,List.dropLast_concat]
      rw [hdrop]
      exact .steal hx hy hpc (Ne.symm hwv) hd
    · cases h
  · cases h

theorem sysStep_moves {s t : Sys} {e : SysEvent} (h : sysStep s e = some t) : Moves s e t := by
  cases e with
  | stop =>
    cases h
    exact .stop
  | worker w c =>
    by_cases hsteal : ∃ v,c = .steal v
    · obtain ⟨v,rfl⟩ := hsteal
      exact stealStep_moves h
    · rw [sysStep.eq_2 _ _ _ (fun v hv => hsteal ⟨v,hv⟩)] at h
      simp only [bind_eq_some_iff,map_eq_some_iff] at h
      obtain ⟨x,hx,⟨sh,y⟩,hs,rfl⟩ := h
      exact .worker hx hs
  | client i c =>
    simp only [sysStep,bind_eq_some_iff,map_eq_some_iff] at h
    obtain ⟨pc,hi,⟨sh,d⟩,hs,rfl⟩ := h
    by_cases hgo : c = .go
    · subst hgo
      exact .go hi hs
    · rw [clientStep.eq_2 _ _ _ _ hgo] at hs
      split at hs
      · rename_i hidle
        subst hidle
        exact .call hi hs
      · cases hs

/-- The stores of a worker into an actor's state, by its positions before and after. -/
inductive WorkerStore (s : Shared) :
    WorkerChoice → WorkerPc → WorkerPc → Nat → ActorState → Prop where
  | claim {a : Nat} : s.state a = .ready → WorkerStore s .go (.hold a) (.dispatch a) a .running
  | wait {a : Nat} : s.state a = .running →
      WorkerStore s .wait (.execute a) (.waited a) a .suspended
  | crash {a : Nat} : s.state a = .running →
      WorkerStore s .crash (.execute a) (.crashed a) a .terminated
  | requeue {a : Nat} : WorkerStore s .go (.requeue a) (.push a) a .ready
  | suspend {a : Nat} : WorkerStore s .go (.suspend a) (.recheck a) a .suspended
  | rewake {a : Nat} : s.state a = .suspended → WorkerStore s .go (.rewake a) (.push a) a .ready

/-- The stores of the other threads. -/
inductive ClientStore (s : Shared) : ClientPc → Nat → ActorState → Prop where
  | send {a : Nat} : s.state a = .suspended → ClientStore s (.sendSuspended a) a .ready
  | first {a : Nat} : s.state a = .created → ClientStore s (.sendCreated a) a .ready
  | wake {a : Nat} : s.state a = .suspended → ClientStore s (.wake a) a .ready
  | restart {a : Nat} : ClientStore s (.restartStore a) a .created
  | restarted {a : Nat} : s.state a = .created → ClientStore s (.restartCas a) a .ready
  | terminate {a : Nat} : ClientStore s (.terminate a) a .terminated
  | exceeded {a : Nat} : ClientStore s (.exceeded a) a .terminated

variable {s t : Shared}

theorem workerStep_state {x y : Worker} {c : WorkerChoice} (h : workerStep s x c = some (t,y)) :
    t.state = s.state ∨ ∃ a st,WorkerStore s c x.pc y.pc a st ∧ t.state = update s.state a st := by
  obtain ⟨pc,d⟩ := x
  cases c with
  | steal v => cases h
  | pop =>
    simp only [workerStep] at h
    repeat' split at h
    all_goals cases h
    exact .inl rfl
  | overflow =>
    simp only [workerStep] at h
    split at h <;> cases h
    exact .inl rfl
  | finish rc =>
    simp only [workerStep] at h
    split at h <;> cases h <;> exact .inl rfl
  | wait =>
    cases pc with
    | execute a =>
      simp only [workerStep] at h
      split at h <;> cases h
      · exact .inr ⟨a,_,.wait ‹_›,rfl⟩
      · exact .inl rfl
    | _ => cases h
  | crash =>
    cases pc with
    | execute a =>
      simp only [workerStep] at h
      split at h <;> cases h
      · exact .inr ⟨a,_,.crash ‹_›,rfl⟩
      · exact .inl rfl
    | _ => cases h
  | go =>
    cases pc with
    | hold a =>
      simp only [workerStep] at h
      split at h <;> cases h
      · exact .inr ⟨a,_,.claim ‹_›,rfl⟩
      · exact .inl rfl
    | requeue a =>
      cases h
      exact .inr ⟨a,_,.requeue,rfl⟩
    | suspend a =>
      cases h
      exact .inr ⟨a,_,.suspend,rfl⟩
    | rewake a =>
      simp only [workerStep] at h
      split at h <;> cases h
      · exact .inr ⟨a,_,.rewake ‹_›,rfl⟩
      · exact .inl rfl
    | _ =>
      simp only [workerStep] at h
      repeat' split at h
      all_goals
        cases h
        try exact .inl rfl

theorem clientGo_state {i : Nat} {c d : ClientPc} (h : clientGo s i c = some (t,d)) :
    t.state = s.state ∨ ∃ a st,ClientStore s c a st ∧ t.state = update s.state a st := by
  cases c with
  | sendSuspended a =>
    simp only [clientGo] at h
    split at h <;> cases h
    · exact .inr ⟨a,_,.send ‹_›,rfl⟩
    · exact .inl rfl
  | sendCreated a =>
    simp only [clientGo] at h
    split at h <;> cases h
    · exact .inr ⟨a,_,.first ‹_›,rfl⟩
    · exact .inl rfl
  | wake a =>
    simp only [clientGo] at h
    split at h <;> cases h
    · exact .inr ⟨a,_,.wake ‹_›,rfl⟩
    · exact .inl rfl
  | restartCas a =>
    simp only [clientGo] at h
    split at h <;> cases h
    · exact .inr ⟨a,_,.restarted ‹_›,rfl⟩
    · exact .inl rfl
  | restartStore a =>
    cases h
    exact .inr ⟨a,_,.restart,rfl⟩
  | terminate a =>
    cases h
    exact .inr ⟨a,_,.terminate,rfl⟩
  | exceeded a =>
    cases h
    exact .inr ⟨a,_,.exceeded,rfl⟩
  | _ =>
    simp only [clientGo] at h
    repeat' split at h
    all_goals
      cases h
      try exact .inl rfl

theorem clientBegin_state {c : ClientChoice} {d : ClientPc} (h : clientBegin s c = some (t,d)) :
    t.state = s.state := by
  cases c with
  | go => cases h
  | _ =>
    simp only [clientBegin] at h
    split at h <;> cases h
    rfl

end SmalltalkA
