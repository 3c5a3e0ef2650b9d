import SmalltalkA.Actor.State
import SmalltalkA.Lib.Interleaving
import SmalltalkA.Oop

/-! Supervision (`supervisor.c`, `sta_actor_terminate` and `sta_actor_send_msg` of `actor.c`).
Actors are structures at addresses, freed when their count drops to zero; a supervisor keeps a
record for each child. -/

set_option autoImplicit false

namespace SmalltalkA

open Function

inductive RestartStrategy where
  | restart | stop | escalate
  deriving DecidableEq,Repr

/-- `STA_ChildSpec`; the pointer is none for NULL. -/
structure ChildSpec where
  behaviorClass : Oop
  strategy : RestartStrategy
  currentActor : Option Nat
  currentActorId : Nat
  deriving DecidableEq,Repr

/-- `STA_SupervisorData`. -/
structure SupervisorData where
  children : List ChildSpec
  restartCount : Nat
  windowStartNs : Nat
  maxRestarts : Nat
  maxSeconds : Nat
  deriving DecidableEq,Repr

/-- A queued message: `childFailed:reason:` with its arguments, or another one. `origin` tells the
sends of a run apart. -/
structure ActorMsg where
  childFailed : Option (List Oop)
  origin : Nat
  deriving DecidableEq,Repr

/-- `STA_Actor` as far as supervision goes; `held` counts the references of lookups, queues and
workers. -/
structure SupActor where
  actorId : Nat
  state : ActorState
  behaviorClass : Oop
  supervisor : Option Nat
  supData : Option SupervisorData
  refcount : Nat
  held : Nat
  queue : List ActorMsg
  count : Nat
  capacity : Nat

/-- The actors that `sta_actor_create` made, by address, and the registry by id. -/
structure SupVm where
  actors : Nat → Option SupActor
  registry : Nat → Option Nat
  nextActorId : Nat
  rootSupervisor : Nat

/-- What the world answers during a call: the clock, the address of a new actor, whether the
registry can take it, other allocations succeed, and the scheduler runs. -/
structure Fate where
  now : Nat
  later : Nat
  child : Option Nat
  registers : Bool
  memory : Bool
  running : Bool
  deriving DecidableEq,Repr

def mailboxDefaultCapacity : Nat := 256

namespace SupVm

def put (vm : SupVm) (a : Nat) (x : Option SupActor) : SupVm :=
  { vm with actors := update vm.actors a x }

def modify (vm : SupVm) (a : Nat) (f : SupActor → SupActor) : Option SupVm :=
  (vm.actors a).map (fun x => vm.put a (some (f x)))

def data (vm : SupVm) (p : Nat) : Option SupervisorData := (vm.actors p).bind SupActor.supData

def spec (vm : SupVm) (p i : Nat) : Option ChildSpec :=
  (vm.data p).bind (fun d => d.children[i]?)

def setState (vm : SupVm) (a : Nat) (st : ActorState) : Option SupVm :=
  vm.modify a (fun x => { x with state := st })

/-- `actor->supervisor = NULL`. -/
def detach (vm : SupVm) (a : Nat) : Option SupVm :=
  vm.modify a (fun x => { x with supervisor := none })

def setData (vm : SupVm) (p : Nat) (d : SupervisorData) : Option SupVm :=
  vm.modify p (fun x => { x with supData := some d })

def setSpec (vm : SupVm) (p i : Nat) (sp : ChildSpec) : Option SupVm :=
  vm.modify p (fun x => { x with supData := x.supData.map (fun d =>
    { d with children := d.children.set i sp }) })

def registrable (id : Nat) : Bool := id ≠ 0 && id ≠ 2 ^ 32 - 1

/-- `sta_registry_register`, which drops the actor when the table cannot grow. -/
def register (vm : SupVm) (id a : Nat) (room : Bool) : SupVm :=
  if registrable id && room then { vm with registry := update vm.registry id (some a) }
  else vm

/-- `sta_registry_unregister`. -/
def unregister (vm : SupVm) (id : Nat) : SupVm :=
  if registrable id then { vm with registry := update vm.registry id none } else vm

/-- `sta_actor_release`: the last reference frees the actor. -/
def release (vm : SupVm) (a : Nat) : Option SupVm :=
  (vm.actors a).map (fun x =>
    if x.refcount = 1 then vm.put a none
    else vm.put a (some { x with refcount := x.refcount - 1 }))

/-- The actor that `sta_actor_create` sets up. -/
def newActor (vm : SupVm) (cls : Oop) (supervisor : Option Nat) : SupActor :=
  ⟨vm.nextActorId,.created,cls,supervisor,none,1,0,[],0,mailboxDefaultCapacity⟩

/-- `sta_actor_create`, at an address that is not in use. -/
def create (vm : SupVm) (a : Nat) (cls : Oop) (supervisor : Option Nat) : Option SupVm :=
  if (vm.actors a).isNone then
    some { vm with
      actors := update vm.actors a (some (vm.newActor cls supervisor))
      nextActorId := inc32 vm.nextActorId }
  else none

/-- A child's turn in a loop over the records of `p`: terminate it and clear the pointer; with
`forget` it is detached before, and its id cleared too. -/
def dropChild (terminate : SupVm → Nat → Option SupVm) (forget : Bool) (p : Nat) (vm : SupVm)
    (i : Nat) : Option SupVm := do
  let sp ← vm.spec p i
  match sp.currentActor with
  | none => some vm
  | some c =>
    let vm ← (if forget then vm.detach c else some vm)
    let vm ← terminate vm c
    vm.setSpec p i { sp with
      currentActor := none,currentActorId := if forget then 0 else sp.currentActorId }

def dropChildren (terminate : SupVm → Nat → Option SupVm) (forget : Bool) (p n : Nat)
    (vm : SupVm) : Option SupVm :=
  (List.range n).foldlM (dropChild terminate forget p) vm

/-- `sta_actor_terminate`, to a depth of `fuel`. -/
def terminate : Nat → SupVm → Nat → Option SupVm
  | 0,_,_ => none
  | fuel + 1,vm,a => do
    let x ← vm.actors a
    let vm ← vm.setState a .terminated
    let vm := vm.unregister x.actorId
    let vm ← (match x.supData with
      | none => some vm
      | some d => dropChildren (terminate fuel) false a d.children.length vm)
    vm.release a

def staActorTerminate (vm : SupVm) (a : Nat) : Option SupVm := terminate vm.nextActorId vm a

/-- `terminate_all_children`. -/
def terminateAllChildren (vm : SupVm) (s : Nat) : Option SupVm := do
  let d ← vm.data s
  dropChildren staActorTerminate true s d.children.length vm

/-- `sta_mailbox_enqueue` and the wake of `send_msg_internal`. -/
def enqueue (x : SupActor) (msg : ActorMsg) (running : Bool) : SupActor :=
  if 0 < x.capacity ∧ x.capacity ≤ x.count then x
  else { x with
    queue := x.queue ++ [msg]
    count := if 0 < x.capacity then inc32 x.count else x.count
    state := if running ∧ (x.state = .suspended ∨ x.state = .created) then .ready else x.state }

/-- `sta_actor_send_msg` with shared arguments; the result is not looked at. -/
def staActorSendMsg (vm : SupVm) (id : Nat) (msg : ActorMsg) (fate : Fate) : Option SupVm :=
  match vm.registry id with
  | none => some vm
  | some t =>
    (vm.actors t).map (fun x =>
      if x.state = .terminated ∨ !fate.memory then vm
      else vm.put t (some (enqueue x msg fate.running)))

/-- `escalate_to_parent`. -/
def escalateToParent (vm : SupVm) (s : Nat) (reason : Oop) (fate : Fate) : Option SupVm := do
  let sup ← vm.actors s
  match sup.supervisor with
  | none => some vm
  | some p =>
    let parent ← vm.actors p
    vm.staActorSendMsg parent.actorId ⟨some [smallIntOop sup.actorId,reason],0⟩ fate

/-- `restart_child`, with the address of the new actor or NULL. -/
def restartChild (vm : SupVm) (s : Nat) (sp : ChildSpec) (fate : Fate) : Option (SupVm × Option Nat) :=
  match fate.child with
  | none => some (vm,none)
  | some a => do
    let id := vm.nextActorId
    let vm ← vm.create a sp.behaviorClass (some s)
    let vm := vm.register id a fate.registers
    let vm ← vm.modify a (fun x => if fate.memory then enqueue x ⟨none,0⟩ false else x)
    let vm ← vm.setState a (if fate.running then .ready else .created)
    return (vm,some a)

end SupVm

/-- The counter and window of `check_intensity` once this restart is counted. -/
def SupervisorData.tick (d : SupervisorData) (now : Nat) : SupervisorData :=
  let start := if d.restartCount = 0 then now else d.windowStartNs
  let elapsed := (now + 2 ^ 64 - start) % 2 ^ 64
  if elapsed > d.maxSeconds * 10 ^ 9 then { d with restartCount := 1,windowStartNs := now }
  else { d with restartCount := inc32 d.restartCount,windowStartNs := start }

def SupervisorData.exceeded (d : SupervisorData) (now : Nat) : Bool :=
  d.maxRestarts < (d.tick now).restartCount

/-- `find_child_by_id`. -/
def SupervisorData.findChildById (d : SupervisorData) (id : Nat) : Option Nat :=
  d.children.findIdx? (fun sp => sp.currentActorId == id)

/-- The id in a `childFailed:reason:` notification, none if it is not looked at. -/
def failedId (args : List Oop) : Option Nat :=
  match args with
  | id :: _ :: _ => if isSmallInt id then some (smallIntVal id % 2 ^ 32).toNat else none
  | _ => none

namespace SupVm

/-- `check_intensity` after the limit is exceeded. The root supervisor goes on, any other one takes
down its children, tells its own supervisor and ends. -/
def intensityExceeded (vm : SupVm) (s : Nat) (reason : Oop) (fate : Fate) : Option SupVm :=
  if s = vm.rootSupervisor then
    vm.modify s (fun x => { x with supData := x.supData.map (fun d =>
      { d with restartCount := 0,windowStartNs := fate.later }) })
  else do
    let vm ← vm.terminateAllChildren s
    let vm ← vm.escalateToParent s reason fate
    vm.setState s .terminated

def destroyOld (vm : SupVm) : Option Nat → Option SupVm
  | none => some vm
  | some c => do (← vm.detach c).staActorTerminate c

/-- The strategies of `sta_supervisor_handle_failure`; `exceedReason` is the Symbol
`#restartIntensityExceeded`. -/
def applyStrategy (exceedReason : Oop) (vm : SupVm) (s i : Nat) (d : SupervisorData)
    (sp : ChildSpec) (reason : Oop) (fate : Fate) : Option (SupVm × Int) :=
  match sp.strategy with
  | .restart => do
    let vm ← vm.setData s (d.tick fate.now)
    if d.exceeded fate.now then
      return (← vm.intensityExceeded s exceedReason fate,0)
    else
      let vm ← vm.destroyOld sp.currentActor
      let id := vm.nextActorId
      let (vm,new) ← vm.restartChild s sp fate
      let vm ← vm.setSpec s i { sp with
        currentActor := new,currentActorId := if new.isSome then id else 0 }
      return (vm,if new.isSome then 0 else -1)
  | .stop => do
    let vm ← vm.destroyOld sp.currentActor
    return (← vm.setSpec s i { sp with currentActor := none,currentActorId := 0 },0)
  | .escalate => do
    let vm ← vm.destroyOld sp.currentActor
    let vm ← vm.setSpec s i { sp with currentActor := none,currentActorId := 0 }
    return (← vm.escalateToParent s reason fate,0)

/-- `sta_supervisor_handle_failure` with its result code. -/
def handleFailure (vm : SupVm) (exceedReason : Oop) (s : Nat) (args : List Oop) (fate : Fate) :
    Option (SupVm × Int) := do
  let sup ← vm.actors s
  match sup.supData,failedId args with
  | none,_ | some _,none => some (vm,-1)
  | some d,some id =>
    match d.findChildById id with
    | none => some (vm,0)
    | some i =>
      let sp ← d.children[i]?
      vm.applyStrategy exceedReason s i d sp (args.getD 1 0) fate

/-- `sta_supervisor_add_child`; without memory for the record the actor is taken back. -/
def addChild (vm : SupVm) (s : Nat) (cls : Oop) (strategy : RestartStrategy) (fate : Fate) :
    Option SupVm := do
  let sup ← vm.actors s
  match sup.supData,fate.child with
  | none,_ | some _,none => some vm
  | some d,some a =>
    let id := vm.nextActorId
    let vm ← vm.create a cls (some s)
    if !fate.memory then vm.staActorTerminate a
    else
      let vm ← vm.setData s { d with children := ⟨cls,strategy,some a,id⟩ :: d.children }
      return vm.register id a fate.registers

/-- `sta_supervisor_init`. -/
def supervisorInit (vm : SupVm) (a maxRestarts maxSeconds : Nat) : Option SupVm :=
  vm.setData a ⟨[],0,0,maxRestarts,maxSeconds⟩

def letGo (vm : SupVm) (a : Nat) : Option SupVm := do
  let x ← vm.actors a
  if 0 < x.held then (vm.put a (some { x with held := x.held - 1 })).release a else none

/-- `sta_registry_lookup`. -/
def lookup (vm : SupVm) (id : Nat) : Option SupVm := do
  let a ← vm.registry id
  vm.modify a (fun x => { x with refcount := x.refcount + 1,held := x.held + 1 })

/-- `sta_mailbox_dequeue`. -/
def dequeue (vm : SupVm) (a : Nat) : Option SupVm := do
  let x ← vm.actors a
  match x.queue with
  | [] => some vm
  | _ :: rest =>
    vm.modify a (fun x => { x with
      queue := rest,count := if 0 < x.capacity then dec32 x.count else x.count })

end SupVm

/-! ### Runs -/

/-- What happens to actors: creation with or without a supervisor, scheduling, crashes, lookups,
messages, handling of notifications. -/
inductive SupEvent where
  | spawn (a : Nat) (cls : Oop) (registers : Bool)
  | init (a maxRestarts maxSeconds : Nat)
  | addChild (s : Nat) (cls : Oop) (strategy : RestartStrategy) (fate : Fate)
  | setState (a : Nat) (st : ActorState)
  | lookup (id : Nat)
  | letGo (a : Nat)
  | send (id : Nat) (msg : ActorMsg) (fate : Fate)
  | dequeue (a : Nat)
  | handle (s : Nat) (args : List Oop) (fate : Fate)

def supStep (exceedReason : Oop) (vm : SupVm) : SupEvent → Option SupVm
  | .spawn a cls registers => do
    return (← vm.create a cls none).register vm.nextActorId a registers
  | .init a maxRestarts maxSeconds => vm.supervisorInit a maxRestarts maxSeconds
  | .addChild s cls strategy fate => vm.addChild s cls strategy fate
  | .setState a st => vm.setState a st
  | .lookup id => vm.lookup id
  | .letGo a => vm.letGo a
  | .send id msg fate => vm.staActorSendMsg id msg fate
  | .dequeue a => vm.dequeue a
  | .handle s args fate => (vm.handleFailure exceedReason s args fate).map Prod.fst

def idsLeft (vm : SupVm) (_ : SupEvent) : Prop := vm.nextActorId + 1 < 2 ^ 32

instance (vm : SupVm) (e : SupEvent) : Decidable (idsLeft vm e) := by
  unfold idsLeft
  infer_instance

def bootRoot (objectClass : Oop) : SupActor :=
  ⟨2,.suspended,objectClass,none,some ⟨[],0,0,10,10⟩,1,0,[],0,mailboxDefaultCapacity⟩

/-- What `sta_vm_create` leaves. -/
def bootVm (objectClass : Oop) : SupVm where
  actors := update (fun _ => none) 1 (some (bootRoot objectClass))
  registry := update (fun _ => none) 2 (some 1)
  nextActorId := 3
  rootSupervisor := 1

end SmalltalkA
