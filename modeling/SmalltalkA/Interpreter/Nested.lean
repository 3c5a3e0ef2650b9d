import SmalltalkA.Actor.State
import SmalltalkA.Interpreter.Loop

/-! Loops nested through primitives. `on:do:`, `ensure:`, `signal` and a wait on a failed future
evaluate blocks with `sta_eval_block`, a new `interpret_loop_ex`; the C activations that wait for it
are a list, innermost first. -/

set_option autoImplicit false

namespace SmalltalkA

/-- An entry of the handler chain with the C activation its `jmp_buf` belongs to. -/
structure Handler where
  entry : HandlerEntry
  jmp : Nat
  deriving DecidableEq,Repr

/-- What belongs to one actor. -/
structure ActorRes where
  heap : Heap
  stack : CallStack
  handlers : List Handler
  signaled : Oop
  deriving DecidableEq,Repr

/-- The local variables of an `interpret_loop_ex`. -/
structure LoopVars where
  actor : Nat
  scheduled : Bool
  slots : SlotPtr
  reductions : Nat
  deriving DecidableEq,Repr

/-- What a waiting C activation evaluates: body or handler block of an `on:do:`, body or ensure
block of an `ensure:`, or an ensure block on the way to a handler. -/
inductive Stage where
  | onDo (h : Handler)
  | handler
  | ensureBody (h : Handler)
  | ensureBlock (result : Oop)
  | unwinding (exception : Oop) (target : Handler) (ensure : Nat)
  deriving DecidableEq,Repr

/-- A C activation that waits for a nested loop. -/
structure Pending where
  id : Nat
  caller : LoopVars
  /-- the length of the calling `OP_PRIMITIVE`, none for a send -/
  insnLen : Option Nat
  /-- `saved_slab_top` -/
  savedTop : Nat
  /-- number of loops on the root actor's slab below this call -/
  depth : Nat
  /-- `entry->prev`: the caller's handler chain at the call -/
  prev : List Handler
  stage : Stage
  deriving DecidableEq,Repr

/-- Blocks whose evaluation has started, and `ensure:` calls. -/
inductive EvalEvent where
  | entered (id : Nat)
  | ran (id : Nat)
  | handled (id : Nat)
  deriving DecidableEq,Repr

/-- One thread of the VM. `trace` is the history of the events, latest first. -/
structure Vm (ω : Type) where
  mem : Memory
  classTable : List Oop
  rest : ω
  actors : Nat → ActorRes
  loop : LoopVars
  pending : List Pending
  nextId : Nat
  trace : List EvalEvent

/-- How the thread's outermost loop ends; `exception` is the catch-all of
`sta_interpret_actor`. -/
inductive VmEnd where
  | returned (result : Oop)
  | preempted
  | exception
  | fault (f : Fault)
  deriving DecidableEq,Repr

section

variable {ω : Type}

namespace Vm

def own (vm : Vm ω) : ActorRes := vm.actors vm.loop.actor

def setActor (vm : Vm ω) (a : Nat) (r : ActorRes) : Vm ω :=
  { vm with actors := Function.update vm.actors a r }

def setHandlers (vm : Vm ω) (a : Nat) (hs : List Handler) : Vm ω :=
  vm.setActor a { vm.actors a with handlers := hs }

def setStack (vm : Vm ω) (a : Nat) (k : CallStack) : Vm ω :=
  vm.setActor a { vm.actors a with stack := k }

def setSignaled (vm : Vm ω) (a : Nat) (exc : Oop) : Vm ω :=
  vm.setActor a { vm.actors a with signaled := exc }

def log (vm : Vm ω) (ev : EvalEvent) : Vm ω := { vm with trace := ev :: vm.trace }

def world (vm : Vm ω) : World ω where
  heap := vm.own.heap
  mem := vm.mem
  classTable := vm.classTable
  handlers := vm.own.handlers.map Handler.entry
  signaled := vm.own.signaled
  rest := vm.rest

def machine (vm : Vm ω) : Machine ω :=
  ⟨⟨vm.world,vm.own.stack⟩,vm.loop.slots,vm.loop.reductions⟩

/-- Write back what the loop changed; the handler chain is left to the primitives below. -/
def setExec (vm : Vm ω) (e : Exec ω) : Vm ω :=
  { vm.setActor vm.loop.actor
      { vm.own with heap := e.world.heap,stack := e.stack,signaled := e.world.signaled } with
    mem := e.world.mem
    classTable := e.world.classTable
    rest := e.world.rest }

def setMachine (vm : Vm ω) (m : Machine ω) : Vm ω :=
  { vm.setExec m.exec with
    loop := { vm.loop with slots := m.slots,reductions := m.reductions } }

end Vm

def vmFault {α : Type} : Except Fault α → Except VmEnd α
  | .ok a => .ok a
  | .error f => .error (.fault f)

variable (env : Env ω)

def blockFrame (mem : Memory) (k : CallStack) (b : Closure) (args : List Oop) :
    Except Fault (Memory × CallStack × SlotPtr) := do
  let home ← defined (env.methods b.method)
  let a := blockActivation env home b
  match framePush k a with
  | none => .error (.fatal .inPrimitive)
  | some k =>
    match effectiveSlots a with
    | .inline => do
      let l ← a.toLocals.setTemps b.tempOff args
      return (mem,k.setAct { a with toLocals := l },.inline)
    | .payload ctx => do
      let w ← World.setSlots ⟨⟨0,0,0⟩,mem,[],[],0,()⟩ ctx b.tempOff args
      return (w.mem,k.setAct a,.payload ctx)

/-- `sta_eval_block`: a new loop on the root actor's slab, its first frame without a sender. -/
def evalBlock (vm : Vm ω) (p : Pending) (block : Oop) (args : List Oop) :
    Except VmEnd (Vm ω) := do
  let b ← vmFault (readClosure vm.mem block)
  let k := (vm.actors rootActor).stack
  let (mem,k,slots) ← vmFault
    (blockFrame env vm.mem { k with frames := [],outer := k.frames :: k.outer } b args)
  return { vm.setStack rootActor k with
    mem := mem
    loop := ⟨rootActor,false,slots,0⟩
    pending := p :: vm.pending }

def pendingCall (vm : Vm ω) (insnLen : Option Nat) (stage : Stage) : Pending :=
  { id := vm.nextId
    caller := vm.loop
    insnLen := insnLen
    savedTop := vm.own.stack.top
    depth := (vm.actors rootActor).stack.outer.length
    prev := vm.own.handlers
    stage := stage }

/-- `prim_on_do`. -/
def primOnDo (vm : Vm ω) (insnLen : Option Nat) (args : List Oop) : Except VmEnd (Vm ω) :=
  match args with
  | body :: excClass :: handlerBlock :: _ =>
    let h : Handler := ⟨⟨excClass,handlerBlock,false,0⟩,vm.nextId⟩
    let p := pendingCall vm insnLen (.onDo h)
    let vm := vm.setHandlers vm.loop.actor (h :: vm.own.handlers)
    evalBlock env { vm with nextId := vm.nextId + 1 } p body []
  | _ => .error (.fault .undefined)

/-- `prim_ensure`. -/
def primEnsure (vm : Vm ω) (insnLen : Option Nat) (args : List Oop) : Except VmEnd (Vm ω) :=
  match args with
  | body :: ensureBlock :: _ =>
    let h : Handler := ⟨⟨0,0,true,ensureBlock⟩,vm.nextId⟩
    let p := pendingCall vm insnLen (.ensureBody h)
    let vm := (vm.setHandlers vm.loop.actor (h :: vm.own.handlers)).log (.entered vm.nextId)
    evalBlock env { vm with nextId := vm.nextId + 1 } p body []
  | _ => .error (.fault .undefined)

/-- The first `on:do:` entry of the chain for the exception's class. -/
def findTarget (w : World ω) (exception : Oop) : List Handler → Except Fault (Option Handler)
  | [] => .ok none
  | h :: prev =>
    if h.entry.isEnsure then findTarget w exception prev
    else do
      let cls := classTableGet w (← oopClassIndex w.mem exception)
      if ← isKindOf env w h.entry.exceptionClass (w.classTable.length + 1) cls then
        return some h
      findTarget w exception prev

def unnest (k : CallStack) (depth : Nat) : CallStack :=
  match k.outer.drop (k.outer.length - (depth + 1)) with
  | fs :: outer => { k with frames := fs,outer := outer }
  | [] => k

/-- A `longjmp` lands in the `on:do:` that set the buffer, which evaluates its handler block. Only
the slab of that call's own actor is set back. -/
def longjmp (vm : Vm ω) (target : Handler) : Except VmEnd (Vm ω) :=
  if target.jmp = 0 then .error .exception
  else
    match vm.pending.dropWhile (fun p => p.id != target.jmp) with
    | p :: below =>
      match p.stage with
      | .onDo _ =>
        let k := (vm.actors p.caller.actor).stack
        let k := if p.caller.actor = rootActor then unnest k p.depth else k
        let vm := { vm.setStack p.caller.actor { k with top := p.savedTop } with
          loop := p.caller,pending := below }
        evalBlock env (vm.log (.handled p.id)) { p with stage := .handler }
          target.entry.handlerBlock [vm.own.signaled]
      | _ => .error (.fault .undefined)
    | [] => .error (.fault .undefined)

/-- The unwinding loop of `prim_signal`: ensure blocks are evaluated in turn, each with its entry
off the chain. -/
def unwind (vm : Vm ω) (p : Pending) (exception : Oop) (target : Handler) :
    List Handler → Except VmEnd (Vm ω)
  | [] => .error (.fault .undefined)
  | h :: prev =>
    if h.jmp = target.jmp then
      longjmp env ((vm.setHandlers p.caller.actor prev).setSignaled p.caller.actor exception)
        target
    else if h.entry.isEnsure then
      evalBlock env ((vm.setHandlers p.caller.actor prev).log (.ran h.jmp))
        { p with stage := .unwinding exception target h.jmp } h.entry.ensureBlock []
    else unwind vm p exception target prev

/-- `prim_signal` and `signal_future_failure` once there is an exception. -/
def signalException (vm : Vm ω) (insnLen : Option Nat) (exception : Oop) :
    Except VmEnd (Vm ω) := do
  match ← vmFault (findTarget env vm.world exception vm.own.handlers) with
  | none => .error (.fault (.fatal .inPrimitive))
  | some target =>
    let p := pendingCall vm insnLen (.unwinding exception target 0)
    unwind env { vm with nextId := vm.nextId + 1 } p exception target vm.own.handlers

def primSignal (vm : Vm ω) (insnLen : Option Nat) (args : List Oop) : Except VmEnd (Vm ω) :=
  match args with
  | exception :: _ => signalException env vm insnLen exception
  | [] => .error (.fault .undefined)

/-- `signal_future_failure`. -/
def signalFutureFailure (vm : Vm ω) (insnLen : Option Nat) (reason : Oop) :
    Except VmEnd (Vm ω) :=
  match vm.world.alloc clsFutureFailure 2 with
  | none => .error (.fault (.fatal .inPrimitive))
  | some (exc,w) => do
    let w ← vmFault (w.setSlots exc 0 [reason,env.nilOop])
    signalException env (vm.setExec ⟨w,vm.own.stack⟩) insnLen exc

def newBlockCannotReturn (vm : Vm ω) (result : Oop) : Except VmEnd (Oop × Vm ω) :=
  match vm.world.alloc clsBlockCannotReturn 4 with
  | none => .error (.fault (.fatal .blockCannotReturn))
  | some (exc,w) => do
    let w ← vmFault (w.setSlots exc 0 [env.nilOop,env.nilOop,result,env.nilOop])
    return (exc,vm.setExec ⟨w,vm.own.stack⟩)

/-- A non-local return without a home: `*htop = entry->prev`, and off to the handler. -/
def vmBlockCannotReturn (vm : Vm ω) (result : Oop) : Except VmEnd (Vm ω) := do
  let (exc,vm) ← newBlockCannotReturn env vm result
  match ← vmFault (findTarget env vm.world exc vm.own.handlers) with
  | none => .error (.fault (.fatal .blockCannotReturn))
  | some target =>
    let prev := (vm.own.handlers.dropWhile (fun h => h.jmp != target.jmp)).tail
    longjmp env ((vm.setHandlers vm.loop.actor prev).setSignaled vm.loop.actor exc) target

/-! ### Returning from a nested loop -/

def succeed (vm : Vm ω) (p : Pending) (v : Oop) : Vm ω :=
  let e := (⟨vm.world,vm.own.stack⟩ : Exec ω).pushValue v
  vm.setExec (match p.insnLen with
    | some len => e.advance len
    | none => e)

/-- The C code after `sta_eval_block` has returned. -/
def resume (vm : Vm ω) (p : Pending) (v : Oop) : Except VmEnd (Vm ω) :=
  match p.stage with
  | .onDo _ => .ok (succeed (vm.setHandlers p.caller.actor vm.own.handlers.tail) p v)
  | .handler => .ok (succeed vm p v)
  | .ensureBody h =>
    evalBlock env ((vm.setHandlers p.caller.actor vm.own.handlers.tail).log (.ran p.id))
      { p with stage := .ensureBlock v } h.entry.ensureBlock []
  | .ensureBlock r => .ok (succeed vm p r)
  | .unwinding exception target _ => unwind env vm p exception target vm.own.handlers

def CallStack.popLoop (k : CallStack) : CallStack :=
  match k.outer with
  | fs :: outer => { k with frames := fs,outer := outer }
  | [] => k

def finishLoop (vm : Vm ω) (v : Oop) : Except VmEnd (Vm ω) :=
  match vm.pending with
  | [] => .error (.returned v)
  | p :: below =>
    let k := (vm.actors rootActor).stack.popLoop
    resume env { vm.setStack rootActor k with loop := p.caller,pending := below } p v

/-! ### One instruction -/

/-- The primitives that are not plain functions of the execution context. -/
inductive Special where
  | onDo | signal | ensure
  | failedWait (reason : Oop)
  deriving DecidableEq

/-- `failed` tells whether a wait finds a FAILED future, and its reason. -/
def special (failed : World ω → List Oop → Option Oop) (w : World ω) (index : Nat)
    (args : List Oop) : Option Special :=
  if index = 88 then some .onDo
  else if index = 89 then some .signal
  else if index = 90 then some .ensure
  else if index = 201 then (failed w args).map .failedWait
  else none

def callSpecial (vm : Vm ω) (insnLen : Option Nat) (args : List Oop) :
    Special → Except VmEnd (Vm ω)
  | .onDo => primOnDo env vm insnLen args
  | .signal => primSignal env vm insnLen args
  | .ensure => primEnsure env vm insnLen args
  | .failedWait reason => signalFutureFailure env vm insnLen reason

def specialCall (failed : World ω → List Oop → Option Oop) (w : World ω) (c : Call) :
    Option Special :=
  if methodHasPrim c.code.header then
    special failed w (calleePrimitive c.code) (c.receiver :: c.args)
  else none

def afterStep (vm : Vm ω) : Except (Halt ω) (Machine ω) → Except VmEnd (Vm ω)
  | .ok m => .ok (vm.setMachine m)
  | .error (.returned v e) => finishLoop env (vm.setExec e) v
  | .error (.preempted _) => .error .preempted
  | .error (.unwound _) => .error (.fault .undefined)
  | .error (.fault f) => .error (.fault f)

def modeOf (l : LoopVars) : LoopMode := sourceMode l.scheduled

def vmSend (failed : World ω → List Oop → Option Oop) (vm : Vm ω) (isSuper : Bool)
    (cm : CompiledMethod) (insn : Insn) (a : Activation) : Except VmEnd (Vm ω) :=
  match chargeReduction (modeOf vm.loop) vm.machine with
  | .error h => afterStep env vm (.error h)
  | .ok m =>
    match prepareSend env isSuper cm insn a m.exec.world with
    | .error f => .error (.fault f)
    | .ok (c,l,w) =>
      let m := { m with exec := m.exec.setLocals l w }
      match specialCall failed w c with
      | some sp => callSpecial env (vm.setMachine m) none (c.receiver :: c.args) sp
      | none => afterStep env vm (performCall env (modeOf vm.loop) m c)

/-- `OP_PRIMITIVE`, with the special primitives. -/
def vmPrimitive (failed : World ω → List Oop → Option Oop) (vm : Vm ω) (insn : Insn)
    (a : Activation) : Except VmEnd (Vm ω) :=
  match primitiveArgs vm.loop.slots a vm.world with
  | .error f => .error (.fault f)
  | .ok args =>
    match special failed vm.world insn.operand args with
    | some sp => callSpecial env vm (some insn.len) args sp
    | none => afterStep env vm (runPrimitive env (modeOf vm.loop) vm.machine insn a)

/-- The value of a non-local return in a block whose home is not among the senders, popped. -/
def deadReturn (vm : Vm ω) (f : Frame) (senders : List Frame) : Option (Oop × Vm ω) :=
  match f.act.stack,findHome f.act.context senders with
  | result :: stack,[] =>
    let l := { f.act.toLocals with stack := stack }
    some (result,vm.setExec (vm.machine.exec.setLocals l vm.world))
  | _,_ => none

def vmStep (failed : World ω → List Oop → Option Oop) (vm : Vm ω) : Except VmEnd (Vm ω) :=
  match vm.own.stack.frames with
  | [] => .error (.fault .undefined)
  | f :: senders =>
    match env.methods f.act.method with
    | none => .error (.fault .undefined)
    | some cm =>
      let insn := decodeInsn cm.bytecodes f.act.pc
      match control (Opcode.ofCode insn.opcode) with
      | .send isSuper => vmSend env failed vm isSuper cm insn f.act
      | .primitive => vmPrimitive env failed vm insn f.act
      | .nonLocalReturn =>
        match deadReturn vm f senders with
        | some (result,vm) => vmBlockCannotReturn env vm result
        | none => afterStep env vm (step env (modeOf vm.loop) vm.machine)
      | _ => afterStep env vm (step env (modeOf vm.loop) vm.machine)

def Vm.nextInsn (vm : Vm ω) : Option (Frame × List Frame × CompiledMethod × Insn) :=
  match vm.own.stack.frames with
  | [] => none
  | f :: senders =>
    (env.methods f.act.method).map (fun cm => (f,senders,cm,decodeInsn cm.bytecodes f.act.pc))

/-! ### What the steps change -/

def Vm.chain (vm : Vm ω) (a : Nat) : List Handler := (vm.actors a).handlers

namespace Vm

variable (vm : Vm ω) (a : Nat)

@[simp] theorem chain_setHandlers (hs : List Handler) :
    (vm.setHandlers a hs).chain = Function.update vm.chain a hs := by
  funext b
  by_cases h : b = a
  · subst h
    simp [chain,setHandlers,setActor]
  · simp [chain,setHandlers,setActor,h]

@[simp] theorem chain_setStack (k : CallStack) : (vm.setStack a k).chain = vm.chain := by
  funext b
  by_cases h : b = a
  · subst h
    simp [chain,setStack,setActor]
  · simp [chain,setStack,setActor,h]

@[simp] theorem chain_setSignaled (exc : Oop) : (vm.setSignaled a exc).chain = vm.chain := by
  funext b
  by_cases h : b = a
  · subst h
    simp [chain,setSignaled,setActor]
  · simp [chain,setSignaled,setActor,h]

@[simp] theorem chain_setExec (e : Exec ω) : (vm.setExec e).chain = vm.chain := by
  funext b
  by_cases h : b = vm.loop.actor
  · subst h
    simp [chain,setExec,setActor,own]
  · simp [chain,setExec,setActor,h]

end Vm

/-- What the primitives for blocks look at and change. -/
structure Vm.SameControl (vm vm' : Vm ω) : Prop where
  chain : vm'.chain = vm.chain
  pending : vm'.pending = vm.pending
  trace : vm'.trace = vm.trace
  nextId : vm'.nextId = vm.nextId
  actor : vm'.loop.actor = vm.loop.actor

theorem setExec_sameControl (vm : Vm ω) (e : Exec ω) : vm.SameControl (vm.setExec e) :=
  ⟨vm.chain_setExec e,rfl,rfl,rfl,rfl⟩

theorem setMachine_sameControl (vm : Vm ω) (m : Machine ω) : vm.SameControl (vm.setMachine m) :=
  ⟨vm.chain_setExec m.exec,rfl,rfl,rfl,rfl⟩

/-- A nested loop has started. -/
structure Vm.Entered (vm vm' : Vm ω) (p : Pending) : Prop where
  chain : vm'.chain = vm.chain
  pending : vm'.pending = p :: vm.pending
  trace : vm'.trace = vm.trace
  nextId : vm'.nextId = vm.nextId
  actor : vm'.loop.actor = rootActor

variable {env}

variable {vm vm' : Vm ω} {failed : World ω → List Oop → Option Oop}

theorem bindVm_ok {α : Type} {r : Except Fault α} {f : α → Except VmEnd (Vm ω)}
    (h : (vmFault r >>= f) = .ok vm) : ∃ a,r = .ok a ∧ f a = .ok vm := by
  cases r with
  | ok a => exact ⟨a,rfl,h⟩
  | error f => cases h

theorem newBlockCannotReturn_sameControl {vm₁ : Vm ω} {result exc : Oop}
    (h : newBlockCannotReturn env vm result = .ok (exc,vm₁)) : vm.SameControl vm₁ := by
  unfold newBlockCannotReturn at h
  split at h
  · cases h
  · rename_i w hw
    cases hs : w.setSlots _ 0 [env.nilOop,env.nilOop,result,env.nilOop] with
    | error f =>
      rw [hs] at h
      cases h
    | ok w' =>
      rw [hs] at h
      cases h
      exact setExec_sameControl vm _

theorem findTarget_mem {w : World ω} {exception : Oop} {target : Handler} :
    ∀ {chain : List Handler},findTarget env w exception chain = .ok (some target) → target ∈ chain
  | [],h => by cases h
  | g :: prev,h => by
    unfold findTarget at h
    split at h
    · exact List.mem_cons_of_mem _ (findTarget_mem h)
    · obtain ⟨i,-,h⟩ := bind_ok h
      obtain ⟨b,-,h⟩ := bind_ok h
      cases b with
      | true =>
        cases h
        exact List.mem_cons_self
      | false => exact List.mem_cons_of_mem _ (findTarget_mem h)

theorem evalBlock_ok {p : Pending} {block : Oop} {args : List Oop}
    (h : evalBlock env vm p block args = .ok vm') : vm.Entered vm' p := by
  unfold evalBlock at h
  obtain ⟨b,-,h⟩ := bindVm_ok h
  obtain ⟨⟨mem,k,slots⟩,-,h⟩ := bindVm_ok h
  cases h
  exact ⟨vm.chain_setStack rootActor k,rfl,rfl,rfl,rfl⟩

def vmSpecial (env : Env ω) (failed : World ω → List Oop → Option Oop) (vm : Vm ω) :
    Option Special :=
  match vm.nextInsn env with
  | some (f,_,cm,insn) =>
    match control (Opcode.ofCode insn.opcode) with
    | .send isSuper =>
      match prepareSend env isSuper cm insn f.act vm.world with
      | .ok (c,_,w) => specialCall failed w c
      | .error _ => none
    | .primitive =>
      match primitiveArgs vm.loop.slots f.act vm.world with
      | .ok args => special failed vm.world insn.operand args
      | .error _ => none
    | _ => none
  | none => none

/-- The loop when it calls such a primitive: as before, or with receiver and arguments off the
stack. -/
def Prepared (env : Env ω) (vm : Vm ω) (m : Machine ω) : Prop :=
  m = vm.machine ∨ ∃ isSuper cm insn a c l w r,
    prepareSend env isSuper cm insn a vm.world = .ok (c,l,w) ∧
      m = ⟨vm.machine.exec.setLocals l w,vm.loop.slots,r⟩

/-- A step of the thread: within the running loop, the end of a nested one, a primitive that
evaluates blocks, or a non-local return without a home. -/
inductive VmMove (env : Env ω) (failed : World ω → List Oop → Option Oop) (vm vm' : Vm ω) : Prop
  | inner (m : Machine ω) : vmSpecial env failed vm = none →
      step env (modeOf vm.loop) vm.machine = .ok m → vm' = vm.setMachine m →
      VmMove env failed vm vm'
  | finish (e : Exec ω) (v : Oop) : vmSpecial env failed vm = none →
      step env (modeOf vm.loop) vm.machine = .error (.returned v e) →
      finishLoop env (vm.setExec e) v = .ok vm' → VmMove env failed vm vm'
  | call (m : Machine ω) (len : Option Nat) (args : List Oop) (sp : Special) :
      Prepared env vm m → callSpecial env (vm.setMachine m) len args sp = .ok vm' →
      VmMove env failed vm vm'
  | dead (f : Frame) (senders : List Frame) (cm : CompiledMethod) (insn : Insn) (vm₁ : Vm ω)
      (result : Oop) : vm.nextInsn env = some (f,senders,cm,insn) →
      control (Opcode.ofCode insn.opcode) = .nonLocalReturn →
      deadReturn vm f senders = some (result,vm₁) →
      vmBlockCannotReturn env vm₁ result = .ok vm' → VmMove env failed vm vm'

theorem afterStep_move {r : Except (Halt ω) (Machine ω)} (hsp : vmSpecial env failed vm = none)
    (hr : step env (modeOf vm.loop) vm.machine = r) (h : afterStep env vm r = .ok vm') :
    VmMove env failed vm vm' := by
  cases r with
  | ok m =>
    cases h
    exact .inner m hsp hr rfl
  | error halt =>
    cases halt with
    | returned v e => exact .finish e v hsp hr h
    | preempted e => cases h
    | unwound e => cases h
    | fault f => cases h

theorem setMachine_machine (vm : Vm ω) : vm.setMachine vm.machine = vm := by
  simp [Vm.setMachine,Vm.setExec,Vm.setActor,Vm.machine,Vm.world,Vm.own]

theorem vmSend_move {f : Frame} {senders : List Frame} {cm : CompiledMethod} {isSuper : Bool}
    (hf : vm.own.stack.frames = f :: senders) (hcm : env.methods f.act.method = some cm)
    (hop : control (Opcode.ofCode (decodeInsn cm.bytecodes f.act.pc).opcode) = .send isSuper)
    (h : vmSend env failed vm isSuper cm (decodeInsn cm.bytecodes f.act.pc) f.act = .ok vm') :
    VmMove env failed vm vm' := by
  have hstep : step env (modeOf vm.loop) vm.machine =
      sendStep env (modeOf vm.loop) vm.machine isSuper cm (decodeInsn cm.bytecodes f.act.pc)
        f.act := by
    rw [step_dispatch (m := vm.machine) hf hcm,dispatch]
    simp only [hop]
  unfold vmSend at h
  split at h
  · rename_i e he
    unfold chargeReduction at he
    dsimp only at he
    split at he
    · cases he
    · split at he
      · cases he
        cases h
      · cases he
  · rename_i m hm
    obtain ⟨r,rfl⟩ := chargeReduction_ok hm
    split at h
    · cases h
    · rename_i c l w hsend
      have hsp : vmSpecial env failed vm = specialCall failed w c := by
        simp only [vmSpecial,Vm.nextInsn,hf,hcm,Option.map_some,hop]
        rw [show prepareSend env isSuper cm _ f.act vm.world = .ok (c,l,w) from hsend]
      dsimp only at h
      split at h
      · exact .call _ none _ _ (.inr ⟨_,_,_,_,_,_,_,_,hsend,rfl⟩) h
      · rename_i hnone
        refine afterStep_move (hsp.trans hnone) ?_ h
        rw [hstep,sendStep,hm]
        change liftFault (prepareSend env isSuper cm _ f.act vm.machine.exec.world) >>= _ = _
        rw [hsend]
        rfl

theorem vmStep_move (h : vmStep env failed vm = .ok vm') : VmMove env failed vm vm' := by
  unfold vmStep at h
  split at h
  · cases h
  rename_i f senders hf
  split at h
  · cases h
  rename_i cm hcm
  dsimp only at h
  have hnext : vm.nextInsn env = some (f,senders,cm,decodeInsn cm.bytecodes f.act.pc) := by
    simp [Vm.nextInsn,hf,hcm]
  have hstep : step env (modeOf vm.loop) vm.machine =
      dispatch env (modeOf vm.loop) vm.machine f.act senders cm := step_dispatch hf hcm
  split at h
  · rename_i isSuper hop
    exact vmSend_move hf hcm hop h
  · rename_i hop
    unfold vmPrimitive at h
    split at h
    · cases h
    · rename_i args hargs
      have hsp : vmSpecial env failed vm =
          special failed vm.world (decodeInsn cm.bytecodes f.act.pc).operand args := by
        simp only [vmSpecial,hnext,hop,hargs]
      split at h
      · rw [← setMachine_machine vm] at h
        exact .call vm.machine _ _ _ (.inl rfl) h
      · rename_i hnone
        refine afterStep_move (hsp.trans hnone) ?_ h
        rw [hstep,dispatch]
        simp only [hop]
  · rename_i hop
    split at h
    · rename_i result vm₁ hdead
      exact .dead f senders cm _ vm₁ result hnext hop hdead h
    · exact afterStep_move (by simp only [vmSpecial,hnext,hop]) rfl h
  · exact afterStep_move (by simp only [vmSpecial,hnext]) rfl h

theorem deadReturn_sameControl {vm₁ : Vm ω} {f : Frame} {senders : List Frame} {result : Oop}
    (h : deadReturn vm f senders = some (result,vm₁)) : vm.SameControl vm₁ := by
  unfold deadReturn at h
  split at h
  · cases h
    exact setExec_sameControl vm _
  · cases h

end

end SmalltalkA
