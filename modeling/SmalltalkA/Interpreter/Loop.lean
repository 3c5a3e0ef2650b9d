import SmalltalkA.Interpreter.Exec

/-! The dispatch loop `interpret_loop_ex`: sends, returns, non-local returns and primitive calls. A
step is one bytecode instruction. -/

set_option autoImplicit false

namespace SmalltalkA

/-- The loop's own variables: the cached `slots` pointer and the reduction counter. The current
frame is the innermost one. -/
structure Machine (ω : Type) where
  exec : Exec ω
  slots : SlotPtr
  reductions : Nat

/-- Why a loop stops: the bottom frame returned, the actor yields with `saved_frame` set, a
primitive or a dead non-local return jumped to a handler, or the process died. -/
inductive Halt (ω : Type) where
  | returned (result : Oop) (e : Exec ω)
  | preempted (e : Exec ω)
  | unwound (e : Exec ω)
  | fault (f : Fault)

/-- How the loop runs: for a scheduled actor or for `sta_eval`, with a reduction quota (none never
runs out), and with or without the frame-reusing branch. -/
structure LoopMode where
  scheduled : Bool
  quota : Option Nat
  tailReuse : Bool

/-- The loop as `interpreter.c` has it. -/
def sourceMode (scheduled : Bool) : LoopMode := ⟨scheduled,some 1000,true⟩

section

variable {ω : Type}

def Machine.setStack (m : Machine ω) (k : CallStack) : Machine ω :=
  { m with exec := { m.exec with stack := k } }

def liftFault {α : Type} : Except Fault α → Except (Halt ω) α
  | .ok a => .ok a
  | .error f => .error (.fault f)

def enterLoop (e : Exec ω) : Machine ω :=
  match e.stack.frames with
  | f :: _ => ⟨e,effectiveSlots f.act,0⟩
  | [] => ⟨e,.inline,0⟩

@[simp] theorem enterLoop_exec (e : Exec ω) : (enterLoop e).exec = e := by
  unfold enterLoop
  split <;> rfl

def Exec.setLocals (e : Exec ω) (l : Locals) (w : World ω) : Exec ω :=
  match e.stack.frames with
  | f :: _ => ⟨w,e.stack.setAct { f.act with toLocals := l }⟩
  | [] => ⟨w,e.stack⟩

/-- `sta_stack_push` on the current frame. -/
def Exec.pushValue (e : Exec ω) (v : Oop) : Exec ω :=
  match e.stack.frames with
  | f :: _ => e.setLocals (f.act.toLocals.push v) e.world
  | [] => e

/-- The reduction check of `OP_SEND` and `OP_JUMP_BACK`. -/
def chargeReduction (mode : LoopMode) (m : Machine ω) : Except (Halt ω) (Machine ω) :=
  let reductions := m.reductions + 1
  match mode.quota with
  | none => .ok { m with reductions := reductions }
  | some quota =>
    if mode.scheduled ∧ quota ≤ reductions then .error (.preempted m.exec)
    else .ok { m with reductions := if quota ≤ reductions then 0 else reductions }

/-- A resolved send: the method found, with receiver and arguments off the stack. -/
structure Call where
  method : Oop
  code : CompiledMethod
  receiver : Oop
  args : List Oop
  /-- the next instruction is `OP_RETURN_TOP` -/
  isTail : Bool

variable (env : Env ω)

/-- Pop `n` arguments; the last one is on top. -/
def Locals.popArgs (l : Locals) (n : Nat) : Except Fault (List Oop × Locals) :=
  if n ≤ l.stack.length then
    .ok ((l.stack.take n).reverse,{ l with stack := l.stack.drop n })
  else .error .undefined

/-- The Message for `doesNotUnderstand:`; without room the selector itself, or nil for the argument
Array. -/
def makeMessage (w : World ω) (selector receiverClass : Oop) (args : List Oop) :
    Except Fault (Oop × World ω) :=
  match w.alloc clsMessage 3 with
  | none => .ok (selector,w)
  | some (msg,w) =>
    match w.alloc clsArray args.length with
    | none => do return (msg,← w.setSlots msg 0 [selector,env.nilOop,receiverClass])
    | some (arr,w) => do
      let w ← w.setSlots arr 0 args
      return (msg,← w.setSlots msg 0 [selector,arr,receiverClass])

/-- `OP_SEND` up to the method found, with the fall back to `doesNotUnderstand:`. -/
def findMethod (isSuper : Bool) (cm : CompiledMethod) (w : World ω) (selector receiver : Oop)
    (args : List Oop) : Except Fault (Oop × List Oop × World ω) := do
  let found ← if isSuper then superLookup env w cm selector
    else do methodLookup env w (← oopClassIndex w.mem receiver) selector
  if found ≠ 0 then return (found,args,w)
  if env.doesNotUnderstand = 0 then .error (.fatal (.doesNotUnderstand selector))
  else
    let index ← oopClassIndex w.mem receiver
    let dnu ← methodLookup env w index env.doesNotUnderstand
    if dnu = 0 then .error (.fatal (.doesNotUnderstand selector))
    else
      let (msg,w) ← makeMessage env w selector (classTableGet w index) args
      return (dnu,[msg],w)

/-- The part of a send that only concerns the current activation and the world. -/
def prepareSend (isSuper : Bool) (cm : CompiledMethod) (insn : Insn) (a : Activation)
    (w : World ω) : Except Fault (Call × Locals × World ω) := do
  let selector ← methodLiteral cm insn.operand
  let (args,l) ← a.toLocals.popArgs (env.selectorArity selector)
  let (receiver,l) ← l.pop
  let (found,args,w) ← findMethod env isSuper cm w selector receiver args
  let code ← defined (env.methods found)
  let l := l.advance insn.len
  let isTail := cm.bytecodes.getD l.pc 0 == Opcode.returnTop.code
  return (⟨found,code,receiver,args,isTail⟩,l,w)

/-- The primitive of a method: the header's index, or the operand of `OP_PRIMITIVE` when it did not
fit. -/
def calleePrimitive (code : CompiledMethod) : Nat :=
  let index := methodPrimIndex code.header
  if index ≠ 0 then index
  else
    let byte := fun i => code.bytecodes.getD i 0
    if byte 0 = Opcode.wide.code then byte 1 * 256 + byte 3
    else if byte 0 = Opcode.primitive.code then byte 1
    else 0

def findPrimitive (index : Nat) : Option (Primitive ω) :=
  if index < 256 then env.primitives index else none

/-- Execution of a primitive method's body starts after its `OP_PRIMITIVE`. -/
def entryPc (code : CompiledMethod) : Nat :=
  if methodHasPrim code.header then
    if methodPrimIndex code.header ≠ 0 then 2 else 4
  else 0

def calleeLocals (code : CompiledMethod) : Nat :=
  methodNumTemps code.header - methodNumArgs code.header

/-- A failed primitive leaves its code in the first temporary, if there is one. -/
def noteFailure (failure : Option Nat) (argCount localCount : Nat) (ptr : SlotPtr)
    (l : Locals) (w : World ω) : Except Fault (Locals × World ω) :=
  match failure with
  | some code =>
    if 0 < localCount then storeSlot ptr l w argCount (smallIntOop code) else .ok (l,w)
  | none => .ok (l,w)

/-- A tail send from a frame with a sender, to a method that needs no context and no more room than
the frame has. -/
def reusesFrame (mode : LoopMode) (k : CallStack) (c : Call) : Bool :=
  match k.frames with
  | f :: _ :: _ =>
    mode.tailReuse && c.isTail && !methodLargeFrame c.code.header &&
      decide (frameByteSize c.args.length (calleeLocals c.code) ≤
        frameByteSize f.act.argCount f.act.localCount)
  | _ => false

def startActivation (c : Call) (failure : Option Nat) (a : Activation) (w : World ω) :
    Except Fault (Activation × World ω) := do
  let (l,w) ← noteFailure failure a.argCount a.localCount (effectiveSlots a) a.toLocals w
  return ({ a with toLocals := { l with pc := entryPc c.code } },w)

/-- What the tail-call branch writes into the current frame, whose flags it keeps. -/
def reusedActivation (c : Call) (marker : Bool) : Activation :=
  { pc := 0
    temps := c.args ++ List.replicate (calleeLocals c.code) env.nilOop
    stack := []
    method := c.method
    receiver := c.receiver
    context := 0
    argCount := c.args.length
    localCount := calleeLocals c.code
    marker := marker }

/-- The tail-call branch overwrites method, receiver, context and slots of the current frame. -/
def reuseFrame (m : Machine ω) (c : Call) (failure : Option Nat) :
    Except Fault (Machine ω) :=
  match m.exec.stack.frames with
  | [] => .error .undefined
  | f :: _ => do
    let (a,w) ← startActivation c failure (reusedActivation env c f.act.marker) m.exec.world
    return { m with exec := ⟨w,m.exec.stack.setAct a⟩,slots := .inline }

def giveContext (a : Activation) (size : Nat) (w : World ω) :
    Except Fault (Activation × World ω) :=
  match w.alloc clsArray size with
  | none => .error (.fatal .contextAllocation)
  | some (ctx,w) =>
    if a.temps.length < size then .error .undefined
    else do
      let w ← w.setSlots ctx 0 (a.temps.take size)
      return ({ a with context := ctx,marker := true },w)

/-- The activation of the normal frame push of `OP_SEND`. -/
def pushedActivation (w : World ω) (c : Call) (failure : Option Nat) :
    Except Fault (Activation × World ω) := do
  let a := newActivation env.nilOop c.code.header c.method c.receiver c.args
  let (a,w) ← if methodLargeFrame c.code.header then
      giveContext a (c.args.length + calleeLocals c.code) w
    else .ok (a,w)
  startActivation c failure a w

def enterFrame (m : Machine ω) (a : Activation) (full : Fatal)
    (start : Except Fault (Activation × World ω)) : Except Fault (Machine ω) :=
  match framePush m.exec.stack a with
  | none => .error (.fatal full)
  | some k => do
    let (a,w) ← start
    return { m with exec := ⟨w,k.setAct a⟩,slots := effectiveSlots a }

def pushCall (m : Machine ω) (c : Call) (failure : Option Nat) : Except Fault (Machine ω) :=
  enterFrame m (newActivation env.nilOop c.code.header c.method c.receiver c.args)
    .stackOverflow (pushedActivation env m.exec.world c failure)

def activate (mode : LoopMode) (m : Machine ω) (c : Call) (failure : Option Nat) :
    Except Fault (Machine ω) :=
  if reusesFrame mode m.exec.stack c then reuseFrame env m c failure
  else pushCall env m c failure

/-- A BlockClosure's slots as `OP_SEND` reads them. -/
structure Closure where
  startPc : Nat
  method : Oop
  receiver : Oop
  tempOff : Nat
  /-- 0 without a context slot -/
  context : Oop

def readClosure (m : Memory) (o : Oop) : Except Fault Closure := do
  let startPc ← defined (m.slot o 0)
  let method ← defined (m.slot o 2)
  let receiver ← defined (m.slot o 3)
  let tempOff ← defined (m.slot o 4)
  let u32 := fun oop => (smallIntVal oop % 2 ^ 32).toNat
  return ⟨u32 startPc,method,receiver,u32 tempOff,(m.slot o 5).getD 0⟩

def blockActivation (home : CompiledMethod) (b : Closure) : Activation :=
  { newActivation env.nilOop home.header b.method b.receiver [] with
    pc := b.startPc,context := b.context }

/-- A closure's arguments go into the shared context, a clean block's into inline slots. -/
def activateBlock (m : Machine ω) (b : Closure) (args : List Oop) :
    Except Fault (Machine ω) := do
  let home ← defined (env.methods b.method)
  let a := blockActivation env home b
  enterFrame m a .blockStackOverflow (do
    let (l,w) ← storeSlots (effectiveSlots a) a.toLocals m.exec.world b.tempOff args
    return ({ a with toLocals := l },w))

/-- Primitives 81 to 84 on a BlockClosure enter the block instead of calling C. -/
def isBlockActivation (mem : Memory) (index : Nat) (receiver : Oop) : Except Fault Bool :=
  if 81 ≤ index ∧ index ≤ 84 ∧ isHeap receiver then do
    return (← oopClassIndex mem receiver) == clsBlockClosure
  else .ok false

/-- What `OP_SEND` does with a primitive's outcome; the cached slot pointer stays as it is. -/
def afterPrimitive (mode : LoopMode) (m : Machine ω) (c : Call) :
    PrimResult ω → Except (Halt ω) (Machine ω)
  | .success v e => .ok { m with exec := e.pushValue v }
  | .failure code e =>
    if code = primSuspend ∧ mode.scheduled then .error (.preempted e)
    else liftFault (activate env mode { m with exec := e } c (some code))
  | .unwound e => .error (.unwound e)
  | .aborted => .error (.fault (.fatal .inPrimitive))

/-- The rest of `OP_SEND` once the method is found. -/
def performCall (mode : LoopMode) (m : Machine ω) (c : Call) : Except (Halt ω) (Machine ω) :=
  if methodHasPrim c.code.header then do
    let index := calleePrimitive c.code
    if ← liftFault (isBlockActivation m.exec.world.mem index c.receiver) then
      liftFault (do activateBlock env m (← readClosure m.exec.world.mem c.receiver) c.args)
    else
      match findPrimitive env index with
      | some p => afterPrimitive env mode m c (p m.exec (c.receiver :: c.args))
      | none => liftFault (activate env mode m c (some primNotAvailable))
  else liftFault (activate env mode m c none)

/-- `do_return`: pop the current frame and hand the result to its sender. -/
def doReturn (m : Machine ω) (result : Oop) : Except (Halt ω) (Machine ω) :=
  let k := framePop m.exec.stack
  match k.frames with
  | [] => .error (.returned result ⟨m.exec.world,k⟩)
  | f :: _ =>
    .ok { m with
      exec := Exec.pushValue ⟨m.exec.world,k⟩ result,slots := effectiveSlots f.act }

/-- The frames from the home method on: the first marked frame with the block's context. -/
def findHome (homeCtx : Oop) : List Frame → List Frame
  | [] => []
  | f :: rest =>
    if f.act.marker ∧ f.act.context = homeCtx then f :: rest else findHome homeCtx rest

theorem findHome_suffix (ctx : Oop) (fs : List Frame) : findHome ctx fs <:+ fs := by
  induction fs with
  | nil => exact List.suffix_refl _
  | cons f rest ih =>
    unfold findHome
    split
    · exact List.suffix_refl _
    · exact ih.trans (List.suffix_cons _ _)

/-- Without a home on the stack, `BlockCannotReturn` goes to the handler chain. -/
def blockCannotReturn (e : Exec ω) (result : Oop) : Except (Halt ω) (Machine ω) :=
  let dead := Halt.fault (.fatal .blockCannotReturn)
  match e.world.alloc clsBlockCannotReturn 4 with
  | none => .error dead
  | some (exc,w) => do
    let w ← liftFault (w.setSlots exc 0 [env.nilOop,env.nilOop,result,env.nilOop])
    match ← liftFault (handlerFind env w exc w.handlers) with
    | _ :: prev => .error (.unwound ⟨{ w with handlers := prev,signaled := exc },e.stack⟩)
    | [] => .error dead

/-- `OP_NON_LOCAL_RETURN`. -/
def nonLocalReturn (m : Machine ω) (a : Activation) (senders : List Frame) :
    Except (Halt ω) (Machine ω) := do
  let (result,l) ← liftFault a.toLocals.pop
  match findHome a.context senders with
  | [] => blockCannotReturn env (m.exec.setLocals l m.exec.world) result
  | home :: rest =>
    doReturn (m.setStack { m.exec.stack with top := home.addr,frames := home :: rest }) result

/-- The values a primitive instruction passes: the receiver and the argument slots. -/
def primitiveArgs (ptr : SlotPtr) (a : Activation) (w : World ω) : Except Fault (List Oop) := do
  return a.receiver :: (← (List.range a.argCount).mapM (loadSlot ptr a.toLocals w))

def Exec.advance (e : Exec ω) (n : Nat) : Exec ω :=
  match e.stack.frames with
  | f :: _ => e.setLocals (f.act.toLocals.advance n) e.world
  | [] => e

/-- What `OP_PRIMITIVE` does with the outcome. A suspended primitive is retried: the `pc` stays on
it. -/
def afterPrimitiveInsn (mode : LoopMode) (m : Machine ω) (len : Nat) :
    PrimResult ω → Except (Halt ω) (Machine ω)
  | .success v e => .ok { m with exec := (e.pushValue v).advance len }
  | .failure code e =>
    if code = primSuspend ∧ mode.scheduled then .error (.preempted e)
    else match e.stack.frames with
      | f :: _ => do
        let (l,w) ← liftFault
          (noteFailure (some code) f.act.argCount f.act.localCount m.slots f.act.toLocals e.world)
        return { m with exec := (e.setLocals l w).advance len }
      | [] => .error (.fault .undefined)
  | .unwound e => .error (.unwound e)
  | .aborted => .error (.fault (.fatal .inPrimitive))

/-- `OP_PRIMITIVE`. -/
def runPrimitive (mode : LoopMode) (m : Machine ω) (insn : Insn) (a : Activation) :
    Except (Halt ω) (Machine ω) :=
  match findPrimitive env insn.operand with
  | none => .ok { m with exec := m.exec.advance insn.len }
  | some p => do
    let args ← liftFault (primitiveArgs m.slots a m.exec.world)
    afterPrimitiveInsn mode m insn.len (p m.exec args)

/-- `OP_SEND` and `OP_SEND_SUPER`, reduction check first. -/
def sendStep (mode : LoopMode) (m : Machine ω) (isSuper : Bool) (cm : CompiledMethod)
    (insn : Insn) (a : Activation) : Except (Halt ω) (Machine ω) := do
  let m ← chargeReduction mode m
  let (c,l,w) ← liftFault (prepareSend env isSuper cm insn a m.exec.world)
  performCall env mode { m with exec := m.exec.setLocals l w } c

/-- How an instruction goes on: within the activation, or through one of the transfers of
control. -/
inductive Control where
  | send (isSuper : Bool)
  | ret
  | nonLocalReturn
  | primitive
  | jumpBack
  | stay
  deriving DecidableEq

def control : Option Opcode → Control
  | some .send => .send false
  | some .sendSuper => .send true
  | some .returnTop | some .returnSelf | some .returnNil | some .returnTrue
  | some .returnFalse => .ret
  | some .nonLocalReturn => .nonLocalReturn
  | some .primitive => .primitive
  | some .jumpBack => .jumpBack
  | _ => .stay

/-- The `result` of the return instructions. -/
def returnValue (a : Activation) : Option Opcode → Except Fault Oop
  | some .returnTop => a.toLocals.peek
  | some .returnSelf => .ok a.receiver
  | some .returnNil => .ok env.nilOop
  | some .returnTrue => .ok env.trueOop
  | some .returnFalse => .ok env.falseOop
  | _ => .error .undefined

def stayStep (m : Machine ω) (cm : CompiledMethod) (insn : Insn) (a : Activation) :
    Except (Halt ω) (Machine ω) := do
  let (l,w) ← liftFault (localStep env m.slots cm insn a m.exec.world)
  return { m with exec := m.exec.setLocals l w }

/-- Decode the instruction at the current `pc` and execute it. -/
def dispatch (mode : LoopMode) (m : Machine ω) (a : Activation) (senders : List Frame)
    (cm : CompiledMethod) : Except (Halt ω) (Machine ω) :=
  let insn := decodeInsn cm.bytecodes a.pc
  let op := Opcode.ofCode insn.opcode
  match control op with
  | .send isSuper => sendStep env mode m isSuper cm insn a
  | .ret => do doReturn m (← liftFault (returnValue env a op))
  | .nonLocalReturn => nonLocalReturn env m a senders
  | .primitive => runPrimitive env mode m insn a
  | .jumpBack => do chargeReduction mode (← stayStep env m cm insn a)
  | .stay => stayStep env m cm insn a

def step (mode : LoopMode) (m : Machine ω) : Except (Halt ω) (Machine ω) :=
  match m.exec.stack.frames with
  | [] => .error (.fault .undefined)
  | f :: senders => do
    dispatch env mode m f.act senders (← liftFault (defined (env.methods f.act.method)))

variable {env}

variable {f : Frame} {m : Machine ω} {mode : LoopMode} {α : Type} {fs : List Frame} {k : CallStack}

theorem step_cons {senders : List Frame} (hf : m.exec.stack.frames = f :: senders) :
    step env mode m = liftFault (defined (env.methods f.act.method)) >>=
      dispatch env mode m f.act senders := by
  simp [step,hf]

theorem step_dispatch {senders : List Frame} {cm : CompiledMethod}
    (hf : m.exec.stack.frames = f :: senders) (hcm : env.methods f.act.method = some cm) :
    step env mode m = dispatch env mode m f.act senders cm := by
  rw [step_cons hf,hcm]
  rfl

/-! ### What the stack operations change -/

theorem liftFault_ok {r : Except Fault α} {a : α} (h : liftFault (ω := ω) r = .ok a) :
    r = .ok a := by
  cases r with
  | ok b => cases h; rfl
  | error f => cases h

theorem liftFault_error {r : Except Fault α} {h : Halt ω} (he : liftFault r = .error h) :
    ∃ f,h = .fault f := by
  cases r with
  | ok b => cases he
  | error f => cases he; exact ⟨f,rfl⟩

theorem defined_ok {o : Option α} {a : α} (h : defined o = .ok a) : o = some a := by
  cases o with
  | none => cases h
  | some b => cases h; rfl

theorem step_ok {m' : Machine ω} (h : step env mode m = .ok m') :
    ∃ f fs cm,m.exec.stack.frames = f :: fs ∧ env.methods f.act.method = some cm ∧
      dispatch env mode m f.act fs cm = .ok m' := by
  cases hf : m.exec.stack.frames with
  | nil => simp [step,hf] at h
  | cons f fs =>
    rw [step_cons hf] at h
    obtain ⟨cm,hcm,h⟩ := bind_ok h
    exact ⟨f,fs,cm,rfl,defined_ok (liftFault_ok hcm),h⟩

theorem chargeReduction_ok {m' : Machine ω} (h : chargeReduction mode m = .ok m') :
    ∃ r,m' = { m with reductions := r } := by
  unfold chargeReduction at h
  dsimp only at h
  split at h
  · cases h
    exact ⟨_,rfl⟩
  · split at h
    · cases h
    · cases h
      exact ⟨_,rfl⟩

def Machine.current (m : Machine ω) : Option Activation :=
  m.exec.stack.frames.head?.map Frame.act

theorem setLocals_frames {e : Exec ω} (h : e.stack.frames = f :: fs) (l : Locals) (w : World ω) :
    (e.setLocals l w).stack.frames = ⟨f.addr,{ f.act with toLocals := l }⟩ :: fs := by
  simp [Exec.setLocals,CallStack.setAct,h]

@[simp] theorem setAct_limit (k : CallStack) (a : Activation) : (k.setAct a).limit = k.limit := by
  unfold CallStack.setAct
  split <;> rfl

@[simp] theorem setLocals_limit (e : Exec ω) (l : Locals) (w : World ω) :
    (e.setLocals l w).stack.limit = e.stack.limit := by
  unfold Exec.setLocals
  split <;> simp

@[simp] theorem setLocals_world (e : Exec ω) (l : Locals) (w : World ω) :
    (e.setLocals l w).world = w := by
  unfold Exec.setLocals
  split <;> rfl

theorem pushValue_cons {e : Exec ω} (h : e.stack.frames = f :: fs) (v : Oop) :
    e.pushValue v = e.setLocals (f.act.toLocals.push v) e.world := by
  simp [Exec.pushValue,h]

theorem framePush_some {k' : CallStack} {a : Activation} (h : framePush k a = some k') :
    ∃ addr top,k' = { k with top := top,frames := ⟨addr,a⟩ :: k.frames } := by
  unfold framePush at h
  dsimp only at h
  split at h
  · exact ⟨_,_,(Option.some.inj h).symm⟩
  · cases h

theorem framePush_unbounded (hl : k.limit = none) (a : Activation) :
    ∃ k',framePush k a = some k' := by
  simp [framePush,CallStack.fits,hl]

theorem setAct_frames (h : k.frames = f :: fs) (a : Activation) :
    (k.setAct a).frames = ⟨f.addr,a⟩ :: fs := by
  simp [CallStack.setAct,h]

theorem startActivation_context {c : Call} {failure : Option Nat} {a a' : Activation}
    {w w' : World ω} (h : startActivation c failure a w = .ok (a',w')) :
    a'.context = a.context := by
  unfold startActivation at h
  cases hn : noteFailure failure a.argCount a.localCount (effectiveSlots a) a.toLocals w with
  | error f =>
    rw [hn] at h
    cases h
  | ok p =>
    rw [hn] at h
    cases h
    rfl

theorem doReturn_last (h : m.exec.stack.frames = [f]) (v : Oop) :
    doReturn m v = .error (.returned v ⟨m.exec.world,framePop m.exec.stack⟩) := by
  simp [doReturn,framePop,h]

/-- The machine after a return to the frame `g`. -/
def returnedTo (m : Machine ω) (top : Nat) (g : Frame) (rest : List Frame) (v : Oop) :
    Machine ω :=
  { m with
    exec := ⟨m.exec.world,{ m.exec.stack with
      top := top
      frames := ⟨g.addr,{ g.act with toLocals := g.act.toLocals.push v }⟩ :: rest }⟩
    slots := effectiveSlots g.act }

theorem doReturn_cons {g : Frame} {rest : List Frame} (h : m.exec.stack.frames = f :: g :: rest)
    (v : Oop) :
    doReturn m v = .ok (returnedTo m f.addr g rest v) := by
  simp [doReturn,framePop,h,Exec.pushValue,Exec.setLocals,CallStack.setAct,returnedTo]

end

end SmalltalkA
