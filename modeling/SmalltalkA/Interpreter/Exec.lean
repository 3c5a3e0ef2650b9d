import SmalltalkA.Interpreter.Frame

/-! The state the interpreter works on, method lookup, and the instructions that stay inside an
activation (`interpreter.c`). -/

set_option autoImplicit false

namespace SmalltalkA

/-- The `FATAL:` exits of the interpreter, each followed by `abort()`. -/
inductive Fatal where
  | doesNotUnderstand (selector : Oop)
  | blockStackOverflow
  | stackOverflow
  | contextAllocation
  | closureAllocation
  | mustBeBoolean (op : Opcode)
  | blockCannotReturn
  | outerTempChain (depth : Nat)
  | outerTempNoContext
  | notImplemented (opcode : Nat)
  | unknownOpcode (opcode pc : Nat)
  | inPrimitive
  deriving DecidableEq,Repr

/-- `undefined` is an access outside the objects and the activation it goes through. -/
inductive Fault where
  | fatal (f : Fatal)
  | undefined
  deriving DecidableEq,Repr

def defined {α : Type} : Option α → Except Fault α
  | some a => .ok a
  | none => .error .undefined

theorem bind_ok {ε α β : Type} {x : Except ε α} {f : α → Except ε β} {b : β}
    (h : x >>= f = .ok b) : ∃ a,x = .ok a ∧ f a = .ok b := by
  cases x with
  | ok a => exact ⟨a,rfl,h⟩
  | error e => cases h

theorem bind_error {ε α β : Type} {x : Except ε α} {f : α → Except ε β} {e : ε}
    (h : x >>= f = .error e) : x = .error e ∨ ∃ a,x = .ok a ∧ f a = .error e := by
  cases x with
  | ok a => exact .inr ⟨a,rfl,h⟩
  | error e' =>
    cases h
    exact .inl rfl

/-- `STA_HandlerEntry`; the list order is the `prev` chain. -/
structure HandlerEntry where
  exceptionClass : Oop
  handlerBlock : Oop
  isEnsure : Bool
  ensureBlock : Oop
  deriving DecidableEq,Repr

/-- What instructions and primitives share besides the stack; only primitives look at `rest`. -/
structure World (ω : Type) where
  heap : Heap
  mem : Memory
  classTable : List Oop
  handlers : List HandlerEntry
  signaled : Oop
  rest : ω

/-- `STA_ExecContext`, the VM and actor every primitive is given. -/
structure Exec (ω : Type) where
  world : World ω
  stack : CallStack

/-- Success with a result, failure with a code, a `longjmp` out of the running loop, or
`abort()`. -/
inductive PrimResult (ω : Type) where
  | success (result : Oop) (e : Exec ω)
  | failure (code : Nat) (e : Exec ω)
  | unwound (e : Exec ω)
  | aborted

/-- A primitive takes the receiver followed by the arguments. -/
abbrev Primitive (ω : Type) := Exec ω → List Oop → PrimResult ω

def primBadReceiver : Nat := 1
def primBadArgument : Nat := 2
def primOutOfRange : Nat := 3
def primNoMemory : Nat := 4
def primNotAvailable : Nat := 5
def primSuspend : Nat := 6

/-- What stays fixed during a run: special objects, compiled methods, selector arities, dictionary
lookup and the primitive table. -/
structure Env (ω : Type) where
  nilOop : Oop
  trueOop : Oop
  falseOop : Oop
  doesNotUnderstand : Oop
  methods : Oop → Option CompiledMethod
  selectorArity : Oop → Nat
  methodDictLookup : Memory → Oop → Oop → Oop
  primitives : Nat → Option (Primitive ω)

section

variable {ω : Type} (env : Env ω)

/-- `sta_method_literal`; the operand is cut to a byte. -/
def methodLiteral (cm : CompiledMethod) (operand : Nat) : Except Fault Oop :=
  defined cm.literals[operand % 256]?

/-- `oop_class_index`. -/
def oopClassIndex (m : Memory) (o : Oop) : Except Fault Nat :=
  if isSmallInt o then .ok clsSmallInteger
  else if isChar o then .ok clsCharacter
  else defined ((m o).map Obj.classIndex)

/-- `sta_class_table_get`. -/
def classTableGet (w : World ω) (index : Nat) : Oop := w.classTable.getD index 0

/-- The superclass walk of `method_lookup`. A chain longer than the class table repeats a class and
does not end. -/
def lookupFrom (w : World ω) (selector : Oop) : Nat → Oop → Except Fault Oop
  | 0,_ => .error .undefined
  | fuel + 1,cls =>
    if cls = 0 ∨ cls = env.nilOop then .ok 0
    else do
      let md ← defined (w.mem.slot cls 1)
      let found := if md = 0 then 0 else env.methodDictLookup w.mem md selector
      if found ≠ 0 then return found
      lookupFrom w selector fuel (← defined (w.mem.slot cls 0))

def methodLookup (w : World ω) (classIndex : Nat) (selector : Oop) : Except Fault Oop :=
  lookupFrom env w selector (w.classTable.length + 1) (classTableGet w classIndex)

/-- Lookup of `OP_SEND_SUPER`: from the superclass of the owner, the method's last literal. -/
def superLookup (w : World ω) (cm : CompiledMethod) (selector : Oop) : Except Fault Oop := do
  let owner ← methodLiteral cm (methodNumLiterals cm.header + 255)
  lookupFrom env w selector (w.classTable.length + 1) (← defined (w.mem.slot owner 0))

/-- `is_kind_of`. -/
def isKindOf (w : World ω) (target : Oop) : Nat → Oop → Except Fault Bool
  | 0,_ => .error .undefined
  | fuel + 1,cls =>
    if cls = 0 ∨ cls = env.nilOop then .ok false
    else if cls = target then .ok true
    else do isKindOf w target fuel (← defined (w.mem.slot cls 0))

/-- `sta_handler_find_ctx`, returning the chain from the matching entry on. -/
def handlerFind (w : World ω) (exception : Oop) :
    List HandlerEntry → Except Fault (List HandlerEntry)
  | [] => .ok []
  | entry :: prev =>
    if entry.isEnsure then handlerFind w exception prev
    else do
      let cls := classTableGet w (← oopClassIndex w.mem exception)
      if ← isKindOf env w entry.exceptionClass (w.classTable.length + 1) cls then
        return entry :: prev
      handlerFind w exception prev

def World.alloc (w : World ω) (classIndex nwords : Nat) : Option (Oop × World ω) :=
  (heapAlloc w.heap w.mem classIndex nwords).map
    (fun (o,h,m) => (o,{ w with heap := h,mem := m }))

def World.setSlot (w : World ω) (o : Oop) (i : Nat) (v : Oop) : Except Fault (World ω) := do
  return { w with mem := ← defined (w.mem.setSlot o i v) }

def World.setSlots (w : World ω) (o : Oop) (i : Nat) : List Oop → Except Fault (World ω)
  | [] => .ok w
  | v :: vs => do (← w.setSlot o i v).setSlots o (i + 1) vs

/-! Access to the activation. -/

def Locals.pop (l : Locals) : Except Fault (Oop × Locals) :=
  match l.stack with
  | v :: rest => .ok (v,{ l with stack := rest })
  | [] => .error .undefined

def Locals.peek (l : Locals) : Except Fault Oop := defined l.stack.head?

def Locals.setTemp (l : Locals) (i : Nat) (v : Oop) : Except Fault Locals :=
  if i < l.temps.length then .ok { l with temps := l.temps.set i v } else .error .undefined

def Locals.setTemps (l : Locals) (i : Nat) : List Oop → Except Fault Locals
  | [] => .ok l
  | v :: vs => do (← l.setTemp i v).setTemps (i + 1) vs

/-- `slots[i]` through the cached pointer. -/
def loadSlot (ptr : SlotPtr) (l : Locals) (w : World ω) (i : Nat) : Except Fault Oop :=
  match ptr with
  | .inline => defined l.temps[i]?
  | .payload o => defined (w.mem.slot o i)

def storeSlot (ptr : SlotPtr) (l : Locals) (w : World ω) (i : Nat) (v : Oop) :
    Except Fault (Locals × World ω) :=
  match ptr with
  | .inline => do return (← l.setTemp i v,w)
  | .payload o => do return (l,← w.setSlot o i v)

def storeSlots (ptr : SlotPtr) (l : Locals) (w : World ω) (i : Nat) (vs : List Oop) :
    Except Fault (Locals × World ω) :=
  match ptr with
  | .inline => do return (← l.setTemps i vs,w)
  | .payload o => do return (l,← w.setSlots o i vs)

def pushedValue (ptr : SlotPtr) (cm : CompiledMethod) (a : Activation) (w : World ω)
    (op : Opcode) (operand : Nat) : Except Fault Oop :=
  match op with
  | .pushReceiver => .ok a.receiver
  | .pushNil => .ok env.nilOop
  | .pushTrue => .ok env.trueOop
  | .pushFalse => .ok env.falseOop
  | .pushLit => methodLiteral cm operand
  | .pushTemp => loadSlot ptr a.toLocals w operand
  | .pushInstvar => defined (w.mem.slot a.receiver operand)
  | .pushGlobal => do defined (w.mem.slot (← methodLiteral cm operand) 1)
  | .pushSmallint => .ok (smallIntOop operand)
  | .pushMinusOne => .ok (smallIntOop (-1))
  | .pushZero => .ok (smallIntOop 0)
  | .pushOne => .ok (smallIntOop 1)
  | .pushTwo => .ok (smallIntOop 2)
  | .dup => a.toLocals.peek
  | _ => .error .undefined

/-- A jump that tests the popped Boolean: taken on `on`, passed on `off`. -/
def condJump (op : Opcode) (on off : Oop) (insn : Insn) (l : Locals) : Except Fault Locals := do
  let (v,l) ← l.pop
  if v = on then return l.advance (insn.len + insn.operand)
  else if v = off then return l.advance insn.len
  else .error (.fatal (.mustBeBoolean op))

/-- `OP_BLOCK_COPY` and `OP_CLOSURE_COPY`: a BlockClosure from the descriptor literal, with the
context as sixth slot for a closure; control continues after the body. -/
def copyBlock (extra : List Oop) (cm : CompiledMethod) (insn : Insn) (a : Activation)
    (w : World ω) : Except Fault (Locals × World ω) := do
  let desc ← methodLiteral cm insn.operand
  let startPc ← defined (w.mem.slot desc 0)
  let bodyLen ← defined (w.mem.slot desc 1)
  let numArgs ← defined (w.mem.slot desc 2)
  let tempOff ← defined (w.mem.slot desc 3)
  match w.alloc clsBlockClosure (5 + extra.length) with
  | none => .error (.fatal .closureAllocation)
  | some (closure,w) =>
    let w ← w.setSlots closure 0 ([startPc,numArgs,a.method,a.receiver,tempOff] ++ extra)
    let target := ((smallIntVal startPc + smallIntVal bodyLen) % 2 ^ 32).toNat
    return ({ a.toLocals.push closure with pc := target },w)

def outerOperand (insn : Insn) : Nat × Nat :=
  if insn.len = 4 then (insn.operand / 256,insn.operand % 256)
  else (insn.operand / 16,insn.operand % 16)

/-- The context of an outer-temp instruction: all depths share the method's. -/
def outerContext (a : Activation) (depth : Nat) : Except Fault Oop :=
  if a.context ≠ 0 then .ok a.context
  else if 0 < depth then .error (.fatal (.outerTempChain 0))
  else .error (.fatal .outerTempNoContext)

/-- Instructions that neither enter nor leave an activation nor call a primitive. -/
def localStep (ptr : SlotPtr) (cm : CompiledMethod) (insn : Insn) (a : Activation)
    (w : World ω) : Except Fault (Locals × World ω) :=
  let l := a.toLocals
  match Opcode.ofCode insn.opcode with
  | some .nop => .ok (l.advance insn.len,w)
  | some .storeTemp => do
    let (l,w) ← storeSlot ptr l w insn.operand (← l.peek)
    return (l.advance insn.len,w)
  | some .popStoreTemp => do
    let (v,l) ← l.pop
    let (l,w) ← storeSlot ptr l w insn.operand v
    return (l.advance insn.len,w)
  | some .storeInstvar => do
    return (l.advance insn.len,← w.setSlot a.receiver insn.operand (← l.peek))
  | some .popStoreInstvar => do
    let (v,l) ← l.pop
    return (l.advance insn.len,← w.setSlot a.receiver insn.operand v)
  | some .storeGlobal => do
    let assoc ← methodLiteral cm insn.operand
    return (l.advance insn.len,← w.setSlot assoc 1 (← l.peek))
  | some .popStoreGlobal => do
    let assoc ← methodLiteral cm insn.operand
    let (v,l) ← l.pop
    return (l.advance insn.len,← w.setSlot assoc 1 v)
  | some .jump => .ok (l.advance (insn.len + insn.operand),w)
  | some .jumpTrue => do
    return (← condJump .jumpTrue env.trueOop env.falseOop insn l,w)
  | some .jumpFalse => do
    return (← condJump .jumpFalse env.falseOop env.trueOop insn l,w)
  | some .jumpBack => .ok ({ l with pc := insn.jumpTarget l.pc },w)
  | some .pop => do
    let (_,l) ← l.pop
    return (l.advance insn.len,w)
  | some .blockCopy => copyBlock [] cm insn a w
  | some .closureCopy => copyBlock [a.context] cm insn a w
  | some .pushOuterTemp => do
    let (depth,slot) := outerOperand insn
    let v ← defined (w.mem.slot (← outerContext a depth) slot)
    return ((l.push v).advance insn.len,w)
  | some .storeOuterTemp => do
    let (depth,slot) := outerOperand insn
    return (l.advance insn.len,← w.setSlot (← outerContext a depth) slot (← l.peek))
  | some .popStoreOuterTemp => do
    let (depth,slot) := outerOperand insn
    let ctx ← outerContext a depth
    let (v,l) ← l.pop
    return (l.advance insn.len,← w.setSlot ctx slot v)
  | some .sendAsync | some .ask | some .actorSpawn | some .selfAddress | some .pushContext =>
    .error (.fatal (.notImplemented insn.opcode))
  | some .wide | none => .error (.fatal (.unknownOpcode insn.opcode l.pc))
  | some op => do
    let v ← pushedValue env ptr cm a w op insn.operand
    return ((l.push v).advance insn.len,w)

end

end SmalltalkA
