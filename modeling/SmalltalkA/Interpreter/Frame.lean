import SmalltalkA.CompiledMethod
import SmalltalkA.Memory

/-! Activation frames on the stack slab (`frame.h`, `frame.c`), their words by role: fields, inline
slots (arguments, then temporaries), and the live part of the expression stack. -/

set_option autoImplicit false

namespace SmalltalkA

/-- What an instruction that stays in its activation may change. -/
structure Locals where
  pc : Nat
  /-- inline slots -/
  temps : List Oop
  /-- expression stack, top first -/
  stack : List Oop
  deriving DecidableEq,Repr

structure Activation extends Locals where
  method : Oop
  receiver : Oop
  /-- heap context, 0 if none -/
  context : Oop
  argCount : Nat
  localCount : Nat
  /-- `STA_FRAME_FLAG_MARKER`: the method activation that allocated `context` -/
  marker : Bool
  deriving DecidableEq,Repr

structure Frame where
  addr : Nat
  act : Activation
  deriving DecidableEq,Repr

/-- `sizeof(STA_Frame)`. -/
def frameHeaderSize : Nat := 56

def frameByteSize (argCount localCount : Nat) : Nat :=
  frameHeaderSize + 8 * (argCount + localCount)

def Frame.sp (f : Frame) : Nat :=
  f.addr + frameHeaderSize + 8 * (f.act.temps.length + f.act.stack.length)

/-- `STA_StackSlab`: `frames` is the sender chain of the running loop, innermost first; `outer` are
the chains of the loops it is nested in. A slab without `limit` never fills. -/
structure CallStack where
  base : Nat
  limit : Option Nat
  top : Nat
  frames : List Frame
  outer : List (List Frame)
  deriving DecidableEq,Repr

/-- `slab->sp`: each frame's `saved_sp` is where its sender's expression stack ends. -/
def CallStack.sp (k : CallStack) : Nat :=
  match k.frames,k.outer with
  | f :: _,_ => f.sp
  | [],(f :: _) :: _ => f.sp
  | [],_ => k.base

def CallStack.fits (k : CallStack) (a : Nat) : Bool :=
  match k.limit with
  | some e => decide (a ≤ e)
  | none => true

/-- The activation `sta_frame_push` sets up: arguments, then temporaries set to nil. -/
def newActivation (nilOop : Oop) (header method receiver : Oop) (args : List Oop) : Activation :=
  let localCount := methodNumTemps header - args.length
  { pc := 0
    temps := args ++ List.replicate localCount nilOop
    stack := []
    method := method
    receiver := receiver
    context := 0
    argCount := args.length
    localCount := localCount
    marker := false }

/-- `sta_frame_push`: the frame goes after the sender's expression stack, or after the bump pointer
if that is higher. -/
def framePush (k : CallStack) (a : Activation) : Option CallStack :=
  let addr := max k.top k.sp
  let top := addr + frameByteSize a.argCount a.localCount
  if k.fits top then some { k with top := top,frames := ⟨addr,a⟩ :: k.frames } else none

/-- `sta_frame_pop`. -/
def framePop (k : CallStack) : CallStack :=
  match k.frames with
  | f :: rest => { k with top := f.addr,frames := rest }
  | [] => k

def CallStack.setAct (k : CallStack) (a : Activation) : CallStack :=
  match k.frames with
  | f :: rest => { k with frames := ⟨f.addr,a⟩ :: rest }
  | [] => k

/-- The cached `slots` pointer: the current frame's inline slots, or an object's payload. -/
inductive SlotPtr where
  | inline
  | payload (object : Oop)
  deriving DecidableEq,Repr

/-- `effective_slots`. -/
def effectiveSlots (a : Activation) : SlotPtr :=
  if a.context = 0 then .inline else .payload a.context

/-- The program counter is a `uint32_t`. -/
def pcAdd (pc n : Nat) : Nat := (pc + n) % 2 ^ 32

namespace Locals

def push (l : Locals) (v : Oop) : Locals := { l with stack := v :: l.stack }

def advance (l : Locals) (n : Nat) : Locals := { l with pc := pcAdd l.pc n }

end Locals

end SmalltalkA
