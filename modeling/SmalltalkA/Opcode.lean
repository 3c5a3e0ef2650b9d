import SmalltalkA.Oop

/-! The instruction set: two bytes, opcode and operand; an `OP_WIDE` pair before supplies the high
byte of a 16-bit operand. -/

set_option autoImplicit false

namespace SmalltalkA

inductive Opcode where
  | nop | wide
  | pushReceiver | pushNil | pushTrue | pushFalse
  | pushLit | pushTemp | pushInstvar | pushGlobal | pushContext
  | pushSmallint | pushMinusOne | pushZero | pushOne | pushTwo
  | storeTemp | storeInstvar | storeGlobal
  | popStoreTemp | popStoreInstvar | popStoreGlobal
  | storeOuterTemp | popStoreOuterTemp
  | send | sendSuper
  | returnTop | returnSelf | returnNil | returnTrue | returnFalse | nonLocalReturn
  | jump | jumpTrue | jumpFalse | jumpBack
  | pop | dup | primitive
  | blockCopy | closureCopy | pushOuterTemp
  | sendAsync | ask | actorSpawn | selfAddress
  deriving DecidableEq,Repr

def Opcode.code : Opcode → Nat
  | .nop => 0x00 | .wide => 0x01
  | .pushReceiver => 0x02 | .pushNil => 0x03 | .pushTrue => 0x04 | .pushFalse => 0x05
  | .pushLit => 0x06 | .pushTemp => 0x07 | .pushInstvar => 0x08 | .pushGlobal => 0x09
  | .pushContext => 0x0A | .pushSmallint => 0x0B | .pushMinusOne => 0x0C
  | .pushZero => 0x0D | .pushOne => 0x0E | .pushTwo => 0x0F
  | .storeTemp => 0x10 | .storeInstvar => 0x11 | .storeGlobal => 0x12
  | .popStoreTemp => 0x13 | .popStoreInstvar => 0x14 | .popStoreGlobal => 0x15
  | .storeOuterTemp => 0x16 | .popStoreOuterTemp => 0x17
  | .send => 0x20 | .sendSuper => 0x21
  | .returnTop => 0x30 | .returnSelf => 0x31 | .returnNil => 0x32
  | .returnTrue => 0x33 | .returnFalse => 0x34 | .nonLocalReturn => 0x35
  | .jump => 0x40 | .jumpTrue => 0x41 | .jumpFalse => 0x42 | .jumpBack => 0x43
  | .pop => 0x50 | .dup => 0x51 | .primitive => 0x52
  | .blockCopy => 0x60 | .closureCopy => 0x61 | .pushOuterTemp => 0x62
  | .sendAsync => 0x70 | .ask => 0x71 | .actorSpawn => 0x72 | .selfAddress => 0x73

/-- The dispatch loop's `switch`: bytes outside the instruction set are unknown. -/
def Opcode.ofCode : Nat → Option Opcode
  | 0x00 => some .nop | 0x01 => some .wide
  | 0x02 => some .pushReceiver | 0x03 => some .pushNil
  | 0x04 => some .pushTrue | 0x05 => some .pushFalse
  | 0x06 => some .pushLit | 0x07 => some .pushTemp
  | 0x08 => some .pushInstvar | 0x09 => some .pushGlobal
  | 0x0A => some .pushContext | 0x0B => some .pushSmallint
  | 0x0C => some .pushMinusOne | 0x0D => some .pushZero
  | 0x0E => some .pushOne | 0x0F => some .pushTwo
  | 0x10 => some .storeTemp | 0x11 => some .storeInstvar | 0x12 => some .storeGlobal
  | 0x13 => some .popStoreTemp | 0x14 => some .popStoreInstvar
  | 0x15 => some .popStoreGlobal
  | 0x16 => some .storeOuterTemp | 0x17 => some .popStoreOuterTemp
  | 0x20 => some .send | 0x21 => some .sendSuper
  | 0x30 => some .returnTop | 0x31 => some .returnSelf | 0x32 => some .returnNil
  | 0x33 => some .returnTrue | 0x34 => some .returnFalse | 0x35 => some .nonLocalReturn
  | 0x40 => some .jump | 0x41 => some .jumpTrue | 0x42 => some .jumpFalse
  | 0x43 => some .jumpBack
  | 0x50 => some .pop | 0x51 => some .dup | 0x52 => some .primitive
  | 0x60 => some .blockCopy | 0x61 => some .closureCopy | 0x62 => some .pushOuterTemp
  | 0x70 => some .sendAsync | 0x71 => some .ask | 0x72 => some .actorSpawn
  | 0x73 => some .selfAddress
  | _ => none

@[simp] theorem Opcode.ofCode_code (o : Opcode) : Opcode.ofCode o.code = some o := by
  cases o <;> rfl

theorem Opcode.code_injective {a b : Opcode} (h : a.code = b.code) : a = b := by
  have ha := Opcode.ofCode_code a
  rw [h,Opcode.ofCode_code b] at ha
  exact (Option.some.inj ha).symm

/-- One decoded instruction: opcode byte, operand and length in bytes. -/
structure Insn where
  opcode : Nat
  operand : Nat
  len : Nat
  deriving DecidableEq,Repr

/-- Operand decode of `interpret_loop_ex`. Bytes past the end read as 0. -/
def decodeInsn (bytecodes : List Nat) (pc : Nat) : Insn :=
  let opcode := bytecodes.getD pc 0
  let operand := bytecodes.getD (pc + 1) 0
  if opcode = Opcode.wide.code then
    ⟨bytecodes.getD (pc + 2) 0,operand * 256 + bytecodes.getD (pc + 3) 0,4⟩
  else ⟨opcode,operand,2⟩

def Insn.isJump (i : Insn) : Bool :=
  i.opcode == Opcode.jump.code || i.opcode == Opcode.jumpTrue.code ||
    i.opcode == Opcode.jumpFalse.code || i.opcode == Opcode.jumpBack.code

/-- The `pc` an executed jump leaves in the frame when it is taken, in `uint32_t`. -/
def Insn.jumpTarget (i : Insn) (pc : Nat) : Nat :=
  if i.opcode = Opcode.jumpBack.code then
    (pc + i.len + 2 ^ 32 - i.operand) % 2 ^ 32
  else (pc + i.len + i.operand) % 2 ^ 32

def sweepFrom (pc : Nat) : List Nat → List (Nat × Insn)
  | op :: hi :: rest =>
    if op = Opcode.wide.code then
      match rest with
      | op' :: lo :: rest' => (pc,⟨op',hi * 256 + lo,4⟩) :: sweepFrom (pc + 4) rest'
      | _ => []
    else (pc,⟨op,hi,2⟩) :: sweepFrom (pc + 2) rest
  | _ => []

theorem sweepFrom_short {op : Nat} (h : op ≠ Opcode.wide.code) (pc operand : Nat)
    (rest : List Nat) :
    sweepFrom pc (op :: operand :: rest) = (pc,⟨op,operand,2⟩) :: sweepFrom (pc + 2) rest := by
  rw [sweepFrom.eq_def]
  simp [h]

def sweep (bytecodes : List Nat) : List (Nat × Insn) := sweepFrom 0 bytecodes

end SmalltalkA
