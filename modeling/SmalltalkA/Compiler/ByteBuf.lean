import SmalltalkA.Compiler.Ast

/-! The code generator's growable buffers: bytecodes with jump patching, and the literal frame.
Offsets are `uint32_t`, operands `uint16_t`. -/

set_option autoImplicit false

namespace SmalltalkA

/-- `limit` is the largest size `realloc` grants. The capacity only doubles, so no buffer holds more
than `2^31` bytes. -/
structure ByteBuf where
  bytes : List Nat
  oom : Bool
  limit : Nat
  limit_le : limit ≤ 2 ^ 31
  bytes_le : bytes.length ≤ limit

def ByteBuf.count (b : ByteBuf) : Nat := b.bytes.length

theorem ByteBuf.count_le (b : ByteBuf) : b.count ≤ 2 ^ 31 := Nat.le_trans b.bytes_le b.limit_le

/-- Append bytes, or set the sticky `oom` flag when the buffer cannot grow. -/
def bbWrite (b : ByteBuf) (bytes : List Nat) : ByteBuf :=
  if b.oom then b
  else if h : b.bytes.length + bytes.length ≤ b.limit then
    { b with bytes := b.bytes ++ bytes,bytes_le := by simpa using h }
  else { b with oom := true }

def bbEmit (b : ByteBuf) (op : Opcode) (operand : Nat) : ByteBuf :=
  bbWrite b [op.code,operand % 256]

def bbEmitWide (b : ByteBuf) (op : Opcode) (operand : Nat) : ByteBuf :=
  if operand ≤ 255 then bbEmit b op operand
  else bbWrite b [Opcode.wide.code,operand / 256 % 256,op.code,operand % 256]

def bbSet (b : ByteBuf) (i byte : Nat) : ByteBuf :=
  { b with bytes := b.bytes.set i byte,bytes_le := by simpa using b.bytes_le }

/-- Write a forward jump's offset into its operand; `jumpPc` is the opcode byte. -/
def bbPatchJump (b : ByteBuf) (jumpPc targetPc : Nat) : ByteBuf :=
  let offset := (targetPc + 2 ^ 32 - (jumpPc + 2)) % 2 ^ 32
  if 2 ≤ jumpPc ∧ b.bytes.getD (jumpPc - 2) 0 = Opcode.wide.code then
    bbSet (bbSet b (jumpPc - 1) (offset / 256 % 256)) (jumpPc + 1) (offset % 256)
  else bbSet b (jumpPc + 1) (offset % 256)

/-- `lb_add`: reuse an equal entry, else append. The index is cut to 16 bits. -/
def lbAdd (l : List Oop) (oop : Oop) : Nat × List Oop :=
  match l.findIdx? (· == oop) with
  | some i => (i % 65536,l)
  | none => (l.length % 65536,l ++ [oop])

def lbAddUnique (l : List Oop) (oop : Oop) : Nat × List Oop :=
  (l.length % 65536,l ++ [oop])

end SmalltalkA
