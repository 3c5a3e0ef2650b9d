import SmalltalkA.Lib.Layout
import SmalltalkA.Opcode

/-! Assembly with structured jumps: a jump says how many bytes of code it passes over, a loop end
how many it repeats. The encoding writes these lengths the way the generator does. -/

set_option autoImplicit false

namespace SmalltalkA

open List

inductive AInstr where
  | op (o : Opcode) (operand : Nat)
  | jump (o : Opcode) (skip : Nat)
  | back (span : Nat)
  deriving DecidableEq,Repr

/-- Neither a jump nor the `OP_WIDE` marker. -/
def Opcode.isPlain : Opcode → Bool
  | .wide | .jump | .jumpTrue | .jumpFalse | .jumpBack => false
  | _ => true

def Opcode.isForward : Opcode → Bool
  | .jump | .jumpTrue | .jumpFalse => true
  | _ => false

def AInstr.WellFormed : AInstr → Prop
  | .op o _ => o.isPlain = true
  | .jump o _ => o.isForward = true
  | .back _ => True

/-- The bytes of `bb_emit_wide`. -/
def encodeWide (o : Opcode) (operand : Nat) : List Nat :=
  if operand ≤ 255 then [o.code,operand % 256]
  else [Opcode.wide.code,operand / 256 % 256,o.code,operand % 256]

/-- A loop end stores its span and its own length, taken to be two bytes. -/
def AInstr.bytes : AInstr → List Nat
  | .op o operand => encodeWide o operand
  | .jump o skip => [o.code,skip % 256]
  | .back span => encodeWide .jumpBack ((span + 2) % 65536)

def AInstr.size (a : AInstr) : Nat := a.bytes.length

abbrev codeSize (asm : List AInstr) : Nat := Layout.extent AInstr.size asm

abbrev codeListing (asm : List AInstr) : List (Nat × AInstr) := Layout.listing AInstr.size 0 asm

/-- The offset at which a jump taken at `pc` is meant to continue. -/
def AInstr.target : AInstr → Nat → Option Nat
  | .op _ _,_ => none
  | .jump _ skip,pc => some (pc + 2 + skip)
  | .back span,pc => some (pc - span)

def encode : List AInstr → List Nat
  | [] => []
  | a :: as => a.bytes ++ encode as

@[simp] theorem encode_append (as bs : List AInstr) : encode (as ++ bs) = encode as ++ encode bs := by
  induction as with
  | nil => rfl
  | cons a as ih => simp [encode,ih]

@[simp] theorem length_encode (as : List AInstr) : (encode as).length = codeSize as := by
  induction as with
  | nil => rfl
  | cons a as ih => simp [encode,codeSize,Layout.extent,AInstr.size,ih]

theorem encodeWide_length (o : Opcode) (k : Nat) :
    (encodeWide o k).length = if k ≤ 255 then 2 else 4 := by
  unfold encodeWide
  split <;> rfl

theorem AInstr.size_pos (a : AInstr) : 0 < a.size := by
  cases a with
  | op o k | back span =>
    rw [AInstr.size,AInstr.bytes,encodeWide_length]
    split <;> decide
  | jump o skip => exact Nat.zero_lt_two

@[simp] theorem size_jump (o : Opcode) (skip : Nat) : (AInstr.jump o skip).size = 2 := rfl

def AInstr.insn (a : AInstr) : Insn := decodeInsn a.bytes 0

theorem Opcode.code_ne_wide {o : Opcode} (h : o ≠ .wide) : o.code ≠ Opcode.wide.code :=
  fun he => h (Opcode.code_injective he)

theorem sweepFrom_encodeWide (o : Opcode) (k pc : Nat) (rest : List Nat) (h : o ≠ .wide) :
    sweepFrom pc (encodeWide o k ++ rest) =
      (pc,decodeInsn (encodeWide o k) 0) :: sweepFrom (pc + (encodeWide o k).length) rest := by
  have hw := Opcode.code_ne_wide h
  unfold encodeWide
  split
  · simp [sweepFrom_short,decodeInsn,hw]
  · simp [sweepFrom,decodeInsn]

theorem AInstr.sweepFrom_bytes {a : AInstr} (h : a.WellFormed) (pc : Nat) (rest : List Nat) :
    sweepFrom pc (a.bytes ++ rest) = (pc,a.insn) :: sweepFrom (pc + a.size) rest := by
  cases a with
  | op o k =>
    refine sweepFrom_encodeWide o k pc rest ?_
    rintro rfl
    cases h
  | jump o skip =>
    have ho : o ≠ .wide := by
      rintro rfl
      cases h
    have hw := Opcode.code_ne_wide ho
    simp [AInstr.bytes,AInstr.insn,AInstr.size,sweepFrom_short,decodeInsn,hw]
  | back span => exact sweepFrom_encodeWide .jumpBack _ pc rest (by decide)

theorem sweepFrom_encode {asm : List AInstr} (h : ∀ a ∈ asm,a.WellFormed) (pc : Nat) :
    sweepFrom pc (encode asm) =
      (Layout.listing AInstr.size pc asm).map fun e => (e.1,e.2.insn) := by
  induction asm generalizing pc with
  | nil => simp [encode,sweepFrom,Layout.listing]
  | cons a as ih =>
    have ha := h a mem_cons_self
    have has := ih (fun b hb => h b (mem_cons_of_mem _ hb)) (pc + a.size)
    simp [encode,AInstr.sweepFrom_bytes ha,has,Layout.listing]

theorem decodeInsn_of_mem_sweepFrom (bytes before : List Nat) {pc : Nat} {i : Insn}
    (h : (pc,i) ∈ sweepFrom before.length bytes) : decodeInsn (before ++ bytes) pc = i := by
  generalize hp : before.length = p at h
  fun_induction sweepFrom p bytes generalizing before with
  | case1 p hi op lo rest ih =>
    rcases mem_cons.mp h with h | h
    · obtain ⟨rfl,rfl⟩ := Prod.mk.inj h
      subst hp
      simp [decodeInsn,getD_eq_getElem?_getD]
    · have hrec := ih (before ++ [Opcode.wide.code,hi,op,lo]) (by simp [hp]) h
      simpa using hrec
  | case2 p hi rest hr => simp at h
  | case3 p op hi rest hop ih =>
    rcases mem_cons.mp h with h | h
    · obtain ⟨rfl,rfl⟩ := Prod.mk.inj h
      subst hp
      simp [decodeInsn,hop,getD_eq_getElem?_getD]
    · have hrec := ih (before ++ [op,hi]) (by simp [hp]) h
      simpa using hrec
  | case4 p l hl => simp at h

theorem decodeInsn_of_mem_sweep {bytes : List Nat} {pc : Nat} {i : Insn}
    (h : (pc,i) ∈ sweep bytes) : decodeInsn bytes pc = i :=
  decodeInsn_of_mem_sweepFrom bytes [] h

end SmalltalkA
