import SmalltalkA.Compiler.Refine
import SmalltalkA.Interpreter.Loop
import SmalltalkA.Lib.Runs

/-! Compiled code run by the dispatch loop: where its bytes lie, and what it does to the expression
stack. -/

set_option autoImplicit false

namespace SmalltalkA

open Runs List

/-- The bytes of `asm` are at an offset of the method. -/
def CodeAt (cm : CompiledMethod) (pos : Nat) (asm : List AInstr) : Prop :=
  ∃ before after,cm.bytecodes = before ++ encode asm ++ after ∧ before.length = pos

namespace CodeAt

variable {cm : CompiledMethod} {pos : Nat} {asm asm' : List AInstr} {a : AInstr}

theorem left (h : CodeAt cm pos (asm ++ asm')) : CodeAt cm pos asm := by
  obtain ⟨before,after,hbytes,hpos⟩ := h
  exact ⟨before,encode asm' ++ after,by simp [hbytes],hpos⟩

theorem right (h : CodeAt cm pos (asm ++ asm')) : CodeAt cm (pos + codeSize asm) asm' := by
  obtain ⟨before,after,hbytes,hpos⟩ := h
  exact ⟨before ++ encode asm,after,by simp [hbytes],by simp [hpos]⟩

theorem decode (h : CodeAt cm pos (a :: asm)) (ha : a.WellFormed) :
    decodeInsn cm.bytecodes pos = a.insn := by
  obtain ⟨before,after,hbytes,rfl⟩ := h
  rw [hbytes,append_assoc]
  apply decodeInsn_of_mem_sweepFrom
  rw [encode,append_assoc,AInstr.sweepFrom_bytes ha]
  exact mem_cons_self

theorem bound (h : CodeAt cm pos asm) : pos + codeSize asm ≤ cm.bytecodes.length := by
  obtain ⟨before,after,hbytes,rfl⟩ := h
  simp [hbytes]

end CodeAt

theorem op_insn {o : Opcode} (ho : o.isPlain = true) (k : Nat) :
    (AInstr.op o k).insn = ⟨o.code,k % 65536,(AInstr.op o k).size⟩ := by
  have hwide : o.code ≠ Opcode.wide.code := Opcode.code_ne_wide (by rintro rfl; cases ho)
  rw [AInstr.insn,AInstr.size,AInstr.bytes,encodeWide_length]
  unfold encodeWide
  by_cases hk : k ≤ 255
  · simp only [hk,if_true,decodeInsn,getD_cons_zero,getD_cons_succ,hwide,if_false]
    rw [Nat.mod_eq_of_lt (by omega),Nat.mod_eq_of_lt (by omega)]
  · simp only [hk,if_false,decodeInsn,getD_cons_zero,getD_cons_succ,if_true]
    rw [show k / 256 % 256 * 256 + k % 256 = k % 65536 by omega]

/-- A frame by where it is, how many senders it has and what it runs. -/
structure Place where
  addr : Nat
  depth : Nat
  method : Oop

section

variable {ω : Type} (env : Env ω) (mode : LoopMode)

/-- The current frame is the one at `q`, at `pc` and with the given expression stack. -/
def Place.At (q : Place) (m : Machine ω) (pc : Nat) (stack : List Oop) : Prop :=
  ∃ act senders,m.exec.stack.frames = ⟨q.addr,act⟩ :: senders ∧ senders.length = q.depth ∧
    act.method = q.method ∧ act.pc = pc ∧ act.stack = stack

/-- The loop gets from one offset of a frame to another, with what it calls in between. -/
structure Place.Goes (q : Place) (m : Machine ω) (pc : Nat) (stack : List Oop) (m' : Machine ω)
    (pc' : Nat) (stack' : List Oop) : Prop where
  start : q.At m pc stack
  stop : q.At m' pc' stack'
  run : Reaches (step env mode) m m'

def Machine.withStack (m : Machine ω) (pc : Nat) (stack : List Oop) : Machine ω :=
  match m.exec.stack.frames with
  | f :: _ =>
    { m with exec := m.exec.setLocals { f.act.toLocals with pc := pc,stack := stack } m.exec.world }
  | [] => m

variable {env mode} {q : Place} {m m' m'' : Machine ω} {pc pc' pc'' : Nat}
  {stack stack' stack'' : List Oop}

theorem Place.At.withStack (h : q.At m pc stack) (pc' : Nat) (stack' : List Oop) :
    q.At (m.withStack pc' stack') pc' stack' := by
  obtain ⟨act,senders,hframes,hdepth,hmethod,-,-⟩ := h
  refine ⟨{ act with pc := pc',stack := stack' },senders,?_,hdepth,hmethod,rfl,rfl⟩
  simp only [Machine.withStack,hframes]
  exact setLocals_frames hframes _ _

theorem Place.Goes.trans (h : q.Goes env mode m pc stack m' pc' stack')
    (h' : q.Goes env mode m' pc' stack' m'' pc'' stack'') :
    q.Goes env mode m pc stack m'' pc'' stack'' :=
  ⟨h.start,h'.stop,h.run.trans h'.run⟩

theorem Place.Goes.step (hm : q.At m pc stack) (hm' : q.At m' pc' stack')
    (hstep : SmalltalkA.step env mode m = .ok m') : q.Goes env mode m pc stack m' pc' stack' :=
  ⟨hm,hm',(Reaches.refl m).tail hstep⟩

theorem Place.Goes.plain {cm : CompiledMethod} {o : Opcode} {k : Nat} {asm : List AInstr}
    (hm : q.At m pc stack) (hcm : env.methods q.method = some cm)
    (hcode : CodeAt cm pc (.op o k :: asm)) (ho : o.isPlain = true)
    (hcontrol : control (some o) = .stay) (hbound : cm.bytecodes.length < 2 ^ 32)
    (hlocal : ∀ a : Activation,a.stack = stack →
      localStep env m.slots cm (AInstr.op o k).insn a m.exec.world =
        .ok ({ a.toLocals with stack := stack' }.advance (AInstr.op o k).insn.len,m.exec.world)) :
    q.Goes env mode m pc stack (m.withStack (pc + (AInstr.op o k).size) stack')
      (pc + (AInstr.op o k).size) stack' := by
  refine .step hm (hm.withStack _ _) ?_
  obtain ⟨act,senders,hframes,hdepth,hmethod,rfl,hstack⟩ := hm
  have hop := op_insn ho k
  have hsize : act.pc + (AInstr.op o k).size < 2 ^ 32 := by
    have hle := hcode.bound
    simp only [codeSize,Layout.extent] at hle
    omega
  have hpc : pcAdd act.pc (AInstr.op o k).insn.len = act.pc + (AInstr.op o k).size := by
    rw [hop]
    exact Nat.mod_eq_of_lt hsize
  have hdec : decodeInsn cm.bytecodes act.pc = (AInstr.op o k).insn := hcode.decode ho
  rw [step_dispatch hframes (hmethod ▸ hcm)]
  unfold dispatch
  simp only [hdec]
  have hopcode : Opcode.ofCode (AInstr.op o k).insn.opcode = some o := by
    rw [hop,Opcode.ofCode_code]
  rw [hopcode,hcontrol]
  dsimp only [stayStep]
  rw [hlocal act hstack]
  simp only [liftFault,bind,Except.bind,pure,Except.pure,Machine.withStack,hframes,Locals.advance,
    hpc]

variable (mode) {cm : CompiledMethod} {asm : List AInstr} {v : Oop}
  (hcm : env.methods q.method = some cm) (hbound : cm.bytecodes.length < 2 ^ 32)

include hcm hbound

theorem Place.Goes.dup (hm : q.At m pc (v :: stack)) (hcode : CodeAt cm pc (.op .dup 0 :: asm)) :
    q.Goes env mode m pc (v :: stack) (m.withStack (pc + 2) (v :: v :: stack)) (pc + 2)
      (v :: v :: stack) := by
  refine Place.Goes.plain hm hcm hcode rfl rfl hbound (fun a ha => ?_)
  rw [op_insn rfl]
  simp [localStep,Opcode.ofCode,Opcode.code,pushedValue,Locals.peek,ha,defined,bind,Except.bind,
    pure,Except.pure,Locals.push]

theorem Place.Goes.pop (hm : q.At m pc (v :: stack)) (hcode : CodeAt cm pc (.op .pop 0 :: asm)) :
    q.Goes env mode m pc (v :: stack) (m.withStack (pc + 2) stack) (pc + 2) stack := by
  refine Place.Goes.plain hm hcm hcode rfl rfl hbound (fun a ha => ?_)
  rw [op_insn rfl]
  simp [localStep,Opcode.ofCode,Opcode.code,Locals.pop,ha,bind,Except.bind,pure,Except.pure]

end

end SmalltalkA
