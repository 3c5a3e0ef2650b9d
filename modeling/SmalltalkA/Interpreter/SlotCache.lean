import SmalltalkA.Interpreter.Loop
import SmalltalkA.Lib.Runs

/-! The cached `slots` pointer. Every transfer of control recomputes it; a primitive does not. -/

set_option autoImplicit false

namespace SmalltalkA

open Runs

section

variable {ω : Type}

/-- The pointer is `effective_slots` of the current frame. -/
def SlotsValid (m : Machine ω) : Prop := m.current.map effectiveSlots = some m.slots

def Exec.context (e : Exec ω) : Option Oop :=
  e.stack.frames.head?.map (fun f => f.act.context)

variable (env : Env ω)

def callResumes (e : Exec ω) (c : Call) : Option (Exec ω) :=
  if methodHasPrim c.code.header then
    match isBlockActivation e.world.mem (calleePrimitive c.code) c.receiver,
        findPrimitive env (calleePrimitive c.code) with
    | .ok false,some p =>
      match p e (c.receiver :: c.args) with
      | .success _ e' => some e'
      | _ => none
    | _,_ => none
  else none

/-- What the primitive of `OP_PRIMITIVE` leaves behind unless it suspends. -/
def insnResumes (mode : LoopMode) (m : Machine ω) (insn : Insn) (a : Activation) :
    Option (Exec ω) :=
  match findPrimitive env insn.operand,primitiveArgs m.slots a m.exec.world with
  | some p,.ok args =>
    match p m.exec args with
    | .success _ e' => some e'
    | .failure code e' => if code = primSuspend ∧ mode.scheduled then none else some e'
    | _ => none
  | _,_ => none

/-- What a primitive called by the next instruction leaves behind in the same activation. -/
def resumedAfter (mode : LoopMode) (m : Machine ω) : Option (Exec ω) :=
  match m.exec.stack.frames with
  | [] => none
  | f :: _ =>
    match env.methods f.act.method with
    | none => none
    | some cm =>
      let insn := decodeInsn cm.bytecodes f.act.pc
      match control (Opcode.ofCode insn.opcode) with
      | .send isSuper =>
        match prepareSend env isSuper cm insn f.act m.exec.world with
        | .ok (c,l,w) => callResumes env (m.exec.setLocals l w) c
        | .error _ => none
      | .primitive => insnResumes env mode m insn f.act
      | _ => none

/-- The primitive called next, if any, does not move the context of the activation that goes on. -/
def contextKept (mode : LoopMode) (m : Machine ω) : Bool :=
  match resumedAfter env mode m with
  | some e => e.context == m.exec.context
  | none => true

variable {env} {mode : LoopMode}

/-! ### One step -/

variable {m m' : Machine ω} {a : Activation} {e : Exec ω}

theorem slotsValid_iff {f : Frame} {fs : List Frame} (hf : m.exec.stack.frames = f :: fs) :
    SlotsValid m ↔ m.slots = effectiveSlots f.act := by
  simp [SlotsValid,Machine.current,hf,eq_comm]

theorem effectiveSlots_inj {b : Activation} :
    effectiveSlots a = effectiveSlots b ↔ a.context = b.context := by
  unfold effectiveSlots
  by_cases ha : a.context = 0
  · by_cases hb : b.context = 0
    · simp [ha,hb]
    · simp [ha,hb,Ne.symm hb]
  · by_cases hb : b.context = 0
    · simp [ha,hb]
    · simp [ha,hb]

theorem context_cons {f : Frame} {fs : List Frame} (hf : e.stack.frames = f :: fs) :
    e.context = some f.act.context := by
  simp [Exec.context,hf]

theorem context_setLocals (e : Exec ω) (l : Locals) (w : World ω) :
    (e.setLocals l w).context = e.context := by
  cases hf : e.stack.frames with
  | nil => simp [Exec.context,Exec.setLocals,hf]
  | cons f fs =>
    rw [context_cons (setLocals_frames hf l w),context_cons hf]

theorem context_pushValue (e : Exec ω) (v : Oop) : (e.pushValue v).context = e.context := by
  cases hf : e.stack.frames with
  | nil => simp [Exec.pushValue,hf]
  | cons f fs =>
    rw [pushValue_cons hf]
    exact context_setLocals _ _ _

theorem context_advance (e : Exec ω) (n : Nat) : (e.advance n).context = e.context := by
  cases hf : e.stack.frames with
  | nil => simp [Exec.advance,hf]
  | cons f fs =>
    simp only [Exec.advance,hf]
    exact context_setLocals _ _ _

theorem slotsValid_kept (hv : SlotsValid m) (hs : m'.slots = m.slots) :
    SlotsValid m' ↔ m'.exec.context = m.exec.context := by
  cases hf : m.exec.stack.frames with
  | nil => simp [SlotsValid,Machine.current,hf] at hv
  | cons f fs =>
    have hptr := (slotsValid_iff hf).mp hv
    rw [context_cons hf]
    cases hf' : m'.exec.stack.frames with
    | nil => simp [SlotsValid,Machine.current,Exec.context,hf']
    | cons g gs =>
      rw [slotsValid_iff hf',context_cons hf',hs,hptr,eq_comm,effectiveSlots_inj]
      simp

theorem enterFrame_valid {full : Fatal} {start : Except Fault (Activation × World ω)}
    (h : enterFrame m a full start = .ok m') : SlotsValid m' := by
  unfold enterFrame at h
  cases hk : framePush m.exec.stack a with
  | none => rw [hk] at h; cases h
  | some k =>
    rw [hk] at h
    obtain ⟨⟨a',w⟩,-,h⟩ := bind_ok h
    obtain ⟨addr,top,rfl⟩ := framePush_some hk
    cases h
    rfl

theorem activate_valid {c : Call} {failure : Option Nat}
    (h : activate env mode m c failure = .ok m') : SlotsValid m' := by
  unfold activate at h
  split at h
  · unfold reuseFrame at h
    cases hf : m.exec.stack.frames with
    | nil => rw [hf] at h; cases h
    | cons f fs =>
      rw [hf] at h
      obtain ⟨⟨a,w⟩,ha,h⟩ := bind_ok h
      have hctx : a.context = 0 := startActivation_context ha
      cases h
      rw [slotsValid_iff (setAct_frames hf a)]
      simp [effectiveSlots,hctx]
  · exact enterFrame_valid h

theorem doReturn_valid {v : Oop} (h : doReturn m v = .ok m') : SlotsValid m' := by
  cases hf : m.exec.stack.frames with
  | nil => simp [doReturn,framePop,hf] at h
  | cons f fs =>
    cases fs with
    | nil => rw [doReturn_last hf] at h; cases h
    | cons g rest =>
      rw [doReturn_cons hf] at h
      cases h
      rfl

theorem performCall_ok {c : Call} (h : performCall env mode m c = .ok m') :
    (SlotsValid m' ∧ callResumes env m.exec c = none) ∨
    ∃ v e,callResumes env m.exec c = some e ∧ m' = { m with exec := e.pushValue v } := by
  unfold performCall at h
  unfold callResumes
  by_cases hprim : methodHasPrim c.code.header = true
  · rw [if_pos hprim] at h ⊢
    obtain ⟨isBlock,hblock,h⟩ := bind_ok h
    rw [liftFault_ok hblock]
    cases isBlock with
    | true =>
      obtain ⟨b,-,h⟩ := bind_ok (liftFault_ok h)
      obtain ⟨home,-,h⟩ := bind_ok h
      exact .inl ⟨enterFrame_valid h,rfl⟩
    | false =>
      rw [if_neg Bool.false_ne_true] at h
      cases hp : findPrimitive env (calleePrimitive c.code) with
      | none =>
        rw [hp] at h
        exact .inl ⟨activate_valid (liftFault_ok h),rfl⟩
      | some p =>
        rw [hp] at h
        dsimp only at h ⊢
        cases hr : p m.exec (c.receiver :: c.args) with
        | success v e =>
          rw [hr] at h
          exact .inr ⟨v,e,rfl,(Except.ok.inj h).symm⟩
        | failure code e =>
          rw [hr] at h
          simp only [afterPrimitive] at h
          split at h
          · cases h
          · exact .inl ⟨activate_valid (liftFault_ok h),rfl⟩
        | unwound e => rw [hr] at h; cases h
        | aborted => rw [hr] at h; cases h
  · rw [if_neg hprim] at h ⊢
    exact .inl ⟨activate_valid (liftFault_ok h),rfl⟩

theorem runPrimitive_ok {insn : Insn} (h : runPrimitive env mode m insn a = .ok m') :
    m'.slots = m.slots ∧
      m'.exec.context = ((insnResumes env mode m insn a).getD m.exec).context := by
  unfold runPrimitive at h
  unfold insnResumes
  cases hp : findPrimitive env insn.operand with
  | none =>
    rw [hp] at h
    cases h
    exact ⟨rfl,context_advance _ _⟩
  | some p =>
    rw [hp] at h
    obtain ⟨args,hargs,h⟩ := bind_ok h
    rw [liftFault_ok hargs]
    dsimp only at h ⊢
    cases hr : p m.exec args with
    | success v e =>
      rw [hr] at h
      cases h
      refine ⟨rfl,?_⟩
      rw [context_advance,context_pushValue]
      rfl
    | failure code e =>
      rw [hr] at h
      simp only [afterPrimitiveInsn] at h
      dsimp only
      split at h
      · cases h
      · next hs =>
        rw [if_neg hs]
        split at h
        · obtain ⟨⟨l,w⟩,-,h⟩ := bind_ok h
          cases h
          refine ⟨rfl,?_⟩
          rw [context_advance,context_setLocals]
          rfl
        · cases h
    | unwound e => rw [hr] at h; cases h
    | aborted => rw [hr] at h; cases h

theorem stayStep_ok {cm : CompiledMethod} {insn : Insn} (h : stayStep env m cm insn a = .ok m') :
    ∃ l w,m' = { m with exec := m.exec.setLocals l w } := by
  obtain ⟨⟨l,w⟩,-,h⟩ := bind_ok h
  exact ⟨l,w,(Except.ok.inj h).symm⟩

theorem blockCannotReturn_stops {v : Oop} : blockCannotReturn env e v ≠ .ok m' := by
  intro h
  unfold blockCannotReturn at h
  dsimp only at h
  split at h
  · cases h
  · obtain ⟨w,-,h⟩ := bind_ok h
    obtain ⟨handlers,-,h⟩ := bind_ok h
    cases handlers <;> cases h

theorem slotsValid_step (hv : SlotsValid m) (h : step env mode m = .ok m') :
    SlotsValid m' ↔ contextKept env mode m = true := by
  obtain ⟨f,fs,cm,hf,hcm,h⟩ := step_ok h
  unfold dispatch at h
  dsimp only at h
  unfold contextKept resumedAfter
  simp only [hf,hcm]
  cases hop : control (Opcode.ofCode (decodeInsn cm.bytecodes f.act.pc).opcode) with
  | send isSuper =>
    simp only [hop] at h ⊢
    obtain ⟨m₁,hm₁,h⟩ := bind_ok h
    obtain ⟨r,rfl⟩ := chargeReduction_ok hm₁
    obtain ⟨⟨c,l,w⟩,hc,h⟩ := bind_ok h
    rw [liftFault_ok hc]
    dsimp only at h ⊢
    rcases performCall_ok h with ⟨hvalid,hnone⟩ | ⟨v,e,hsome,rfl⟩
    · rw [hnone]
      simpa using hvalid
    · rw [hsome]
      have hk : SlotsValid { m with exec := e.pushValue v,reductions := r } ↔ _ :=
        slotsValid_kept hv rfl
      simpa [context_pushValue] using hk
  | ret =>
    simp only [hop] at h ⊢
    obtain ⟨v,-,h⟩ := bind_ok h
    simpa using doReturn_valid h
  | nonLocalReturn =>
    simp only [hop] at h ⊢
    unfold nonLocalReturn at h
    obtain ⟨⟨v,l⟩,-,h⟩ := bind_ok h
    dsimp only at h
    split at h
    · exact absurd h blockCannotReturn_stops
    · simpa using doReturn_valid h
  | primitive =>
    simp only [hop] at h ⊢
    obtain ⟨hs,hctx⟩ := runPrimitive_ok h
    rw [slotsValid_kept hv hs,hctx]
    cases insnResumes env mode m (decodeInsn cm.bytecodes f.act.pc) f.act with
    | none => simp
    | some e => simp
  | jumpBack =>
    simp only [hop] at h ⊢
    obtain ⟨m₁,hm₁,h⟩ := bind_ok h
    obtain ⟨l,w,rfl⟩ := stayStep_ok hm₁
    obtain ⟨r,rfl⟩ := chargeReduction_ok h
    have hk : SlotsValid { m with exec := m.exec.setLocals l w,reductions := r } ↔ _ :=
      slotsValid_kept hv rfl
    simpa [context_setLocals] using hk
  | stay =>
    simp only [hop] at h ⊢
    obtain ⟨l,w,rfl⟩ := stayStep_ok h
    have hk : SlotsValid { m with exec := m.exec.setLocals l w } ↔ _ := slotsValid_kept hv rfl
    simpa [context_setLocals] using hk

/-! ### Whole runs -/

theorem enterLoop_valid (he : e.stack.frames ≠ []) : SlotsValid (enterLoop e) := by
  cases hf : e.stack.frames with
  | nil => exact absurd hf he
  | cons f fs => simp [SlotsValid,Machine.current,enterLoop,hf]

/-- The cached pointer is right at every dispatch of a run exactly if no primitive moves the context
of the activation that goes on after it. -/
theorem slot_cache_valid_iff (mode : LoopMode) (e : Exec ω) (he : e.stack.frames ≠ []) :
    (∀ u,Reaches (step env mode) (enterLoop e) u → SlotsValid u) ↔
      ∀ u u',Reaches (step env mode) (enterLoop e) u → step env mode u = .ok u' →
        contextKept env mode u = true := by
  constructor
  · intro hall u u' hu hstep
    have hu' : Reaches (step env mode) (enterLoop e) u' := hu.tail hstep
    exact (slotsValid_step (hall u hu) hstep).mp (hall u' hu')
  · intro hkept u hu
    refine hu.invariant ?_ (enterLoop_valid he)
    intro v v' hv hvalid hstep
    exact (slotsValid_step hvalid hstep).mpr (hkept v v' hv hstep)

end

end SmalltalkA
