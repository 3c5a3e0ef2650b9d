import SmalltalkA.Interpreter.SlotCache
import SmalltalkA.Interpreter.Tables

/-! Running an activation of a scheduled actor in slices (`sta_interpret_actor`,
`sta_interpret_resume`) against running it in one. -/

set_option autoImplicit false

namespace SmalltalkA

open Runs

section

variable {ω : Type}

/-- `STA_OOP_PREEMPTED`, the value by which the loop reports a preemption. -/
def oopPreempted : Oop := 2 ^ 64 - 1

/-- `STA_INTERPRET_COMPLETED`, `_PREEMPTED` and `_EXCEPTION`, or the end of the process. -/
inductive Report (ω : Type) where
  | completed (result : Oop) (e : Exec ω)
  | preempted (e : Exec ω)
  | exception (e : Exec ω)
  | died (f : Fault)

/-- How the entry points report the end of a slice: they compare the loop's return value. -/
def report : Halt ω → Report ω
  | .returned v e => if v = oopPreempted then .preempted e else .completed v e
  | .preempted e => .preempted e
  | .unwound e => .exception e
  | .fault f => .died f

def finish : Halt ω → Report ω
  | .returned v e => .completed v e
  | .preempted e => .preempted e
  | .unwound e => .exception e
  | .fault f => .died f

variable (env : Env ω)

def sliceMode (quota : Option Nat) : LoopMode := ⟨true,quota,true⟩

/-- An activation on a scheduled actor; the slice number counts the preemptions. -/
def slicedStep (quota : Nat → Nat) (s : Machine ω × Nat) :
    Except (Report ω) (Machine ω × Nat) :=
  match step env (sliceMode (some (quota s.2))) s.1 with
  | .ok m => .ok (m,s.2)
  | .error (.preempted e) => .ok (enterLoop e,s.2 + 1)
  | .error h => .error (report h)

/-- The same with a quota that never runs out; a primitive that suspends the actor still ends the
slice. -/
def uninterruptedStep (m : Machine ω) : Except (Report ω) (Machine ω) :=
  match step env (sliceMode none) m with
  | .ok m' => .ok m'
  | .error (.preempted e) => .ok (enterLoop e)
  | .error h => .error (finish h)

/-- The same execution states are passed through and the same end is reported. -/
structure PreemptionTransparent (quota : Nat → Nat) (m : Machine ω) : Prop where
  sliced : ∀ s,Reaches (slicedStep env quota) (m,0) s →
    ∃ u,Reaches (uninterruptedStep env) m u ∧ u.exec = s.1.exec
  unsliced : ∀ u,Reaches (uninterruptedStep env) m u →
    ∃ s,Reaches (slicedStep env quota) (m,0) s ∧ u.exec = s.1.exec
  outcome : ∀ r,Halts (slicedStep env quota) (m,0) r ↔ Halts (uninterruptedStep env) m r

def bottomReturn (m : Machine ω) : Option Oop :=
  match m.exec.stack.frames with
  | [] => none
  | f :: senders =>
    match env.methods f.act.method with
    | none => none
    | some cm =>
      let op := Opcode.ofCode (decodeInsn cm.bytecodes f.act.pc).opcode
      match control op with
      | .ret => if senders = [] then (returnValue env f.act op).toOption else none
      | .nonLocalReturn =>
        match findHome f.act.context senders with
        | [_] => f.act.stack.head?
        | _ => none
      | _ => none

/-! ### The counter does not matter to anything but the check -/

def Alike (m u : Machine ω) : Prop := u.exec = m.exec ∧ u.slots = m.slots

def AlikeResults {ε : Type} : Except ε (Machine ω) → Except ε (Machine ω) → Prop
  | .ok m,.ok u => Alike m u
  | .error h,.error k => h = k
  | _,_ => False

variable {env} {mode : LoopMode}

variable {m u : Machine ω} {e : Exec ω} {v : Oop}

theorem Alike.setExec (h : Alike m u) (e : Exec ω) {r r' : Nat} :
    Alike ⟨e,m.slots,r⟩ ⟨e,u.slots,r'⟩ :=
  ⟨rfl,h.2⟩

theorem alike_bind {ε α : Type} (r : Except ε α) {F G : α → Except ε (Machine ω)}
    (h : ∀ a,AlikeResults (F a) (G a)) : AlikeResults (r >>= F) (r >>= G) := by
  cases r with
  | ok a => exact h a
  | error e => rfl

theorem alike_liftFault {r s : Except Fault (Machine ω)} (h : AlikeResults r s) :
    AlikeResults (liftFault (ω := ω) r) (liftFault s) := by
  cases r <;> cases s
  · exact congrArg Halt.fault h
  · exact h
  · exact h
  · exact h

section

variable (h : Alike m u)

include h

theorem alike_enterFrame (a : Activation) (full : Fatal)
    (start : Except Fault (Activation × World ω)) :
    AlikeResults (enterFrame m a full start) (enterFrame u a full start) := by
  unfold enterFrame
  rw [h.1]
  cases framePush m.exec.stack a with
  | none => rfl
  | some k => exact alike_bind _ (fun _ => ⟨rfl,rfl⟩)

theorem alike_activate (c : Call) (failure : Option Nat) :
    AlikeResults (activate env mode m c failure) (activate env mode u c failure) := by
  unfold activate reuseFrame pushCall
  rw [h.1]
  split
  · cases m.exec.stack.frames with
    | nil => rfl
    | cons f fs => exact alike_bind _ (fun _ => ⟨rfl,rfl⟩)
  · exact alike_enterFrame h _ _ _

theorem alike_afterPrimitive (c : Call) (r : PrimResult ω) :
    AlikeResults (afterPrimitive env mode m c r) (afterPrimitive env mode u c r) := by
  cases r with
  | success v e => exact ⟨rfl,h.2⟩
  | failure code e =>
    simp only [afterPrimitive]
    split
    · rfl
    · exact alike_liftFault (alike_activate (h.setExec e) c _)
  | unwound e => rfl
  | aborted => rfl

theorem alike_performCall (c : Call) :
    AlikeResults (performCall env mode m c) (performCall env mode u c) := by
  unfold performCall
  rw [h.1]
  split
  · refine alike_bind _ ?_
    intro isBlock
    split
    · refine alike_liftFault (alike_bind _ ?_)
      intro b
      unfold activateBlock
      rw [h.1]
      exact alike_bind _ (fun _ => alike_enterFrame h _ _ _)
    · cases findPrimitive env (calleePrimitive c.code) with
      | none => exact alike_liftFault (alike_activate h c _)
      | some p => exact alike_afterPrimitive h c _
  · exact alike_liftFault (alike_activate h c _)

theorem alike_doReturn (v : Oop) : AlikeResults (doReturn m v) (doReturn u v) := by
  unfold doReturn
  rw [h.1]
  dsimp only
  cases (framePop m.exec.stack).frames with
  | nil => rfl
  | cons f fs => exact ⟨rfl,rfl⟩

theorem alike_nonLocalReturn (a : Activation) (senders : List Frame) :
    AlikeResults (nonLocalReturn env m a senders) (nonLocalReturn env u a senders) := by
  unfold nonLocalReturn Machine.setStack
  rw [h.1]
  refine alike_bind _ ?_
  rintro ⟨v,l⟩
  dsimp only
  cases findHome a.context senders with
  | nil =>
    cases hr : blockCannotReturn env (m.exec.setLocals l m.exec.world) v with
    | ok m' => exact absurd hr blockCannotReturn_stops
    | error e => rfl
  | cons home rest => exact alike_doReturn (h.setExec _) v

theorem alike_runPrimitive (insn : Insn) (a : Activation) :
    AlikeResults (runPrimitive env mode m insn a) (runPrimitive env mode u insn a) := by
  unfold runPrimitive
  rw [h.1,h.2]
  cases findPrimitive env insn.operand with
  | none => exact ⟨rfl,rfl⟩
  | some p =>
    refine alike_bind _ ?_
    intro args
    cases p m.exec args with
    | success v e => exact ⟨rfl,h.2⟩
    | failure code e =>
      simp only [afterPrimitiveInsn,h.2]
      split
      · rfl
      · cases e.stack.frames with
        | nil => rfl
        | cons f fs => exact alike_bind _ (fun _ => ⟨rfl,rfl⟩)
    | unwound e => rfl
    | aborted => rfl

theorem alike_stay (cm : CompiledMethod) (insn : Insn) (a : Activation) :
    AlikeResults (stayStep env m cm insn a) (stayStep env u cm insn a) := by
  unfold stayStep
  rw [h.1,h.2]
  exact alike_bind _ (fun _ => ⟨rfl,rfl⟩)

end

/-! ### One step -/

/-- How a step under a quota compares with the uninterrupted one. -/
inductive StepAgrees (quota reductions : Nat) :
    Except (Halt ω) (Machine ω) → Except (Halt ω) (Machine ω) → Exec ω → Prop where
  /-- both do the same -/
  | same {x y : Except (Halt ω) (Machine ω)} {e : Exec ω} (h : AlikeResults x y) :
      StepAgrees quota reductions x y e
  /-- preempted before a send -/
  | before {y : Except (Halt ω) (Machine ω)} {e : Exec ω} (h : quota ≤ reductions + 1) :
      StepAgrees quota reductions (.error (.preempted e)) y e
  /-- preempted after a backward jump -/
  | after {u : Machine ω} {e : Exec ω} :
      StepAgrees quota reductions (.error (.preempted u.exec)) (.ok u) e

theorem charge_cases (q : Nat) (m : Machine ω) :
    (∃ r,chargeReduction (sliceMode (some q)) m = .ok { m with reductions := r }) ∨
    (q ≤ m.reductions + 1 ∧
      chargeReduction (sliceMode (some q)) m = .error (.preempted m.exec)) := by
  simp only [chargeReduction,sliceMode,true_and]
  by_cases hq : q ≤ m.reductions + 1
  · exact .inr ⟨hq,if_pos hq⟩
  · exact .inl ⟨_,if_neg hq⟩

theorem jumpBack_agrees (h : Alike m u) (q : Nat) (cm : CompiledMethod) (insn : Insn)
    (a : Activation) (e : Exec ω) :
    StepAgrees q m.reductions (stayStep env m cm insn a >>= chargeReduction (sliceMode (some q)))
      (stayStep env u cm insn a >>= chargeReduction (sliceMode none)) e := by
  have hstay : AlikeResults (stayStep env m cm insn a) (stayStep env u cm insn a) :=
    alike_stay h cm insn a
  cases hm : stayStep env m cm insn a with
  | error k =>
    cases hu : stayStep env u cm insn a with
    | error k' => rw [hm,hu] at hstay; exact .same hstay
    | ok u' => rw [hm,hu] at hstay; exact hstay.elim
  | ok m' =>
    cases hu : stayStep env u cm insn a with
    | error k' => rw [hm,hu] at hstay; exact hstay.elim
    | ok u' =>
      rw [hm,hu] at hstay
      change StepAgrees q m.reductions (chargeReduction (sliceMode (some q)) m')
        (.ok { u' with reductions := u'.reductions + 1 }) e
      rcases charge_cases q m' with ⟨r,hr⟩ | ⟨-,hr⟩
      · rw [hr]
        exact .same hstay
      · rw [hr,← hstay.1]
        exact .after (u := { u' with reductions := u'.reductions + 1 })

theorem step_agrees (h : Alike m u) (q : Nat) :
    StepAgrees q m.reductions (step env (sliceMode (some q)) m) (step env (sliceMode none) u)
      m.exec := by
  cases hf : m.exec.stack.frames with
  | nil =>
    have hfu : u.exec.stack.frames = [] := by rw [h.1]; exact hf
    simp only [step,hf,hfu]
    exact .same rfl
  | cons f fs =>
    have hfu : u.exec.stack.frames = f :: fs := by rw [h.1]; exact hf
    rw [step_cons hf,step_cons hfu]
    cases hcm : env.methods f.act.method with
    | none => exact .same rfl
    | some cm =>
      change StepAgrees q m.reductions (dispatch env (sliceMode (some q)) m f.act fs cm)
        (dispatch env (sliceMode none) u f.act fs cm) m.exec
      unfold dispatch
      dsimp only
      cases hop : control (Opcode.ofCode (decodeInsn cm.bytecodes f.act.pc).opcode) with
      | send isSuper =>
        dsimp only
        unfold sendStep
        rcases charge_cases q m with ⟨r,hr⟩ | ⟨hq,hr⟩
        · rw [hr]
          refine .same ?_
          change AlikeResults (liftFault (prepareSend env isSuper cm _ f.act m.exec.world) >>= _)
            (liftFault (prepareSend env isSuper cm _ f.act u.exec.world) >>= _)
          rw [h.1]
          refine alike_bind _ ?_
          rintro ⟨c,l,w⟩
          exact alike_performCall (h.setExec _) c
        · rw [hr]
          exact .before hq
      | ret => exact .same (alike_bind _ (fun v => alike_doReturn h v))
      | nonLocalReturn => exact .same (alike_nonLocalReturn h _ _)
      | primitive => exact .same (alike_runPrimitive h _ _)
      | jumpBack => exact jumpBack_agrees h q cm _ _ _
      | stay => exact .same (alike_stay h _ _ _)

/-! ### Where a loop returns -/

theorem liftFault_not_returned {α : Type} {r : Except Fault α} :
    liftFault r ≠ .error (.returned v e) := by
  intro h
  obtain ⟨f,hf⟩ := liftFault_error h
  cases hf

theorem charge_not_returned : chargeReduction mode m ≠ .error (.returned v e) := by
  intro h
  simp only [chargeReduction] at h
  split at h
  · cases h
  · split at h <;> cases h

theorem performCall_not_returned {c : Call} :
    performCall env mode m c ≠ .error (.returned v e) := by
  intro h
  unfold performCall at h
  split at h
  · rcases bind_error h with h | ⟨isBlock,-,h⟩
    · exact liftFault_not_returned h
    · split at h
      · exact liftFault_not_returned h
      · split at h
        · next p _ =>
          cases hr : p m.exec (c.receiver :: c.args) with
          | success v' e' | unwound e' | aborted => rw [hr] at h; cases h
          | failure code e' =>
            rw [hr] at h
            simp only [afterPrimitive] at h
            split at h
            · cases h
            · exact liftFault_not_returned h
        · exact liftFault_not_returned h
  · exact liftFault_not_returned h

theorem runPrimitive_not_returned {insn : Insn} {a : Activation} :
    runPrimitive env mode m insn a ≠ .error (.returned v e) := by
  intro h
  unfold runPrimitive at h
  split at h
  · cases h
  · next p _ =>
    rcases bind_error h with h | ⟨args,-,h⟩
    · exact liftFault_not_returned h
    · cases hr : p m.exec args with
      | success v' e' | unwound e' | aborted => rw [hr] at h; cases h
      | failure code e' =>
        rw [hr] at h
        simp only [afterPrimitiveInsn] at h
        split at h
        · cases h
        · split at h
          · rcases bind_error h with h | ⟨q,-,h⟩
            · exact liftFault_not_returned h
            · cases h
          · cases h

theorem stayStep_not_returned {cm : CompiledMethod} {insn : Insn} {a : Activation} :
    stayStep env m cm insn a ≠ .error (.returned v e) := by
  intro h
  rcases bind_error h with h | ⟨p,-,h⟩
  · exact liftFault_not_returned h
  · cases h

theorem blockCannotReturn_not_returned {e' : Exec ω} {v' : Oop} :
    blockCannotReturn env e v ≠ .error (.returned v' e') := by
  intro h
  unfold blockCannotReturn at h
  dsimp only at h
  split at h
  · cases h
  · rcases bind_error h with h | ⟨w,-,h⟩
    · exact liftFault_not_returned h
    · rcases bind_error h with h | ⟨handlers,-,h⟩
      · exact liftFault_not_returned h
      · cases handlers <;> cases h

theorem doReturn_returned {f : Frame} {fs : List Frame} {v' : Oop}
    (hf : m.exec.stack.frames = f :: fs) (h : doReturn m v = .error (.returned v' e)) :
    fs = [] ∧ v' = v := by
  cases fs with
  | nil =>
    rw [doReturn_last hf] at h
    cases h
    exact ⟨rfl,rfl⟩
  | cons g rest =>
    rw [doReturn_cons hf] at h
    cases h

theorem pop_head {l l' : Locals} (h : l.pop = .ok (v,l')) : l.stack.head? = some v := by
  unfold Locals.pop at h
  split at h
  · next hst =>
    cases h
    simp [hst]
  · cases h

theorem step_returned (h : step env mode m = .error (.returned v e)) :
    bottomReturn env m = some v := by
  cases hf : m.exec.stack.frames with
  | nil => simp [step,hf] at h
  | cons f fs =>
    rw [step_cons hf] at h
    rcases bind_error h with h | ⟨cm,hcm,h⟩
    · exact absurd h liftFault_not_returned
    have hcm := defined_ok (liftFault_ok hcm)
    unfold bottomReturn
    simp only [hf,hcm]
    unfold dispatch at h
    dsimp only at h
    cases hop : control (Opcode.ofCode (decodeInsn cm.bytecodes f.act.pc).opcode) with
    | send isSuper =>
      simp only [hop] at h
      rcases bind_error h with h | ⟨m₁,-,h⟩
      · exact absurd h charge_not_returned
      · rcases bind_error h with h | ⟨c,-,h⟩
        · exact absurd h liftFault_not_returned
        · exact absurd h performCall_not_returned
    | ret =>
      simp only [hop] at h
      rcases bind_error h with h | ⟨v',hv,h⟩
      · exact absurd h liftFault_not_returned
      · obtain ⟨rfl,rfl⟩ := doReturn_returned hf h
        simp [liftFault_ok hv,Except.toOption]
    | nonLocalReturn =>
      simp only [hop] at h
      rcases bind_error h with h | ⟨⟨v',l⟩,hv,h⟩
      · exact absurd h liftFault_not_returned
      · dsimp only at h ⊢
        cases hhome : findHome f.act.context fs with
        | nil =>
          rw [hhome] at h
          exact absurd h blockCannotReturn_not_returned
        | cons home rest =>
          rw [hhome] at h
          obtain ⟨rfl,rfl⟩ := doReturn_returned rfl h
          exact pop_head (liftFault_ok hv)
    | primitive =>
      simp only [hop] at h
      exact absurd h runPrimitive_not_returned
    | jumpBack =>
      simp only [hop] at h
      rcases bind_error h with h | ⟨m₁,-,h⟩
      · exact absurd h stayStep_not_returned
      · exact absurd h charge_not_returned
    | stay =>
      simp only [hop] at h
      exact absurd h stayStep_not_returned

theorem step_of_bottomReturn (mode : LoopMode) (h : bottomReturn env m = some v) :
    ∃ e,step env mode m = .error (.returned v e) := by
  cases hf : m.exec.stack.frames with
  | nil => simp [bottomReturn,hf] at h
  | cons f fs =>
    cases hcm : env.methods f.act.method with
    | none => simp [bottomReturn,hf,hcm] at h
    | some cm =>
      simp only [bottomReturn,hf,hcm] at h
      rw [step_dispatch hf hcm]
      unfold dispatch
      dsimp only
      cases hop : control (Opcode.ofCode (decodeInsn cm.bytecodes f.act.pc).opcode) with
      | ret =>
        simp only [hop] at h ⊢
        split at h
        · next hfs =>
          subst hfs
          cases hv : returnValue env f.act
              (Opcode.ofCode (decodeInsn cm.bytecodes f.act.pc).opcode) with
          | error k => simp [hv,Except.toOption] at h
          | ok v' =>
            rw [hv] at h
            cases h
            exact ⟨_,doReturn_last hf v⟩
        · cases h
      | nonLocalReturn =>
        simp only [hop] at h ⊢
        cases hhome : findHome f.act.context fs with
        | nil => simp [hhome] at h
        | cons home rest =>
          cases rest with
          | cons g gs => simp [hhome] at h
          | nil =>
            rw [hhome] at h
            dsimp only at h
            cases hst : f.act.stack with
            | nil => simp [hst] at h
            | cons v' st =>
              simp only [hst,List.head?_cons,Option.some.injEq] at h
              subst h
              simp only [nonLocalReturn,Locals.pop,hst,hhome]
              have hone : (m.setStack { m.exec.stack with
                  top := home.addr,frames := [home] }).exec.stack.frames = [home] := rfl
              exact ⟨_,doReturn_last hone v'⟩
      | send isSuper | primitive | jumpBack | stay => simp [hop] at h

/-! ### Whole runs -/

def SlotsFresh (u : Machine ω) : Prop := (enterLoop u.exec).slots = u.slots

theorem fresh_of_valid (h : SlotsValid u) : SlotsFresh u := by
  cases hf : u.exec.stack.frames with
  | nil => simp [SlotsValid,Machine.current,hf] at h
  | cons f fs =>
    rw [slotsValid_iff hf] at h
    simp [SlotsFresh,enterLoop,hf,h]

theorem enterLoop_fresh (e : Exec ω) : SlotsFresh (enterLoop e) := by
  unfold SlotsFresh enterLoop
  cases hf : e.stack.frames <;> simp [hf]

theorem valid_of_fresh {f : Frame} {fs : List Frame} (hf : u.exec.stack.frames = f :: fs)
    (h : SlotsFresh u) : SlotsValid u := by
  rw [slotsValid_iff hf]
  simpa [SlotsFresh,enterLoop,hf] using h.symm

theorem uninterrupted_fresh (hm : SlotsFresh m) (hkept : ∀ u u',Reaches (uninterruptedStep env) m u
      → step env (sliceMode none) u = .ok u' → contextKept env (sliceMode none) u = true)
    (hu : Reaches (uninterruptedStep env) m u) : SlotsFresh u := by
  refine hu.invariant ?_ hm
  intro v v' hv hfresh hstep
  unfold uninterruptedStep at hstep
  cases hs : step env (sliceMode none) v with
  | ok v₁ =>
    rw [hs] at hstep
    cases hstep
    obtain ⟨f,fs,-,hf,-⟩ := step_ok hs
    have hvalid := valid_of_fresh hf hfresh
    exact fresh_of_valid ((slotsValid_step hvalid hs).mpr (hkept v v' hv hs))
  | error h =>
    rw [hs] at hstep
    cases h with
    | preempted e =>
      cases hstep
      exact enterLoop_fresh e
    | returned w e | unwound e | fault f => cases hstep

variable (env) in
def SliceRel (m₀ : Machine ω) (s : Machine ω × Nat) (u : Machine ω) : Prop :=
  Alike s.1 u ∧ Reaches (uninterruptedStep env) m₀ u

theorem uninterrupted_of_ok {u' : Machine ω} (h : step env (sliceMode none) u = .ok u') :
    uninterruptedStep env u = .ok u' := by
  simp [uninterruptedStep,h]

theorem enterLoop_alike (h : SlotsFresh u) : Alike (enterLoop u.exec) u := by
  refine ⟨?_,h.symm⟩
  unfold enterLoop
  split <;> rfl

@[simp] theorem enterLoop_reductions (e : Exec ω) : (enterLoop e).reductions = 0 := by
  unfold enterLoop
  split <;> rfl

theorem report_eq_finish {h : Halt ω}
    (hv : ∀ e,h ≠ .returned oopPreempted e) : report h = finish h := by
  cases h with
  | returned v e =>
    have hne : v ≠ oopPreempted := by
      rintro rfl
      exact hv e rfl
    simp [report,finish,hne]
  | preempted e => rfl
  | unwound e => rfl
  | fault f => rfl

section

variable {quota : Nat → Nat} {m₀ : Machine ω}

variable {s : Machine ω × Nat}

theorem sliced_next (hquota : ∀ i,2 ≤ quota i)
    (hfresh : ∀ u,Reaches (uninterruptedStep env) m₀ u → SlotsFresh u) {s' : Machine ω × Nat}
    {u : Machine ω} (hR : SliceRel env m₀ s u) (hs : slicedStep env quota s = .ok s') :
    (∃ u',uninterruptedStep env u = .ok u' ∧ SliceRel env m₀ s' u') ∨
      (SliceRel env m₀ s' u ∧ s'.1.reductions < s.1.reductions) := by
  obtain ⟨m,i⟩ := s
  obtain ⟨halike,hreach⟩ := hR
  have hagrees : StepAgrees (quota i) m.reductions (step env (sliceMode (some (quota i))) m)
    (step env (sliceMode none) u) m.exec := step_agrees halike (quota i)
  unfold slicedStep at hs
  dsimp only at hs
  generalize step env (sliceMode (some (quota i))) m = x at hs hagrees
  generalize hy : step env (sliceMode none) u = y at hagrees
  cases hagrees with
  | same h =>
    cases x with
    | ok m' =>
      cases y with
      | error k => exact h.elim
      | ok u' =>
        cases hs
        have hu := uninterrupted_of_ok hy
        exact .inl ⟨u',hu,h,hreach.tail hu⟩
    | error k =>
      cases y with
      | ok u' => exact h.elim
      | error k' =>
        cases (show k = k' from h)
        cases k with
        | preempted e =>
          cases hs
          have hu : uninterruptedStep env u = .ok (enterLoop e) := by simp [uninterruptedStep,hy]
          exact .inl ⟨_,hu,⟨rfl,rfl⟩,hreach.tail hu⟩
        | returned v e => cases hs
        | unwound e => cases hs
        | fault f => cases hs
  | before hq =>
    cases hs
    have hle := hquota i
    have halike' : Alike (enterLoop m.exec) u := by
      rw [← halike.1]
      exact enterLoop_alike (hfresh u hreach)
    refine .inr ⟨⟨halike',hreach⟩,?_⟩
    simp only [enterLoop_reductions]
    omega
  | @after u' =>
    cases hs
    have hu := uninterrupted_of_ok hy
    exact .inl ⟨u',hu,enterLoop_alike (hfresh u' (hreach.tail hu)),hreach.tail hu⟩

theorem sliced_halt {u : Machine ω} {r : Report ω} (hR : SliceRel env m₀ s u)
    (hs : slicedStep env quota s = .error r) :
    ∃ h,r = report h ∧ uninterruptedStep env u = .error (finish h) ∧
      ∀ v e,h = .returned v e → bottomReturn env u = some v := by
  obtain ⟨m,i⟩ := s
  obtain ⟨halike,-⟩ := hR
  have hagrees : StepAgrees (quota i) m.reductions (step env (sliceMode (some (quota i))) m)
    (step env (sliceMode none) u) m.exec := step_agrees halike (quota i)
  unfold slicedStep at hs
  dsimp only at hs
  generalize step env (sliceMode (some (quota i))) m = x at hs hagrees
  generalize hy : step env (sliceMode none) u = y at hagrees
  cases hagrees with
  | same h =>
    cases x with
    | ok m' => cases hs
    | error k =>
      cases y with
      | ok u' => exact h.elim
      | error k' =>
        cases (show k = k' from h)
        cases k with
        | preempted e => cases hs
        | returned v e =>
          cases hs
          refine ⟨_,rfl,by simp [uninterruptedStep,hy],?_⟩
          rintro v' e' ⟨⟩
          exact step_returned hy
        | unwound e | fault f =>
          cases hs
          exact ⟨_,rfl,by simp [uninterruptedStep,hy],by rintro v' e' ⟨⟩⟩
  | before hq => cases hs
  | after => cases hs

theorem slice_lockstep (hquota : ∀ i,2 ≤ quota i)
    (hfresh : ∀ u,Reaches (uninterruptedStep env) m₀ u → SlotsFresh u)
    (hvalue : ∀ u,Reaches (uninterruptedStep env) m₀ u → bottomReturn env u ≠ some oopPreempted) :
    Lockstep (slicedStep env quota) (uninterruptedStep env) (SliceRel env m₀)
      (fun r r' => r = r') (fun s => s.1.reductions) where
  next hR hs := sliced_next hquota hfresh hR hs
  halt hR hs := by
    obtain ⟨h,rfl,hu,hret⟩ := sliced_halt hR hs
    refine ⟨finish h,hu,report_eq_finish ?_⟩
    rintro e rfl
    exact hvalue _ hR.2 (hret oopPreempted e rfl)

theorem sliced_not_completed {e : Exec ω} :
    ¬Halts (slicedStep env quota) s (.completed oopPreempted e) := by
  rintro ⟨n,hn⟩
  induction n generalizing s with
  | zero => cases hn
  | succ n ih =>
    cases hs : slicedStep env quota s with
    | ok s' =>
      rw [runFor_succ_ok hs] at hn
      exact ih hn
    | error r =>
      rw [runFor_succ_error hs] at hn
      cases hn
      unfold slicedStep at hs
      split at hs
      · cases hs
      · cases hs
      · next h _ _ =>
        have hrep := Except.error.inj hs
        cases h with
        | returned v e' =>
          simp only [report] at hrep
          split at hrep
          · cases hrep
          · next hne =>
            cases hrep
            exact hne rfl
        | preempted e' => cases hrep
        | unwound e' => cases hrep
        | fault f => cases hrep

end

/-- With no context moved under a running activation, slices of at least two reductions are
transparent exactly if the bottom frame never returns the word that means preemption, the
SmallInteger -1. -/
theorem preemption_transparent_iff (quota : Nat → Nat) (hquota : ∀ i,2 ≤ quota i) (e : Exec ω)
    (hkept : ∀ u u',Reaches (uninterruptedStep env) (enterLoop e) u →
      step env (sliceMode none) u = .ok u' → contextKept env (sliceMode none) u = true) :
    PreemptionTransparent env quota (enterLoop e) ↔
      ∀ u,Reaches (uninterruptedStep env) (enterLoop e) u →
        bottomReturn env u ≠ some oopPreempted := by
  constructor
  · intro ht u hu hbottom
    obtain ⟨e',he'⟩ := step_of_bottomReturn (sliceMode none) hbottom
    have hstep : uninterruptedStep env u = .error (.completed oopPreempted e') := by
      simp [uninterruptedStep,he',finish]
    have hhalt := hu.halts (.here hstep)
    exact sliced_not_completed ((ht.outcome _).mpr hhalt)
  · intro hvalue
    have hfresh : ∀ u,Reaches (uninterruptedStep env) (enterLoop e) u → SlotsFresh u :=
      fun u hu => uninterrupted_fresh (enterLoop_fresh e) hkept hu
    have lock := slice_lockstep hquota hfresh hvalue
    have hR : SliceRel env (enterLoop e) (enterLoop e,0) (enterLoop e) := ⟨⟨rfl,rfl⟩,.refl _⟩
    constructor
    · intro s hs
      obtain ⟨u,hu,halike,-⟩ := lock.simulation.reaches (fun _ _ => trivial) hR hs
      exact ⟨u,hu,halike.1⟩
    · intro u hu
      obtain ⟨s,hs,halike,-⟩ := lock.covers hR hu
      exact ⟨s,hs,halike.1⟩
    · intro r
      constructor
      · intro hr
        rcases lock.simulation.halts (fun _ _ => trivial) hR hr with hl | ⟨k,hk,rfl⟩
        · exact hl.elim
        · exact hk
      · intro hr
        obtain ⟨k,hk,hl | rfl⟩ := lock.simulation.halts_of_halts (fun _ _ => trivial) hR hr
        · exact hl.elim
        · exact hk

end

/-- `minusOne ^-1`, `callYourself ^self yourself` and `yourself ^self`. -/
def minusOneEnv : Env Unit :=
  tableEnv
    [(1024,⟨methodHeader 0 0 0 0 false false,[],[0x0C,0,0x30,0]⟩),
      (1040,⟨methodHeader 0 0 1 0 false false,[272],[0x02,0,0x20,0,0x30,0]⟩),
      (1056,⟨methodHeader 0 0 0 0 false false,[],[0x31,0]⟩)]
    [((528,272),1056)] [(272,0)] []

def minusOneWorld : World Unit where
  heap := ⟨8192,4096,0⟩
  mem := tableMemory [(512,plainObj 16 [16,528,1,16]),(768,plainObj 2 [])]
  classTable := [0,0,512]
  handlers := []
  signaled := 0
  rest := ()

def minusOneExec (method : Oop) : Exec Unit :=
  ⟨minusOneWorld,⟨4096,some 65536,4152,
    [⟨4096,newActivation 16 (methodHeader 0 0 0 0 false false) method 768 []⟩],[]⟩⟩

/-- The activation finishes with -1 and its only slice reports a preemption. -/
theorem minus_one_reported_preempted :
    (∃ e,Halts (uninterruptedStep minusOneEnv) (enterLoop (minusOneExec 1024))
        (.completed (smallIntOop (-1)) e) ∧
      Halts (slicedStep minusOneEnv (fun _ => 1000)) (enterLoop (minusOneExec 1024),0)
        (.preempted e)) ∧
      ¬PreemptionTransparent minusOneEnv (fun _ => 1000) (enterLoop (minusOneExec 1024)) := by
  have hend : ∃ e,Halts (uninterruptedStep minusOneEnv) (enterLoop (minusOneExec 1024))
        (.completed (smallIntOop (-1)) e) ∧
      Halts (slicedStep minusOneEnv (fun _ => 1000)) (enterLoop (minusOneExec 1024),0)
        (.preempted e) := ⟨_,⟨2,rfl⟩,⟨2,rfl⟩⟩
  refine ⟨hend,?_⟩
  intro ht
  obtain ⟨e,hu,hs⟩ := hend
  have hboth := (Halts.unique ((ht.outcome _).mpr hu) hs)
  cases hboth

theorem preemption_transparent_yourself :
    PreemptionTransparent minusOneEnv (fun _ => 2) (enterLoop (minusOneExec 1040)) :=
  (preemption_transparent_iff (fun _ => 2) (fun _ => Nat.le_refl 2) (minusOneExec 1040)
    (fun _ _ hu _ => holdsAlong_reaches (n := 8) (by decide +kernel) hu)).mpr
    (fun u hu => by
      have h : (bottomReturn minusOneEnv u != some oopPreempted) = true :=
        holdsAlong_reaches (n := 8) (p := fun v => bottomReturn minusOneEnv v != some oopPreempted)
          (by decide +kernel) hu
      simpa using h)

end SmalltalkA
