import SmalltalkA.Interpreter.SlotCache

/-! What one instruction does to the stack slab: the places of the frames and the bump
pointer. -/

set_option autoImplicit false

namespace SmalltalkA

section

variable {ω : Type}

def CallStack.addrs (k : CallStack) : List Nat := k.frames.map Frame.addr

/-- The same frames in the same places, whatever their words. -/
structure SameSlab (k k' : CallStack) : Prop where
  base : k'.base = k.base
  top : k'.top = k.top
  outer : k'.outer = k.outer
  addrs : k'.addrs = k.addrs

/-- A new frame goes to the bump pointer or above it. -/
structure PushedOn (k k' : CallStack) : Prop where
  base : k'.base = k.base
  outer : k'.outer = k.outer
  place : ∃ addr : Nat,k'.addrs = addr :: k.addrs ∧ k.top ≤ addr ∧
    addr + frameHeaderSize ≤ k'.top

/-- The frames down to the one at `addr` are gone, and the bump pointer is where that was. -/
structure PoppedTo (k : CallStack) (rest : List Nat) (k' : CallStack) : Prop where
  base : k'.base = k.base
  outer : k'.outer = k.outer
  addrs : k'.addrs = rest
  place : ∃ inner,k.addrs = inner ++ k'.top :: rest

inductive SlabMove (k k' : CallStack) : Prop
  | same (h : SameSlab k k')
  | push (h : PushedOn k k')
  | pop (rest : List Nat) (hrest : rest ≠ []) (h : PoppedTo k rest k')

def SlabOutcome (k : CallStack) : Except (Halt ω) (Machine ω) → Prop
  | .ok m => SlabMove k m.exec.stack
  | .error (.returned _ e) => PoppedTo k [] e.stack
  | .error (.preempted e) => SameSlab k e.stack
  | .error (.unwound _) | .error (.fault _) => True

def KeepsSlab (env : Env ω) : Prop :=
  ∀ i p,env.primitives i = some p → ∀ e args,
    match p e args with
    | .success _ e' | .failure _ e' => SameSlab e.stack e'.stack
    | .unwound _ | .aborted => True

variable {env : Env ω} {mode : LoopMode}

theorem SameSlab.refl (k : CallStack) : SameSlab k k := ⟨rfl,rfl,rfl,rfl⟩

variable {k k' : CallStack} {a : Activation} {m : Machine ω}

theorem SameSlab.trans {k'' : CallStack} (h : SameSlab k k') (h' : SameSlab k' k'') :
    SameSlab k k'' :=
  ⟨h'.base.trans h.base,h'.top.trans h.top,h'.outer.trans h.outer,h'.addrs.trans h.addrs⟩

theorem SameSlab.poppedTo {k'' : CallStack} {rest : List Nat} (h : SameSlab k k')
    (h' : PoppedTo k' rest k'') : PoppedTo k rest k'' :=
  ⟨h'.base.trans h.base,h'.outer.trans h.outer,h'.addrs,h.addrs ▸ h'.place⟩

theorem SameSlab.outcome {r : Except (Halt ω) (Machine ω)} (h : SameSlab k k')
    (hr : SlabOutcome k' r) : SlabOutcome k r := by
  match r,hr with
  | .ok _,.same hs => exact .same (h.trans hs)
  | .ok _,.push hp =>
    obtain ⟨addr,haddrs,hlow,htop⟩ := hp.place
    exact .push ⟨hp.base.trans h.base,hp.outer.trans h.outer,addr,h.addrs ▸ haddrs,
      h.top ▸ hlow,htop⟩
  | .ok _,.pop rest hne hp => exact .pop rest hne (h.poppedTo hp)
  | .error (.returned _ _),hp => exact h.poppedTo hp
  | .error (.preempted _),hs => exact h.trans hs
  | .error (.unwound _),_ => trivial
  | .error (.fault _),_ => trivial

theorem sameSlab_setAct (k : CallStack) (a : Activation) : SameSlab k (k.setAct a) := by
  cases hf : k.frames with
  | nil => simpa [CallStack.setAct,hf] using SameSlab.refl k
  | cons f fs => simp [CallStack.setAct,hf,CallStack.addrs,SameSlab.mk]

theorem sameSlab_setLocals (e : Exec ω) (l : Locals) (w : World ω) :
    SameSlab e.stack (e.setLocals l w).stack := by
  unfold Exec.setLocals
  split
  · exact sameSlab_setAct _ _
  · exact .refl _

theorem sameSlab_pushValue (e : Exec ω) (v : Oop) : SameSlab e.stack (e.pushValue v).stack := by
  unfold Exec.pushValue
  split
  · exact sameSlab_setLocals _ _ _
  · exact .refl _

theorem sameSlab_advance (e : Exec ω) (n : Nat) : SameSlab e.stack (e.advance n).stack := by
  unfold Exec.advance
  split
  · exact sameSlab_setLocals _ _ _
  · exact .refl _

/-! ### One step -/

theorem SlabOutcome.lift {α : Type} {x : Except Fault α} {f : α → Except (Halt ω) (Machine ω)}
    (h : ∀ a,SlabOutcome k (f a)) :
    SlabOutcome k (liftFault x >>= f) := by
  cases x with
  | error e => trivial
  | ok a => exact h a

theorem SlabOutcome.lift_ok {x : Except Fault (Machine ω)}
    (h : ∀ m,x = .ok m → SlabMove k m.exec.stack) : SlabOutcome k (liftFault x) := by
  cases x with
  | error e => trivial
  | ok m => exact h m rfl

theorem framePush_place (h : framePush k a = some k') : PushedOn k k' := by
  unfold framePush at h
  dsimp only at h
  split at h
  · obtain rfl := Option.some.inj h
    refine ⟨rfl,rfl,_,rfl,Nat.le_max_left _ _,?_⟩
    simp only [frameByteSize]
    omega
  · cases h

theorem enterFrame_move {m' : Machine ω} {full : Fatal}
    {start : Except Fault (Activation × World ω)} (h : enterFrame m a full start = .ok m') :
    SlabMove m.exec.stack m'.exec.stack := by
  unfold enterFrame at h
  split at h
  · cases h
  · rename_i k hk
    obtain ⟨⟨a',w'⟩,-,h⟩ := bind_ok h
    cases h
    have hp := framePush_place hk
    have hs := sameSlab_setAct k a'
    obtain ⟨addr,haddrs,hlow,htop⟩ := hp.place
    exact .push ⟨hs.base.trans hp.base,hs.outer.trans hp.outer,addr,hs.addrs.trans haddrs,hlow,
      hs.top ▸ htop⟩

theorem activate_move {m' : Machine ω} {c : Call} {failure : Option Nat}
    (h : activate env mode m c failure = .ok m') : SlabMove m.exec.stack m'.exec.stack := by
  unfold activate at h
  split at h
  · unfold reuseFrame at h
    split at h
    · cases h
    · obtain ⟨⟨a,w⟩,-,h⟩ := bind_ok h
      cases h
      exact .same (sameSlab_setAct _ _)
  · exact enterFrame_move h

theorem findPrimitive_keeps (hprim : KeepsSlab env) {i : Nat} {p : Primitive ω}
    (hp : findPrimitive env i = some p) (e : Exec ω) (args : List Oop) :
    match p e args with
    | .success _ e' | .failure _ e' => SameSlab e.stack e'.stack
    | .unwound _ | .aborted => True := by
  unfold findPrimitive at hp
  split at hp
  · exact hprim i p hp e args
  · cases hp

theorem performCall_outcome (hprim : KeepsSlab env) (m : Machine ω) (c : Call) :
    SlabOutcome m.exec.stack (performCall env mode m c) := by
  unfold performCall
  split
  · refine .lift (fun isBlock => ?_)
    split
    · refine .lift_ok (fun m' h => ?_)
      obtain ⟨b,-,h⟩ := bind_ok h
      obtain ⟨home,-,h⟩ := bind_ok h
      exact enterFrame_move h
    · split
      · rename_i p hp
        have hkeep := findPrimitive_keeps hprim hp m.exec (c.receiver :: c.args)
        cases hr : p m.exec (c.receiver :: c.args) with
        | success v e =>
          rw [hr] at hkeep
          exact .same (hkeep.trans (sameSlab_pushValue e v))
        | failure code e =>
          rw [hr] at hkeep
          simp only [afterPrimitive]
          split
          · exact hkeep
          · exact SameSlab.outcome hkeep (.lift_ok (fun m' h => activate_move h))
        | unwound e => trivial
        | aborted => trivial
      · exact .lift_ok (fun m' h => activate_move h)
  · exact .lift_ok (fun m' h => activate_move h)

theorem doReturn_outcome {f : Frame} {fs : List Frame} (hf : m.exec.stack.frames = f :: fs)
    (v : Oop) :
    SlabOutcome m.exec.stack (doReturn m v) := by
  cases fs with
  | nil =>
    rw [doReturn_last hf]
    exact ⟨by simp [framePop,hf],by simp [framePop,hf],by simp [framePop,hf,CallStack.addrs],
      [],by simp [framePop,hf,CallStack.addrs]⟩
  | cons g rest =>
    rw [doReturn_cons hf]
    exact .pop (g.addr :: rest.map Frame.addr) (by simp)
      ⟨rfl,rfl,rfl,[],by simp [CallStack.addrs,hf,returnedTo]⟩

theorem blockCannotReturn_outcome (k : CallStack) (e : Exec ω) (v : Oop) :
    SlabOutcome k (blockCannotReturn env e v) := by
  unfold blockCannotReturn
  dsimp only
  split
  · trivial
  · refine .lift (fun w => .lift (fun handlers => ?_))
    cases handlers <;> trivial

theorem nonLocalReturn_outcome {f : Frame} {fs : List Frame} (hf : m.exec.stack.frames = f :: fs)
    (a : Activation) :
    SlabOutcome m.exec.stack (nonLocalReturn env m a fs) := by
  unfold nonLocalReturn
  refine .lift (fun (v,l) => ?_)
  dsimp only
  split
  · exact blockCannotReturn_outcome _ _ _
  · rename_i home rest hhome
    obtain ⟨inner,hinner⟩ : home :: rest <:+ fs := hhome ▸ findHome_suffix a.context fs
    have hframes : m.exec.stack.addrs =
        (f :: inner).map Frame.addr ++ home.addr :: rest.map Frame.addr := by
      simp [CallStack.addrs,hf,← hinner]
    cases rest with
    | nil =>
      rw [doReturn_last (f := home) rfl]
      exact ⟨rfl,rfl,rfl,_,hframes⟩
    | cons g rest =>
      rw [doReturn_cons (f := home) (g := g) rfl]
      exact .pop (g.addr :: rest.map Frame.addr) (by simp) ⟨rfl,rfl,rfl,_,hframes⟩

theorem runPrimitive_outcome (hprim : KeepsSlab env) (m : Machine ω) (insn : Insn)
    (a : Activation) : SlabOutcome m.exec.stack (runPrimitive env mode m insn a) := by
  unfold runPrimitive
  split
  · exact .same (sameSlab_advance _ _)
  · rename_i p hp
    refine .lift (fun args => ?_)
    have hkeep := findPrimitive_keeps hprim hp m.exec args
    cases hr : p m.exec args with
    | success v e =>
      rw [hr] at hkeep
      exact .same ((hkeep.trans (sameSlab_pushValue e v)).trans (sameSlab_advance _ _))
    | failure code e =>
      rw [hr] at hkeep
      simp only [afterPrimitiveInsn]
      split
      · exact hkeep
      · split
        · exact .lift (fun lw => .same ((hkeep.trans (sameSlab_setLocals _ _ _)).trans
            (sameSlab_advance _ _)))
        · trivial
    | unwound e => trivial
    | aborted => trivial

theorem chargeReduction_outcome {f : Machine ω → Except (Halt ω) (Machine ω)}
    (h : ∀ r,SlabOutcome m.exec.stack (f { m with reductions := r })) :
    SlabOutcome m.exec.stack (chargeReduction mode m >>= f) := by
  unfold chargeReduction
  dsimp only
  split
  · exact h _
  · split
    · exact .refl _
    · exact h _

theorem stayStep_outcome {cm : CompiledMethod} {insn : Insn}
    {f : Machine ω → Except (Halt ω) (Machine ω)}
    (h : ∀ m',SameSlab m.exec.stack m'.exec.stack → SlabOutcome m.exec.stack (f m')) :
    SlabOutcome m.exec.stack (stayStep env m cm insn a >>= f) := by
  unfold stayStep
  cases localStep env m.slots cm insn a m.exec.world with
  | error e => trivial
  | ok lw => exact h _ (sameSlab_setLocals _ _ _)

theorem step_outcome (hprim : KeepsSlab env) (m : Machine ω) :
    SlabOutcome m.exec.stack (step env mode m) := by
  cases hf : m.exec.stack.frames with
  | nil =>
    rw [step,hf]
    trivial
  | cons f fs =>
    rw [step_cons hf]
    refine .lift (fun cm => ?_)
    unfold dispatch
    dsimp only
    split
    · refine chargeReduction_outcome (fun r => .lift (fun clw => ?_))
      exact SameSlab.outcome (sameSlab_setLocals _ _ _) (performCall_outcome hprim _ _)
    · exact .lift (fun v => doReturn_outcome hf v)
    · exact nonLocalReturn_outcome hf _
    · exact runPrimitive_outcome hprim _ _ _
    · refine stayStep_outcome (fun m' hm' => SameSlab.outcome hm' ?_)
      rw [← bind_pure (chargeReduction mode m')]
      exact chargeReduction_outcome (fun r => .same (.refl _))
    · rw [← bind_pure (stayStep env m cm _ _)]
      exact stayStep_outcome (fun m' hm' => .same hm')

end

end SmalltalkA
