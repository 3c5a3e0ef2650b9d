import SmalltalkA.Interpreter.Tables
import SmalltalkA.Lib.Runs

/-! Reusing the frame of a tail send against pushing a frame and returning through it. The reference
is the loop without the reuse branch, on a slab that never fills; its stack has frames left waiting
at `OP_RETURN_TOP`. -/

set_option autoImplicit false

namespace SmalltalkA

open Runs

section

variable {ω : Type}

def withReuse (mode : LoopMode) : LoopMode := { mode with tailReuse := true }
def withoutReuse (mode : LoopMode) : LoopMode := { mode with tailReuse := false }

def unbounded (m : Machine ω) : Machine ω := m.setStack { m.exec.stack with limit := none }

/-- What can be seen of a stopped loop: result, stores, the activation left to resume, and how
it stopped. -/
inductive Outcome (ω : Type) where
  | returned (result : Oop) (w : World ω)
  | preempted (current : Option Activation) (w : World ω)
  | unwound (w : World ω)
  | fault (f : Fault)

def Halt.observe : Halt ω → Outcome ω
  | .returned v e => .returned v e.world
  | .preempted e => .preempted (e.stack.frames.head?.map Frame.act) e.world
  | .unwound e => .unwound e.world
  | .fault f => .fault f

def Halt.overflow : Halt ω → Prop
  | .fault (.fatal .stackOverflow) => True
  | .fault (.fatal .blockStackOverflow) => True
  | _ => False

variable (env : Env ω)

/-- Every state the loop reaches is reached by the reference with the same memory and current
activation, and both stop alike, unless the slab runs full. -/
structure TailCallsTransparent (mode : LoopMode) (m : Machine ω) : Prop where
  states : ∀ u,Reaches (step env (withReuse mode)) m u →
    ∃ v,Reaches (step env (withoutReuse mode)) (unbounded m) v ∧
      v.exec.world = u.exec.world ∧ v.current = u.current
  stops : ∀ h,Halts (step env (withReuse mode)) m h → ¬h.overflow →
    ∃ k,Halts (step env (withoutReuse mode)) (unbounded m) k ∧ k.observe = h.observe
  returns : ∀ k,Halts (step env (withoutReuse mode)) (unbounded m) k →
    ∃ h,Halts (step env (withReuse mode)) m h ∧ (h.overflow ∨ k.observe = h.observe)

/-- The send goes on to activate its method: without a primitive, or after its failure. -/
def activates (mode : LoopMode) (e : Exec ω) (c : Call) : Bool :=
  if methodHasPrim c.code.header then
    match isBlockActivation e.world.mem (calleePrimitive c.code) c.receiver with
    | .ok false =>
      match findPrimitive env (calleePrimitive c.code) with
      | some p =>
        match p e (c.receiver :: c.args) with
        | .failure code _ => !(decide (code = primSuspend) && mode.scheduled)
        | _ => false
      | none => true
    | _ => false
  else true

/-- A send that takes the tail-call branch finds the current frame not marked as a home, and a
method with as many arguments as its selector, as the compiler sees to. -/
def reuseSafe (mode : LoopMode) (m : Machine ω) : Bool :=
  match m.exec.stack.frames with
  | [] => true
  | f :: _ =>
    match env.methods f.act.method with
    | none => true
    | some cm =>
      let insn := decodeInsn cm.bytecodes f.act.pc
      match control (Opcode.ofCode insn.opcode) with
      | .send isSuper =>
        match prepareSend env isSuper cm insn f.act m.exec.world with
        | .ok (c,l,w) =>
          let e := m.exec.setLocals l w
          !(activates env mode e c && reusesFrame mode e.stack c) ||
            (!f.act.marker && methodNumArgs c.code.header == c.args.length)
        | .error _ => true
      | _ => true

def PrimResult.withStack (k : CallStack) : PrimResult ω → PrimResult ω
  | .success v e => .success v ⟨e.world,k⟩
  | .failure code e => .failure code ⟨e.world,k⟩
  | .unwound e => .unwound ⟨e.world,k⟩
  | .aborted => .aborted

/-- Primitives work on their arguments and the world; the frames neither matter nor change. (One
that collects garbage is not of this kind.) -/
def PrimitivesIgnoreStack : Prop :=
  ∀ i p,env.primitives i = some p → ∀ w k k' args,p ⟨w,k'⟩ args = (p ⟨w,k⟩ args).withStack k'

/-! ### The simulation relation -/

/-- A frame waiting at `OP_RETURN_TOP` for the value of its tail send. -/
def Trampoline (a : Activation) : Prop :=
  a.marker = false ∧ ∃ cm,env.methods a.method = some cm ∧
    cm.bytecodes.getD a.pc 0 = Opcode.returnTop.code

/-- The reference's frames are the loop's with trampolines inserted above a frame. -/
inductive FramesRel : List Frame → List Frame → Prop where
  | nil : FramesRel [] []
  | frame {f g : Frame} {fs gs : List Frame} (act : g.act = f.act) (tail : FramesRel fs gs) :
      FramesRel (f :: fs) (g :: gs)
  | trampoline {f g : Frame} {fs gs : List Frame} (waits : Trampoline env g.act)
      (tail : FramesRel (f :: fs) gs) : FramesRel (f :: fs) (g :: gs)

structure Related (m n : Machine ω) : Prop where
  world : n.exec.world = m.exec.world
  slots : n.slots = m.slots
  reductions : n.reductions = m.reductions
  limit : n.exec.stack.limit = none
  frames : ∃ f g fs gs,m.exec.stack.frames = f :: fs ∧ n.exec.stack.frames = g :: gs ∧
    g.act = f.act ∧ FramesRel env fs gs

def Catches (mode : LoopMode) (x y : Except (Halt ω) (Machine ω)) : Prop :=
  match x with
  | .ok m => ∃ i n,y.bind (runFor (step env (withoutReuse mode)) i) = .ok n ∧ Related env m n
  | .error h => h.overflow ∨
    ∃ i k,y.bind (runFor (step env (withoutReuse mode)) i) = .error k ∧ k.observe = h.observe

variable {env} {mode : LoopMode}

variable {m n : Machine ω} {gs fs : List Frame} {f : Frame} {c : Call} {cm : CompiledMethod}
  {isSuper : Bool}

theorem catches_ok (h : Related env m n) : Catches env mode (.ok m) (.ok n) := ⟨0,n,rfl,h⟩

theorem catches_error {h k : Halt ω} (hk : k.observe = h.observe) :
    Catches env mode (.error h) (.error k) :=
  .inr ⟨0,k,rfl,hk⟩

theorem catches_step {x : Except (Halt ω) (Machine ω)}
    (h : Catches env mode x (step env (withoutReuse mode) n)) :
    Catches env mode x (.ok n) := by
  cases x with
  | ok m =>
    obtain ⟨i,n',hi,hr⟩ := h
    exact ⟨i + 1,n',hi,hr⟩
  | error e =>
    rcases h with h | ⟨i,k,hi,hr⟩
    · exact .inl h
    · exact .inr ⟨i + 1,k,hi,hr⟩

theorem catches_lift {α : Type} (r : Except Fault α) {F G : α → Except (Halt ω) (Machine ω)}
    (h : ∀ a,r = .ok a → Catches env mode (F a) (G a)) :
    Catches env mode (liftFault r >>= F) (liftFault r >>= G) := by
  cases r with
  | ok a => exact h a rfl
  | error f => exact catches_error rfl

theorem catches_liftFault {α : Type} (r : Except Fault α) {F G : α → Except Fault (Machine ω)}
    (h : ∀ a,r = .ok a → Catches env mode (liftFault (F a)) (liftFault (G a))) :
    Catches env mode (liftFault (r >>= F)) (liftFault (r >>= G)) := by
  cases r with
  | ok a => exact h a rfl
  | error f => exact catches_error rfl

/-! ### Instructions that stay in the activation -/

theorem Related.setLocals (h : Related env m n) (l : Locals) (w : World ω) :
    Related env { m with exec := m.exec.setLocals l w }
      { n with exec := n.exec.setLocals l w } := by
  obtain ⟨f,g,fs,gs,hf,hg,hact,htail⟩ := h.frames
  exact { world := by simp, slots := h.slots, reductions := h.reductions,
          limit := by simp [h.limit],
          frames := ⟨_,_,fs,gs,setLocals_frames hf l w,setLocals_frames hg l w,by rw [hact],htail⟩ }

theorem Related.charge (mode : LoopMode) (h : Related env m n) :
    (∃ r,chargeReduction (withReuse mode) m = .ok { m with reductions := r } ∧
      chargeReduction (withoutReuse mode) n = .ok { n with reductions := r }) ∨
    (chargeReduction (withReuse mode) m = .error (.preempted m.exec) ∧
      chargeReduction (withoutReuse mode) n = .error (.preempted n.exec)) := by
  unfold chargeReduction withReuse withoutReuse
  rw [h.reductions]
  dsimp only
  cases mode.quota with
  | none => exact .inl ⟨_,rfl,rfl⟩
  | some q =>
    dsimp only
    by_cases hq : mode.scheduled = true ∧ q ≤ m.reductions + 1
    · rw [if_pos hq,if_pos hq]
      exact .inr ⟨rfl,rfl⟩
    · rw [if_neg hq,if_neg hq]
      exact .inl ⟨_,rfl,rfl⟩

theorem Related.current (h : Related env m n) : n.current = m.current := by
  obtain ⟨f,g,fs,gs,hf,hg,hact,-⟩ := h.frames
  simp [Machine.current,hf,hg,hact]

theorem Related.setReductions (h : Related env m n) (r : Nat) :
    Related env { m with reductions := r } { n with reductions := r } :=
  { world := h.world,slots := h.slots,reductions := rfl,limit := h.limit,frames := h.frames }

theorem catches_preempted (h : Related env m n) :
    Catches env mode (.error (.preempted m.exec)) (.error (.preempted n.exec)) := by
  refine catches_error ?_
  have hc := h.current
  simp only [Machine.current] at hc
  simp [Halt.observe,h.world,hc]

theorem catches_charge (h : Related env m n) {F G : Machine ω → Except (Halt ω) (Machine ω)}
    (hFG : ∀ r,Catches env mode (F { m with reductions := r }) (G { n with reductions := r })) :
    Catches env mode (chargeReduction (withReuse mode) m >>= F)
      (chargeReduction (withoutReuse mode) n >>= G) := by
  rcases h.charge mode with ⟨r,hm,hn⟩ | ⟨hm,hn⟩
  · rw [hm,hn]
    exact hFG r
  · rw [hm,hn]
    exact catches_preempted h

/-! ### Returns -/

theorem step_trampoline {g : Frame} {a : Activation} {v : Oop} (hg : n.exec.stack.frames = g :: gs)
    (ha : Trampoline env a) (hact : g.act = { a with toLocals := a.toLocals.push v })
    (mode : LoopMode) :
    step env mode n = doReturn n v := by
  obtain ⟨-,cm,hcm,hop⟩ := ha
  have hm : env.methods g.act.method = some cm := by rw [hact]; exact hcm
  have hinsn : (decodeInsn cm.bytecodes g.act.pc).opcode = Opcode.returnTop.code := by
    have hpc : g.act.pc = a.pc := by rw [hact]; rfl
    have hw : Opcode.returnTop.code ≠ Opcode.wide.code := by decide
    rw [hpc,decodeInsn,hop,if_neg hw]
  have hv : returnValue env g.act (some .returnTop) = .ok v := by rw [hact]; rfl
  rw [step_dispatch hg hm]
  simp only [dispatch,hinsn,Opcode.ofCode_code,control,hv]
  rfl

theorem catches_return {g : Frame} (v : Oop) (hf : m.exec.stack.frames = f :: fs)
    (hg : n.exec.stack.frames = g :: gs) (hw : n.exec.world = m.exec.world)
    (hr : n.reductions = m.reductions) (hl : n.exec.stack.limit = none)
    (htail : FramesRel env fs gs) :
    Catches env mode (doReturn m v) (doReturn n v) := by
  induction htail generalizing n g with
  | nil =>
    rw [doReturn_last hf,doReturn_last hg]
    exact catches_error (by simp [Halt.observe,hw])
  | @frame f' g' fs gs hact tail =>
    rw [doReturn_cons hf,doReturn_cons hg]
    refine catches_ok ?_
    exact { world := hw, slots := by simp [returnedTo,hact], reductions := hr, limit := hl,
            frames := ⟨_,_,fs,gs,rfl,rfl,by rw [hact],tail⟩ }
  | @trampoline f' g' fs gs waits tail ih =>
    rw [doReturn_cons hg]
    refine catches_step ?_
    have hnext : (returnedTo n g.addr g' gs v).exec.stack.frames =
        ⟨g'.addr,{ g'.act with toLocals := g'.act.toLocals.push v }⟩ :: gs := rfl
    rw [step_trampoline hnext waits rfl]
    exact ih hf hnext hw hr hl

/-! ### Non-local returns -/

theorem FramesRel.findHome (h : FramesRel env fs gs) (ctx : Oop) :
    (SmalltalkA.findHome ctx fs = [] ∧ SmalltalkA.findHome ctx gs = []) ∨
    ∃ f g fs' gs',SmalltalkA.findHome ctx fs = f :: fs' ∧
      SmalltalkA.findHome ctx gs = g :: gs' ∧ FramesRel env fs' gs' := by
  induction h with
  | nil => exact .inl ⟨rfl,rfl⟩
  | @frame f g fs gs hact tail ih =>
    simp only [SmalltalkA.findHome,hact]
    by_cases hc : f.act.marker = true ∧ f.act.context = ctx
    · rw [if_pos hc,if_pos hc]
      exact .inr ⟨f,g,fs,gs,rfl,rfl,tail⟩
    · rw [if_neg hc,if_neg hc]
      exact ih
  | @trampoline f g fs gs waits tail ih =>
    have hc : ¬(g.act.marker = true ∧ g.act.context = ctx) := by simp [waits.1]
    have hskip : SmalltalkA.findHome ctx (g :: gs) = SmalltalkA.findHome ctx gs := by
      rw [SmalltalkA.findHome,if_neg hc]
    rw [hskip]
    exact ih

theorem catches_cannotReturn {e e' : Exec ω} (hw : e'.world = e.world) (result : Oop) :
    Catches env mode (blockCannotReturn env e result) (blockCannotReturn env e' result) := by
  unfold blockCannotReturn
  rw [hw]
  cases e.world.alloc clsBlockCannotReturn 4 with
  | none => exact catches_error rfl
  | some p =>
    refine catches_lift _ ?_
    intro w _
    refine catches_lift _ ?_
    intro handlers _
    cases handlers with
    | nil => exact catches_error rfl
    | cons h prev => exact catches_error rfl

theorem catches_nonLocalReturn (h : Related env m n) (a : Activation) (htail : FramesRel env fs gs)
    :
    Catches env mode (nonLocalReturn env m a fs) (nonLocalReturn env n a gs) := by
  unfold nonLocalReturn
  refine catches_lift _ ?_
  rintro ⟨result,l⟩ _
  rcases htail.findHome a.context with ⟨hm,hn⟩ | ⟨home,home',rest,rest',hm,hn,hrest⟩
  · simp only [hm,hn]
    exact catches_cannotReturn (by simp [h.world]) result
  · simp only [hm,hn]
    exact catches_return result rfl rfl h.world h.reductions h.limit hrest

/-! ### Frame pushes -/

theorem catches_enterFrame (h : Related env m n) (full : Fatal)
    (hfull : Halt.overflow (ω := ω) (.fault (.fatal full))) (a : Activation)
    (start : Except Fault (Activation × World ω)) :
    Catches env mode (liftFault (enterFrame m a full start))
      (liftFault (enterFrame n a full start)) := by
  obtain ⟨f,g,fs,gs,hf,hg,hact,htail⟩ := h.frames
  obtain ⟨kn,hkn⟩ := framePush_unbounded h.limit a
  unfold enterFrame
  rw [hkn]
  cases hkm : framePush m.exec.stack a with
  | none => exact .inl hfull
  | some km =>
    obtain ⟨addr,top,rfl⟩ := framePush_some hkm
    obtain ⟨addr',top',rfl⟩ := framePush_some hkn
    refine catches_liftFault start ?_
    rintro ⟨a',w⟩ _
    refine catches_ok ?_
    exact { world := rfl, slots := rfl, reductions := h.reductions, limit := by simpa using h.limit,
            frames := ⟨⟨addr,a'⟩,⟨addr',a'⟩,f :: fs,g :: gs,by rw [← hf]; rfl,by rw [← hg]; rfl,rfl,
              .frame hact htail⟩ }

theorem catches_pushCall (h : Related env m n) (c : Call) (failure : Option Nat) :
    Catches env mode (liftFault (pushCall env m c failure))
      (liftFault (pushCall env n c failure)) := by
  unfold pushCall
  rw [h.world]
  exact catches_enterFrame h .stackOverflow trivial _ _

theorem catches_activateBlock (h : Related env m n) (b : Closure) (args : List Oop) :
    Catches env mode (liftFault (activateBlock env m b args))
      (liftFault (activateBlock env n b args)) := by
  unfold activateBlock
  rw [h.world]
  refine catches_liftFault _ ?_
  intro home _
  exact catches_enterFrame h .blockStackOverflow trivial _ _

/-! ### Reuse against push -/

theorem reusedActivation_eq (hargs : methodNumArgs c.code.header = c.args.length) :
    reusedActivation env c false =
      newActivation env.nilOop c.code.header c.method c.receiver c.args := by
  simp [reusedActivation,newActivation,calleeLocals,hargs]

theorem pushedActivation_small (hlarge : methodLargeFrame c.code.header = false) (w : World ω)
    (failure : Option Nat) :
    pushedActivation env w c failure = startActivation c failure
      (newActivation env.nilOop c.code.header c.method c.receiver c.args) w := by
  simp only [pushedActivation,hlarge]
  rfl

theorem catches_reuse (h : Related env m n) {f' : Frame} (failure : Option Nat)
    (hf : m.exec.stack.frames = f :: f' :: fs) (hwaits : Trampoline env f.act)
    (hlarge : methodLargeFrame c.code.header = false)
    (hargs : methodNumArgs c.code.header = c.args.length) :
    Catches env mode (liftFault (reuseFrame env m c failure))
      (liftFault (pushCall env n c failure)) := by
  obtain ⟨f₁,g,fs₁,gs,hf₁,hg,hact,htail⟩ := h.frames
  obtain ⟨rfl,rfl⟩ : f₁ = f ∧ fs₁ = f' :: fs := by
    rw [hf₁] at hf
    simpa using hf
  obtain ⟨kn,hkn⟩ := framePush_unbounded h.limit
    (newActivation env.nilOop c.code.header c.method c.receiver c.args)
  obtain ⟨addr,top,rfl⟩ := framePush_some hkn
  unfold pushCall enterFrame reuseFrame
  rw [hkn,hf₁,h.world,pushedActivation_small hlarge]
  dsimp only
  rw [hwaits.1,reusedActivation_eq hargs]
  refine catches_liftFault _ ?_
  rintro ⟨a,w⟩ ha
  refine catches_ok ?_
  have hctx : a.context = 0 := startActivation_context ha
  have hgwaits : Trampoline env g.act := hact ▸ hwaits
  exact { world := rfl, slots := by simp [effectiveSlots,hctx], reductions := h.reductions,
          limit := by simpa using h.limit,
          frames := ⟨_,⟨addr,a⟩,f' :: fs,g :: gs,setAct_frames hf₁ a,by rw [← hg]; rfl,rfl,
            .trampoline hgwaits htail⟩ }

variable (env) in
def ReusableFor (m : Machine ω) (c : Call) : Prop :=
  ∃ f f' fs,m.exec.stack.frames = f :: f' :: fs ∧ Trampoline env f.act ∧
    methodLargeFrame c.code.header = false ∧ methodNumArgs c.code.header = c.args.length

theorem reusesFrame_without (k : CallStack) (c : Call) :
    reusesFrame (withoutReuse mode) k c = false := by
  unfold reusesFrame
  split <;> simp [withoutReuse]

theorem catches_activate (h : Related env m n) (c : Call) (failure : Option Nat)
    (hsafe : reusesFrame (withReuse mode) m.exec.stack c = true → ReusableFor env m c) :
    Catches env mode (liftFault (activate env (withReuse mode) m c failure))
      (liftFault (activate env (withoutReuse mode) n c failure)) := by
  unfold activate
  rw [reusesFrame_without,if_neg Bool.false_ne_true]
  by_cases hr : reusesFrame (withReuse mode) m.exec.stack c = true
  · rw [if_pos hr]
    obtain ⟨f,f',fs,hf,hwaits,hlarge,hargs⟩ := hsafe hr
    exact catches_reuse h failure hf hwaits hlarge hargs
  · rw [if_neg hr]
    exact catches_pushCall h c failure

/-! ### Primitives -/

theorem Related.setWorld (h : Related env m n) (w : World ω) :
    Related env { m with exec := ⟨w,m.exec.stack⟩ } { n with exec := ⟨w,n.exec.stack⟩ } :=
  { world := rfl,slots := h.slots,reductions := h.reductions,limit := h.limit,frames := h.frames }

theorem Related.pushValue (h : Related env m n) (v : Oop) :
    Related env { m with exec := m.exec.pushValue v } { n with exec := n.exec.pushValue v } := by
  obtain ⟨f,g,fs,gs,hf,hg,hact,-⟩ := h.frames
  rw [pushValue_cons hf,pushValue_cons hg,hact,h.world]
  exact h.setLocals _ _

theorem primitive_related (hp : PrimitivesIgnoreStack env) (h : Related env m n) {index : Nat}
    {p : Primitive ω} (hpi : findPrimitive env index = some p) (args : List Oop) :
    p m.exec args = (p m.exec args).withStack m.exec.stack ∧
      p n.exec args = (p m.exec args).withStack n.exec.stack := by
  have hi : env.primitives index = some p := by
    unfold findPrimitive at hpi
    split at hpi
    · exact hpi
    · cases hpi
  have hw : n.exec = ⟨m.exec.world,n.exec.stack⟩ := by rw [← h.world]
  constructor
  · exact hp index p hi m.exec.world m.exec.stack m.exec.stack args
  · rw [hw]
    exact hp index p hi m.exec.world m.exec.stack n.exec.stack args

theorem catches_afterPrimitive (mode : LoopMode) (h : Related env m n) (c : Call) {r : PrimResult ω}
      (hsafe : (∃ code e,r = .failure code e ∧ ¬(code = primSuspend ∧ mode.scheduled = true)) →
      reusesFrame (withReuse mode) m.exec.stack c = true → ReusableFor env m c) :
    Catches env mode (afterPrimitive env (withReuse mode) m c (r.withStack m.exec.stack))
      (afterPrimitive env (withoutReuse mode) n c (r.withStack n.exec.stack)) := by
  cases r with
  | success v e => exact catches_ok ((h.setWorld e.world).pushValue v)
  | failure code e =>
    simp only [PrimResult.withStack,afterPrimitive]
    by_cases hs : code = primSuspend ∧ mode.scheduled = true
    · have h₁ : code = primSuspend ∧ (withReuse mode).scheduled = true := hs
      have h₂ : code = primSuspend ∧ (withoutReuse mode).scheduled = true := hs
      rw [if_pos h₁,if_pos h₂]
      exact catches_preempted (h.setWorld e.world)
    · have h₁ : ¬(code = primSuspend ∧ (withReuse mode).scheduled = true) := hs
      have h₂ : ¬(code = primSuspend ∧ (withoutReuse mode).scheduled = true) := hs
      rw [if_neg h₁,if_neg h₂]
      exact catches_activate (h.setWorld e.world) c _ (hsafe ⟨code,e,rfl,hs⟩)
  | unwound e => exact catches_error rfl
  | aborted => exact catches_error rfl

theorem catches_performCall (hp : PrimitivesIgnoreStack env) (h : Related env m n) (c : Call) (hsafe
      : activates env (withReuse mode) m.exec c = true → reusesFrame (withReuse mode) m.exec.stack c
      = true → ReusableFor env m c) :
    Catches env mode (performCall env (withReuse mode) m c)
      (performCall env (withoutReuse mode) n c) := by
  unfold performCall
  rw [h.world]
  by_cases hprim : methodHasPrim c.code.header = true
  · rw [if_pos hprim,if_pos hprim]
    refine catches_lift _ ?_
    intro isBlock hblock
    cases isBlock with
    | true =>
      refine catches_liftFault _ ?_
      intro b _
      exact catches_activateBlock h b c.args
    | false =>
      rw [if_neg Bool.false_ne_true,if_neg Bool.false_ne_true]
      cases hpi : findPrimitive env (calleePrimitive c.code) with
      | none =>
        refine catches_activate h c _ ?_
        exact hsafe (by simp [activates,hprim,hblock,hpi])
      | some p =>
        obtain ⟨hm,hn⟩ := primitive_related hp h hpi (c.receiver :: c.args)
        have hcatch := catches_afterPrimitive mode h c (r := p m.exec (c.receiver :: c.args)) (by
            rintro ⟨code,e,hr,hs⟩
            refine hsafe ?_
            have hs' : ¬(code = primSuspend ∧ (withReuse mode).scheduled = true) := hs
            rcases not_and_or.mp hs' with hc | hc <;>
              simp [activates,hprim,hblock,hpi,hr,hc])
        rw [← hm,← hn] at hcatch
        exact hcatch
  · rw [if_neg hprim,if_neg hprim]
    refine catches_activate h c _ ?_
    exact hsafe (by simp [activates,hprim])

theorem Related.advance (h : Related env m n) (len : Nat) :
    Related env { m with exec := m.exec.advance len } { n with exec := n.exec.advance len } := by
  obtain ⟨f,g,fs,gs,hf,hg,hact,-⟩ := h.frames
  simp only [Exec.advance,hf,hg,hact,h.world]
  exact h.setLocals _ _

theorem catches_afterPrimitiveInsn (mode : LoopMode) (h : Related env m n) (len : Nat)
    (r : PrimResult ω) :
    Catches env mode (afterPrimitiveInsn (withReuse mode) m len (r.withStack m.exec.stack))
      (afterPrimitiveInsn (withoutReuse mode) n len (r.withStack n.exec.stack)) := by
  cases r with
  | success v e => exact catches_ok (((h.setWorld e.world).pushValue v).advance len)
  | failure code e =>
    obtain ⟨f,g,fs,gs,hf,hg,hact,-⟩ := h.frames
    simp only [PrimResult.withStack,afterPrimitiveInsn,hf,hg,hact,h.slots]
    by_cases hs : code = primSuspend ∧ mode.scheduled = true
    · have h₁ : code = primSuspend ∧ (withReuse mode).scheduled = true := hs
      have h₂ : code = primSuspend ∧ (withoutReuse mode).scheduled = true := hs
      rw [if_pos h₁,if_pos h₂]
      exact catches_preempted (h.setWorld e.world)
    · have h₁ : ¬(code = primSuspend ∧ (withReuse mode).scheduled = true) := hs
      have h₂ : ¬(code = primSuspend ∧ (withoutReuse mode).scheduled = true) := hs
      rw [if_neg h₁,if_neg h₂]
      refine catches_lift _ ?_
      rintro ⟨l,w⟩ _
      have hr := ((h.setWorld e.world).setLocals l w).advance len
      rw [h.slots] at hr
      exact catches_ok hr
  | unwound e => exact catches_error rfl
  | aborted => exact catches_error rfl

theorem catches_runPrimitive (hp : PrimitivesIgnoreStack env) (h : Related env m n) (insn : Insn)
    (a : Activation) :
    Catches env mode (runPrimitive env (withReuse mode) m insn a)
      (runPrimitive env (withoutReuse mode) n insn a) := by
  have hargs : primitiveArgs n.slots a n.exec.world = primitiveArgs m.slots a m.exec.world := by
    rw [h.world,h.slots]
  unfold runPrimitive
  rw [hargs]
  cases hpi : findPrimitive env insn.operand with
  | none => exact catches_ok (h.advance insn.len)
  | some p =>
    refine catches_lift _ ?_
    intro args _
    obtain ⟨hm,hn⟩ := primitive_related hp h hpi args
    have hcatch := catches_afterPrimitiveInsn mode h insn.len (p m.exec args)
    rw [← hm,← hn] at hcatch
    exact hcatch

/-! ### Sends and the whole step -/

theorem prepareSend_isTail {insn : Insn} {a : Activation} {w w' : World ω} {l : Locals}
    (h : prepareSend env isSuper cm insn a w = .ok (c,l,w')) :
    c.isTail = (cm.bytecodes.getD l.pc 0 == Opcode.returnTop.code) := by
  unfold prepareSend at h
  obtain ⟨selector,-,h⟩ := bind_ok h
  obtain ⟨⟨args,l₁⟩,-,h⟩ := bind_ok h
  obtain ⟨⟨receiver,l₂⟩,-,h⟩ := bind_ok h
  obtain ⟨⟨found,args',w₁⟩,-,h⟩ := bind_ok h
  obtain ⟨code,-,h⟩ := bind_ok h
  cases h
  rfl

theorem reusesFrame_true {k : CallStack} (h : reusesFrame mode k c = true) :
    ∃ f f' fs,k.frames = f :: f' :: fs ∧ c.isTail = true ∧
      methodLargeFrame c.code.header = false := by
  unfold reusesFrame at h
  split at h
  · next f f' fs hk =>
    simp only [Bool.and_eq_true,Bool.not_eq_true'] at h
    exact ⟨f,f',fs,hk,h.1.1.2,h.1.2⟩
  · cases h

theorem reuseSafe_send {l : Locals} {w : World ω} (hsafe : reuseSafe env mode m = true)
    (hf : m.exec.stack.frames = f :: fs) (hcm : env.methods f.act.method = some cm)
    (hop : control (Opcode.ofCode (decodeInsn cm.bytecodes f.act.pc).opcode) = .send isSuper) (hc :
      prepareSend env isSuper cm (decodeInsn cm.bytecodes f.act.pc) f.act m.exec.world = .ok
      (c,l,w)) (ha : activates env mode (m.exec.setLocals l w) c = true)
    (hr : reusesFrame mode (m.exec.setLocals l w).stack c = true) :
    f.act.marker = false ∧ methodNumArgs c.code.header = c.args.length := by
  simp only [reuseSafe,hf,hcm,hop,hc,ha,hr] at hsafe
  simpa using hsafe

theorem catches_send (hp : PrimitivesIgnoreStack env) (h : Related env m n)
    (hf : m.exec.stack.frames = f :: fs) (hcm : env.methods f.act.method = some cm)
    (hop : control (Opcode.ofCode (decodeInsn cm.bytecodes f.act.pc).opcode) = .send isSuper)
    (hsafe : reuseSafe env (withReuse mode) m = true) :
    Catches env mode
      (sendStep env (withReuse mode) m isSuper cm (decodeInsn cm.bytecodes f.act.pc) f.act)
      (sendStep env (withoutReuse mode) n isSuper cm (decodeInsn cm.bytecodes f.act.pc) f.act) := by
  unfold sendStep
  refine catches_charge h ?_
  intro r
  dsimp only
  rw [h.world]
  refine catches_lift _ ?_
  rintro ⟨c,l,w⟩ hc
  refine catches_performCall hp ((h.setReductions r).setLocals l w) c ?_
  intro ha hr
  obtain ⟨hmark,hargs⟩ := reuseSafe_send hsafe hf hcm hop hc ha hr
  obtain ⟨f₁,f₂,fs₁,hk,htail,hlarge⟩ := reusesFrame_true hr
  refine ⟨f₁,f₂,fs₁,hk,?_,hlarge,hargs⟩
  have hf₁ : f₁.act = { f.act with toLocals := l } := by
    have hs := setLocals_frames hf l w
    rw [hk] at hs
    rw [(List.cons.inj hs).1]
  have hret : cm.bytecodes.getD l.pc 0 = Opcode.returnTop.code := by
    have ht := prepareSend_isTail hc
    rw [htail] at ht
    exact beq_iff_eq.mp ht.symm
  rw [hf₁]
  exact ⟨hmark,cm,hcm,hret⟩

theorem stayStep_related (h : Related env m n) (cm : CompiledMethod) (insn : Insn) (a : Activation)
    :
    (∃ m' n',stayStep env m cm insn a = .ok m' ∧ stayStep env n cm insn a = .ok n' ∧
      Related env m' n') ∨
    ∃ f,stayStep env m cm insn a = .error (.fault f) ∧
      stayStep env n cm insn a = .error (.fault f) := by
  have hl : localStep env n.slots cm insn a n.exec.world =
      localStep env m.slots cm insn a m.exec.world := by rw [h.world,h.slots]
  unfold stayStep
  rw [hl]
  cases localStep env m.slots cm insn a m.exec.world with
  | error f => exact .inr ⟨f,rfl,rfl⟩
  | ok p => exact .inl ⟨_,_,rfl,rfl,h.setLocals p.1 p.2⟩

theorem catches_stay (h : Related env m n) (cm : CompiledMethod) (insn : Insn) (a : Activation) :
    Catches env mode (stayStep env m cm insn a) (stayStep env n cm insn a) := by
  rcases stayStep_related h cm insn a with ⟨m',n',hm,hn,h'⟩ | ⟨f,hm,hn⟩
  · rw [hm,hn]
    exact catches_ok h'
  · rw [hm,hn]
    exact catches_error rfl

theorem catches_jumpBack (h : Related env m n) (cm : CompiledMethod) (insn : Insn) (a : Activation)
    :
    Catches env mode (stayStep env m cm insn a >>= chargeReduction (withReuse mode))
      (stayStep env n cm insn a >>= chargeReduction (withoutReuse mode)) := by
  rcases stayStep_related h cm insn a with ⟨m',n',hm,hn,h'⟩ | ⟨f,hm,hn⟩
  · rw [hm,hn]
    change Catches env mode (chargeReduction (withReuse mode) m')
      (chargeReduction (withoutReuse mode) n')
    rcases h'.charge mode with ⟨r,hm',hn'⟩ | ⟨hm',hn'⟩
    · rw [hm',hn']
      exact catches_ok (h'.setReductions r)
    · rw [hm',hn']
      exact catches_preempted h'
  · rw [hm,hn]
    exact catches_error rfl

theorem catches_next (hp : PrimitivesIgnoreStack env) (h : Related env m n)
    (hsafe : reuseSafe env (withReuse mode) m = true) :
    Catches env mode (step env (withReuse mode) m) (step env (withoutReuse mode) n) := by
  obtain ⟨f,g,fs,gs,hf,hg,hact,htail⟩ := h.frames
  rw [step_cons hf,step_cons hg,hact]
  refine catches_lift _ ?_
  intro cm hcm
  have hcm : env.methods f.act.method = some cm := by
    cases hm : env.methods f.act.method with
    | none => rw [hm] at hcm; cases hcm
    | some cm' => rw [hm] at hcm; cases hcm; rfl
  unfold dispatch
  dsimp only
  cases hop : control (Opcode.ofCode (decodeInsn cm.bytecodes f.act.pc).opcode) with
  | send isSuper => exact catches_send hp h hf hcm hop hsafe
  | ret =>
    refine catches_lift _ ?_
    intro v _
    exact catches_return v hf hg h.world h.reductions h.limit htail
  | nonLocalReturn => exact catches_nonLocalReturn h f.act htail
  | primitive => exact catches_runPrimitive hp h _ _
  | jumpBack => exact catches_jumpBack h cm _ _
  | stay => exact catches_stay h cm _ _

/-! ### Whole runs -/

theorem tailCall_simulation (hp : PrimitivesIgnoreStack env) (mode : LoopMode) :
    Simulation (step env (withReuse mode)) (step env (withoutReuse mode)) (Related env)
      (fun h k => k.observe = h.observe) (fun m => reuseSafe env (withReuse mode) m = true)
      Halt.overflow (fun _ => 0) where
  next {m m' n} h hsafe hm := by
    have hc := catches_next hp h hsafe
    rw [hm] at hc
    obtain ⟨i,n',hn,hr⟩ := hc
    exact .inl ⟨i,n',hn,hr⟩
  halt {m n e} h hsafe hm := by
    have hc := catches_next hp h hsafe
    rw [hm] at hc
    rcases hc with hc | ⟨i,k,hk,ho⟩
    · exact .inl hc
    · exact .inr ⟨k,⟨i + 1,hk⟩,ho⟩

theorem framesRel_refl (fs : List Frame) : FramesRel env fs fs := by
  induction fs with
  | nil => exact .nil
  | cons f fs ih => exact .frame rfl ih

theorem related_unbounded (hf : m.exec.stack.frames = f :: fs) : Related env m (unbounded m) :=
  { world := rfl,slots := rfl,reductions := rfl,limit := rfl
    frames := ⟨f,f,fs,fs,hf,hf,rfl,framesRel_refl fs⟩ }

end

/-- `foo: x ^self bar: [^x]`, `bar: b ^b value`, `main ^self foo: 42` and the primitive `value`. -/
def nlrMain : CompiledMethod :=
  ⟨methodHeader 0 0 1 0 false false,[272],[0x02,0,0x0B,42,0x20,0,0x30,0]⟩

def nlrFoo : CompiledMethod :=
  ⟨methodHeader 1 1 2 0 false true,[288,1280],
    [0x02,0,0x61,1,0x07,0,0x35,0,0x20,0,0x30,0]⟩

def nlrBar : CompiledMethod :=
  ⟨methodHeader 1 1 1 0 false false,[304],[0x07,0,0x20,0,0x30,0]⟩

def blockValue : CompiledMethod := ⟨methodHeader 0 0 0 81 true false,[],[0x52,81,0x31,0]⟩

def nlrEnv : Env Unit :=
  tableEnv [(1024,nlrMain),(1040,nlrFoo),(1056,nlrBar),(1072,blockValue)]
    [((528,272),1040),((528,288),1056),((560,304),1072)] [(272,1),(288,1),(304,0)] []

def nlrWorld : World Unit where
  heap := ⟨8192,4096,0⟩
  mem := tableMemory [(512,plainObj 16 [16,528,1,16]),(544,plainObj 16 [16,560,1,16]),
    (768,plainObj 2 []),(1280,plainObj clsBlockDescriptor [9,9,1,1,3])]
  classTable := twoClasses 2 512 clsBlockClosure 544
  handlers := []
  signaled := 0
  rest := ()

def nlrStart : Machine Unit := startMachine nlrWorld 16 1024 nlrMain 768

/-- `main ^self qux: 42`, `qux: x ^self quux: x` and `quux: y ^y`. -/
def tailMain : CompiledMethod :=
  ⟨methodHeader 0 0 1 0 false false,[272],[0x02,0,0x0B,42,0x20,0,0x30,0]⟩

def tailQux : CompiledMethod :=
  ⟨methodHeader 1 1 1 0 false false,[288],[0x02,0,0x07,0,0x20,0,0x30,0]⟩

def tailQuux : CompiledMethod := ⟨methodHeader 1 1 0 0 false false,[],[0x07,0,0x30,0]⟩

def tailEnv : Env Unit :=
  tableEnv [(1024,tailMain),(1040,tailQux),(1056,tailQuux)]
    [((528,272),1040),((528,288),1056)] [(272,1),(288,1)] []

def tailStart : Machine Unit := startMachine nlrWorld 16 1024 tailMain 768

end SmalltalkA
