import SmalltalkA.Interpreter.SlotCache
import SmalltalkA.Interpreter.TailCall

/-! Root enumeration on the stack slab (`sta_frame_gc_roots`) against what a later instruction can
read. -/

set_option autoImplicit false

namespace SmalltalkA

open Runs List Option

/-! ## Places on the slab -/

def Frame.stackBase (f : Frame) : Nat :=
  f.addr + frameHeaderSize + 8 * (f.act.argCount + f.act.localCount)

/-- The places of the words from `a` up to `b`. -/
def wordsBetween (a b : Nat) : List Nat := (List.range ((b - a + 7) / 8)).map (fun i => a + 8 * i)

/-- `method`, `receiver`, `context` if there is one, arguments and temporaries. -/
def Frame.fieldPlaces (f : Frame) : List Nat :=
  [f.addr,f.addr + 8] ++ (if f.act.context ≠ 0 then [f.addr + 32] else []) ++
    wordsBetween (f.addr + frameHeaderSize) f.stackBase

def walksStack (k : CallStack) (f : Frame) (senders : List Frame) : Bool :=
  senders.isEmpty || f.addr == k.base || f.addr + frameHeaderSize == k.top

/-- `sta_frame_gc_roots` from the innermost frame on. -/
def frameGcRoots (k : CallStack) : List Frame → List Nat
  | [] => []
  | f :: senders =>
    f.fieldPlaces ++ (if walksStack k f senders then wordsBetween f.stackBase k.sp else []) ++
      frameGcRoots k senders

def CallStack.chain (k : CallStack) : List Frame := k.frames ++ k.outer.flatten

def Frame.livePlaces (f : Frame) : List Nat := f.fieldPlaces ++ wordsBetween f.stackBase f.sp

def livePlaces (k : CallStack) : List Nat := k.chain.flatMap Frame.livePlaces

def RootsExact (k : CallStack) : Prop := ∀ a,a ∈ frameGcRoots k k.frames ↔ a ∈ livePlaces k

/-! ## The layout of the frames -/

/-- What of a frame its places depend on. -/
structure FrameShape where
  addr : Nat
  slots : Nat
  args : Nat
  locals : Nat
  stack : Nat

def Frame.shape (f : Frame) : FrameShape :=
  ⟨f.addr,f.act.temps.length,f.act.argCount,f.act.localCount,f.act.stack.length⟩

def FrameShape.sp (s : FrameShape) : Nat := s.addr + frameHeaderSize + 8 * (s.slots + s.stack)

/-- The frame has the slots that its counters say, at a word boundary. -/
structure FrameShape.Ok (s : FrameShape) : Prop where
  slots : s.slots = s.args + s.locals
  aligned : s.addr % 8 = 0

instance (s : FrameShape) : Decidable s.Ok :=
  decidable_of_iff (s.slots = s.args + s.locals ∧ s.addr % 8 = 0)
    ⟨fun h => ⟨h.1,h.2⟩,fun h => ⟨h.slots,h.aligned⟩⟩

def CallStack.shapes (k : CallStack) : List FrameShape := k.chain.map Frame.shape

/-- Frames lie one above the other, each after the expression stack of the one below. -/
structure Framed (k : CallStack) : Prop where
  base : k.base % 8 = 0
  top : k.top % 8 = 0
  frames : ∀ s ∈ k.shapes,s.Ok
  order : k.shapes.Pairwise (fun inner below => below.sp ≤ inner.addr)
  loops : ∀ c ∈ k.outer,c ≠ []

theorem FrameShape.addr_lt_sp (s : FrameShape) : s.addr + frameHeaderSize ≤ s.sp := by
  simp only [FrameShape.sp]
  omega

theorem chain_cons {k : CallStack} {f : Frame} {fs : List Frame} (hf : k.frames = f :: fs) :
    k.chain = f :: (fs ++ k.outer.flatten) := by
  simp [CallStack.chain,hf]

theorem Framed.sp_eq {k : CallStack} (h : Framed k) :
    k.sp = (k.shapes.head?.map FrameShape.sp).getD k.base := by
  unfold CallStack.sp CallStack.shapes CallStack.chain
  cases hf : k.frames with
  | cons f fs => rfl
  | nil =>
    cases ho : k.outer with
    | nil => rfl
    | cons c cs =>
      cases c with
      | nil => exact absurd rfl (h.loops [] (by simp [ho]))
      | cons f fs => rfl

theorem Framed.sp_mod {k : CallStack} (h : Framed k) : k.sp % 8 = 0 := by
  rw [h.sp_eq]
  cases hs : k.shapes with
  | nil => exact h.base
  | cons s ss =>
    have hok := h.frames s (by simp [hs])
    have := hok.aligned
    simp only [head?_cons,map_some,getD_some,FrameShape.sp,frameHeaderSize]
    omega

theorem Framed.below_sp {k : CallStack} (h : Framed k) {s : FrameShape} (hs : s ∈ k.shapes) :
    s.sp ≤ k.sp := by
  rw [h.sp_eq]
  have horder := h.order
  cases hl : k.shapes with
  | nil => simp [hl] at hs
  | cons t ts =>
    rw [hl] at hs horder
    rcases mem_cons.mp hs with rfl | hs
    · exact Nat.le_refl _
    · have := (pairwise_cons.mp horder).1 s hs
      have := t.addr_lt_sp
      simp only [head?_cons,map_some,getD_some]
      omega

/-! ### Operations -/

section

theorem Framed.of_shapes {k k' : CallStack} (h : Framed k) (hbase : k'.base = k.base)
    (htop : k'.top % 8 = 0) (hshapes : k'.shapes = k.shapes) (houter : ∀ c ∈ k'.outer,c ≠ []) :
    Framed k' where
  base := hbase ▸ h.base
  top := htop
  frames := hshapes ▸ h.frames
  order := hshapes ▸ h.order
  loops := houter

theorem Framed.setInner {k : CallStack} {f g : Frame} {fs : List Frame} (h : Framed k)
    (hf : k.frames = f :: fs) (haddr : g.addr = f.addr) (hslots : g.shape.Ok) :
    Framed { k with frames := g :: fs } := by
  have hshapes : k.shapes = f.shape :: (fs ++ k.outer.flatten).map Frame.shape := by
    rw [CallStack.shapes,chain_cons hf,map_cons]
  have horder := h.order
  have hframes := h.frames
  rw [hshapes] at horder hframes
  refine ⟨h.base,h.top,?_,?_,h.loops⟩
  · intro s hs
    rcases mem_cons.mp hs with rfl | hs
    · exact hslots
    · exact hframes s (mem_cons_of_mem _ hs)
  · refine pairwise_cons.mpr ⟨fun s hs => ?_,(pairwise_cons.mp horder).2⟩
    have hle := (pairwise_cons.mp horder).1 s hs
    have : g.shape.addr = f.shape.addr := haddr
    rw [this]
    exact hle

theorem Framed.push {k k' : CallStack} {a : Activation} (h : Framed k)
    (ha : a.temps.length = a.argCount + a.localCount) (hk : framePush k a = some k') :
    Framed k' := by
  unfold framePush at hk
  dsimp only at hk
  split at hk
  · obtain rfl := Option.some.inj hk
    have hsp := h.sp_mod
    have htop := h.top
    have hmax : max k.top k.sp % 8 = 0 := by
      rcases Nat.le_total k.top k.sp with hle | hle
      · rwa [Nat.max_eq_right hle]
      · rwa [Nat.max_eq_left hle]
    refine ⟨h.base,?_,?_,?_,h.loops⟩
    · simp only [frameByteSize,frameHeaderSize]
      omega
    · intro s hs
      rcases mem_cons.mp hs with rfl | hs
      · exact ⟨ha,hmax⟩
      · exact h.frames s hs
    · refine pairwise_cons.mpr ⟨fun s hs => ?_,h.order⟩
      exact Nat.le_trans (h.below_sp hs) (Nat.le_max_right _ _)
  · cases hk

theorem Framed.popTo {k : CallStack} {fs : List Frame} {top : Nat} (h : Framed k)
    (hfs : fs <:+ k.frames) (htop : top % 8 = 0) : Framed { k with top := top,frames := fs } := by
  have hsub : ((fs ++ k.outer.flatten).map Frame.shape).Sublist k.shapes :=
    (hfs.sublist.append (List.Sublist.refl _)).map _
  exact ⟨h.base,htop,fun s hs => h.frames s (hsub.subset hs),h.order.sublist hsub,h.loops⟩

variable {ω : Type} {env : Env ω} {mode : LoopMode}

/-- Words of the frames may differ, their places do not. -/
structure SameShapes (k k' : CallStack) : Prop where
  base : k'.base = k.base
  top : k'.top = k.top
  outer : k'.outer.map (List.map Frame.shape) = k.outer.map (List.map Frame.shape)
  frames : k'.frames.map Frame.shape = k.frames.map Frame.shape

theorem SameShapes.framed {k k' : CallStack} (h : SameShapes k k') (hk : Framed k) : Framed k' := by
  refine hk.of_shapes h.base (h.top ▸ hk.top) ?_ (fun c hc hnil => ?_)
  · simp only [CallStack.shapes,CallStack.chain,map_append,map_flatten,h.frames,h.outer]
  · have hmem : ([] : List FrameShape) ∈ k'.outer.map (List.map Frame.shape) :=
      List.mem_map.mpr ⟨c,hc,by simp [hnil]⟩
    rw [h.outer] at hmem
    obtain ⟨d,hd,hdnil⟩ := List.mem_map.mp hmem
    exact hk.loops d hd (map_eq_nil_iff.mp hdnil)

/-- Primitives at most rewrite words of the frames, and the loops they start have ended when they
return. -/
def KeepsFrames (env : Env ω) : Prop :=
  ∀ i p,env.primitives i = some p → ∀ e args,
    match p e args with
    | .success _ e' | .failure _ e' => SameShapes e.stack e'.stack
    | .unwound _ | .aborted => True

/-! ### One step -/

theorem Framed.setLocals {e : Exec ω} (h : Framed e.stack) {f : Frame} {fs : List Frame}
    (hf : e.stack.frames = f :: fs) {l : Locals} (hl : l.temps.length = f.act.temps.length)
    (w : World ω) : Framed (e.setLocals l w).stack := by
  have hslots := h.frames f.shape (by simp [CallStack.shapes,chain_cons hf])
  have hstack : (e.setLocals l w).stack =
      { e.stack with frames := ⟨f.addr,{ f.act with toLocals := l }⟩ :: fs } := by
    simp [Exec.setLocals,CallStack.setAct,hf]
  rw [hstack]
  exact h.setInner hf rfl ⟨hl.trans hslots.slots,hslots.aligned⟩

theorem Framed.pushValue {e : Exec ω} (h : Framed e.stack) (v : Oop) :
    Framed (e.pushValue v).stack := by
  cases hf : e.stack.frames with
  | nil => simpa [Exec.pushValue,hf] using h
  | cons f fs =>
    rw [pushValue_cons hf]
    exact h.setLocals hf (l := f.act.toLocals.push v) rfl _

theorem Framed.advance {e : Exec ω} (h : Framed e.stack) (n : Nat) :
    Framed (e.advance n).stack := by
  cases hf : e.stack.frames with
  | nil => simpa [Exec.advance,hf] using h
  | cons f fs =>
    simp only [Exec.advance,hf]
    exact h.setLocals hf (l := f.act.toLocals.advance n) rfl _

theorem setTemp_temps {l l' : Locals} {i : Nat} {v : Oop} (h : l.setTemp i v = .ok l') :
    l'.temps.length = l.temps.length := by
  unfold Locals.setTemp at h
  split at h
  · cases h
    exact length_set
  · cases h

theorem setTemps_temps {vs : List Oop} : ∀ {l l' : Locals} {i : Nat},
    l.setTemps i vs = .ok l' → l'.temps.length = l.temps.length := by
  induction vs with
  | nil =>
    intro l l' i h
    cases h
    rfl
  | cons v vs ih =>
    intro l l' i h
    obtain ⟨l₁,h₁,h⟩ := bind_ok h
    exact (ih h).trans (setTemp_temps h₁)

theorem storeSlot_temps {ptr : SlotPtr} {l l' : Locals} {w w' : World ω} {i v : Nat}
    (h : storeSlot ptr l w i v = .ok (l',w')) : l'.temps.length = l.temps.length := by
  unfold storeSlot at h
  split at h
  · obtain ⟨x,hx,h⟩ := bind_ok h
    cases h
    exact setTemp_temps hx
  · obtain ⟨x,hx,h⟩ := bind_ok h
    cases h
    rfl

theorem storeSlots_temps {ptr : SlotPtr} {l l' : Locals} {w w' : World ω} {i : Nat}
    {vs : List Oop} (h : storeSlots ptr l w i vs = .ok (l',w')) :
    l'.temps.length = l.temps.length := by
  unfold storeSlots at h
  split at h
  · obtain ⟨x,hx,h⟩ := bind_ok h
    cases h
    exact setTemps_temps hx
  · obtain ⟨x,hx,h⟩ := bind_ok h
    cases h
    rfl

theorem pop_temps {l l' : Locals} {v : Oop} (h : l.pop = .ok (v,l')) : l'.temps = l.temps := by
  unfold Locals.pop at h
  split at h <;> cases h
  rfl

theorem noteFailure_temps {failure : Option Nat} {m n : Nat} {ptr : SlotPtr} {l l' : Locals}
    {w w' : World ω} (h : noteFailure failure m n ptr l w = .ok (l',w')) :
    l'.temps.length = l.temps.length := by
  unfold noteFailure at h
  split at h
  · split at h
    · exact storeSlot_temps h
    · cases h
      rfl
  · cases h
    rfl

theorem condJump_temps {op : Opcode} {on off : Oop} {insn : Insn} {l l' : Locals}
    (h : condJump op on off insn l = .ok l') : l'.temps.length = l.temps.length := by
  obtain ⟨⟨v,l₁⟩,hpop,h⟩ := bind_ok h
  dsimp only at h
  have hl₁ := congrArg List.length (pop_temps hpop)
  split at h
  · cases h
    exact hl₁
  · split at h
    · cases h
      exact hl₁
    · cases h

theorem copyBlock_temps {extra : List Oop} {cm : CompiledMethod} {insn : Insn} {a : Activation}
    {w w' : World ω} {l : Locals} (h : copyBlock extra cm insn a w = .ok (l,w')) :
    l.temps.length = a.temps.length := by
  unfold copyBlock at h
  obtain ⟨_,-,h⟩ := bind_ok h
  obtain ⟨_,-,h⟩ := bind_ok h
  obtain ⟨_,-,h⟩ := bind_ok h
  obtain ⟨_,-,h⟩ := bind_ok h
  obtain ⟨_,-,h⟩ := bind_ok h
  split at h
  · cases h
  · obtain ⟨w₂,hw₂,h⟩ := bind_ok h
    cases h
    rfl

theorem localStep_temps {ptr : SlotPtr} {cm : CompiledMethod} {insn : Insn} {a : Activation}
    {w w' : World ω} {l : Locals} (h : localStep env ptr cm insn a w = .ok (l,w')) :
    l.temps.length = a.temps.length := by
  have popped : ∀ {v l₁},a.toLocals.pop = .ok (v,l₁) → l₁.temps.length = a.temps.length :=
    fun h => congrArg List.length (pop_temps h)
  unfold localStep at h
  dsimp only at h
  split at h
  all_goals first
    | exact copyBlock_temps h
    | (cases h; done)
    | (cases h; rfl)
    | skip
  -- the other branches take a value, then store it or jump on it
  all_goals obtain ⟨_,hx,h⟩ := bind_ok h
  all_goals first
    | (cases h; rfl)
    | (cases h; have hp := condJump_temps hx; exact hp)
    | (cases h; have hp := popped hx; exact hp)
    | obtain ⟨_,hy,h⟩ := bind_ok h
  all_goals first
    | (cases h; rfl)
    | (cases h; have hp := storeSlot_temps hy; exact hp)
    | (cases h; have hp := (storeSlot_temps hy).trans (popped hx); exact hp)
    | (cases h; have hp := popped hx; exact hp)
    | obtain ⟨_,hz,h⟩ := bind_ok h
  all_goals first
    | (cases h; rfl)
    | (cases h; have hp := popped hy; exact hp)

theorem newActivation_slots (nilOop header method receiver : Oop) (args : List Oop) :
    (newActivation nilOop header method receiver args).temps.length =
      (newActivation nilOop header method receiver args).argCount +
        (newActivation nilOop header method receiver args).localCount := by
  simp [newActivation]

/-- The activation a frame is filled in with has the slots it was pushed with. -/
structure FillsIn (a a' : Activation) : Prop where
  temps : a'.temps.length = a.temps.length
  args : a'.argCount = a.argCount
  locals : a'.localCount = a.localCount

theorem startActivation_fillsIn {c : Call} {failure : Option Nat} {a a' : Activation}
    {w w' : World ω} (h : startActivation c failure a w = .ok (a',w')) : FillsIn a a' := by
  obtain ⟨⟨l,w₁⟩,hnote,h⟩ := bind_ok h
  cases h
  have htemps := noteFailure_temps hnote
  exact ⟨htemps,rfl,rfl⟩

theorem giveContext_fillsIn {a a' : Activation} {size : Nat} {w w' : World ω}
    (h : giveContext a size w = .ok (a',w')) : FillsIn a a' := by
  unfold giveContext at h
  split at h
  · cases h
  · split at h
    · cases h
    · obtain ⟨w₁,-,h⟩ := bind_ok h
      cases h
      exact ⟨rfl,rfl,rfl⟩

theorem FillsIn.trans {a b c : Activation} (h : FillsIn a b) (h' : FillsIn b c) : FillsIn a c :=
  ⟨h'.temps.trans h.temps,h'.args.trans h.args,h'.locals.trans h.locals⟩

theorem pushedActivation_fillsIn {w w' : World ω} {c : Call} {failure : Option Nat}
    {a : Activation} (h : pushedActivation env w c failure = .ok (a,w')) :
    FillsIn (newActivation env.nilOop c.code.header c.method c.receiver c.args) a := by
  unfold pushedActivation at h
  dsimp only at h
  split at h
  · obtain ⟨⟨a₁,w₁⟩,hgive,h⟩ := bind_ok h
    exact (giveContext_fillsIn hgive).trans (startActivation_fillsIn h)
  · exact startActivation_fillsIn h

theorem Framed.enterFrame {m m' : Machine ω} {a : Activation} {full : Fatal}
    {start : Except Fault (Activation × World ω)} (hm : Framed m.exec.stack)
    (ha : a.temps.length = a.argCount + a.localCount)
    (hstart : ∀ a' w,start = .ok (a',w) → FillsIn a a')
    (h : enterFrame m a full start = .ok m') : Framed m'.exec.stack := by
  unfold SmalltalkA.enterFrame at h
  cases hk : framePush m.exec.stack a with
  | none =>
    rw [hk] at h
    cases h
  | some k =>
    rw [hk] at h
    obtain ⟨⟨a',w⟩,hs,h⟩ := bind_ok h
    have hfill := hstart a' w hs
    have hframed := hm.push ha hk
    obtain ⟨addr,top,rfl⟩ := framePush_some hk
    cases h
    have hshape := hframed.frames (Frame.shape ⟨addr,a⟩) mem_cons_self
    have hslots : a'.temps.length = a'.argCount + a'.localCount := by
      rw [hfill.temps,hfill.args,hfill.locals,ha]
    exact hframed.setInner rfl rfl ⟨hslots,hshape.aligned⟩

theorem Framed.activate {m m' : Machine ω} {c : Call} {failure : Option Nat}
    (hm : Framed m.exec.stack) (h : activate env mode m c failure = .ok m') :
    Framed m'.exec.stack := by
  unfold SmalltalkA.activate at h
  split at h
  · unfold reuseFrame at h
    cases hf : m.exec.stack.frames with
    | nil =>
      rw [hf] at h
      cases h
    | cons f fs =>
      rw [hf] at h
      obtain ⟨⟨a,w⟩,ha,h⟩ := bind_ok h
      have hfill := startActivation_fillsIn ha
      cases h
      have hshape := hm.frames f.shape (by simp [CallStack.shapes,chain_cons hf])
      have hslots : a.temps.length = a.argCount + a.localCount := by
        rw [hfill.temps,hfill.args,hfill.locals]
        simp [reusedActivation]
      have hstack : m.exec.stack.setAct a = { m.exec.stack with frames := ⟨f.addr,a⟩ :: fs } := by
        simp [CallStack.setAct,hf]
      show Framed (m.exec.stack.setAct a)
      rw [hstack]
      exact hm.setInner hf rfl ⟨hslots,hshape.aligned⟩
  · exact hm.enterFrame (newActivation_slots _ _ _ _ _)
      (fun a w ha => pushedActivation_fillsIn ha) h

theorem Framed.activateBlock {m m' : Machine ω} {b : Closure} {args : List Oop}
    (hm : Framed m.exec.stack) (h : activateBlock env m b args = .ok m') :
    Framed m'.exec.stack := by
  obtain ⟨home,-,h⟩ := bind_ok h
  have hslots := newActivation_slots env.nilOop home.header b.method b.receiver []
  refine Framed.enterFrame (a := blockActivation env home b) hm hslots (fun a w hs => ?_) h
  obtain ⟨⟨l,w₁⟩,hstore,hs⟩ := bind_ok hs
  cases hs
  have htemps := storeSlots_temps hstore
  exact ⟨htemps,rfl,rfl⟩

theorem Framed.doReturn {m m' : Machine ω} {v : Oop} (hm : Framed m.exec.stack)
    (h : doReturn m v = .ok m') : Framed m'.exec.stack := by
  cases hf : m.exec.stack.frames with
  | nil => simp [SmalltalkA.doReturn,framePop,hf] at h
  | cons f fs =>
    cases fs with
    | nil =>
      rw [doReturn_last hf] at h
      cases h
    | cons g rest =>
      rw [doReturn_cons hf] at h
      cases h
      have hshape := hm.frames f.shape (by simp [CallStack.shapes,chain_cons hf])
      have hg := hm.frames g.shape (by simp [CallStack.shapes,chain_cons hf])
      have hsuffix : g :: rest <:+ m.exec.stack.frames := hf ▸ suffix_cons _ _
      have hpopped := hm.popTo hsuffix hshape.aligned
      exact hpopped.setInner rfl rfl ⟨hg.slots,hg.aligned⟩

theorem Framed.performCall (hprim : KeepsFrames env) {m m' : Machine ω} {c : Call}
    (hm : Framed m.exec.stack) (h : performCall env mode m c = .ok m') : Framed m'.exec.stack := by
  unfold SmalltalkA.performCall at h
  split at h
  · obtain ⟨isBlock,-,h⟩ := bind_ok h
    split at h
    · obtain ⟨b,-,h⟩ := bind_ok (liftFault_ok h)
      exact hm.activateBlock h
    · split at h
      · next p hp =>
        have hkeeps := hprim (calleePrimitive c.code) p (by
          unfold findPrimitive at hp
          split at hp
          · exact hp
          · cases hp) m.exec (c.receiver :: c.args)
        cases hr : p m.exec (c.receiver :: c.args) with
        | success v e =>
          rw [hr] at h hkeeps
          cases h
          exact (hkeeps.framed hm).pushValue v
        | failure code e =>
          rw [hr] at h hkeeps
          simp only [afterPrimitive] at h
          split at h
          · cases h
          · exact Framed.activate (m := { m with exec := e }) (hkeeps.framed hm) (liftFault_ok h)
        | unwound e | aborted =>
          rw [hr] at h
          cases h
      · exact hm.activate (liftFault_ok h)
  · exact hm.activate (liftFault_ok h)

theorem Framed.runPrimitive (hprim : KeepsFrames env) {m m' : Machine ω} {insn : Insn}
    {a : Activation} (hm : Framed m.exec.stack) (h : runPrimitive env mode m insn a = .ok m') :
    Framed m'.exec.stack := by
  unfold SmalltalkA.runPrimitive at h
  cases hp : findPrimitive env insn.operand with
  | none =>
    rw [hp] at h
    cases h
    exact hm.advance _
  | some p =>
    rw [hp] at h
    obtain ⟨args,-,h⟩ := bind_ok h
    have hkeeps := hprim insn.operand p (by
      unfold findPrimitive at hp
      split at hp
      · exact hp
      · cases hp) m.exec args
    cases hr : p m.exec args with
    | success v e =>
      rw [hr] at h hkeeps
      cases h
      exact ((hkeeps.framed hm).pushValue v).advance _
    | failure code e =>
      rw [hr] at h hkeeps
      simp only [afterPrimitiveInsn] at h
      split at h
      · cases h
      · split at h
        · next f fs hf =>
          obtain ⟨⟨l,w⟩,hnote,h⟩ := bind_ok h
          cases h
          exact ((hkeeps.framed hm).setLocals hf (noteFailure_temps (liftFault_ok hnote)) w).advance _
        · cases h
    | unwound e | aborted =>
      rw [hr] at h
      cases h

theorem prepareSend_temps {isSuper : Bool} {cm : CompiledMethod} {insn : Insn} {a : Activation}
    {w w' : World ω} {c : Call} {l : Locals}
    (h : prepareSend env isSuper cm insn a w = .ok (c,l,w')) :
    l.temps.length = a.temps.length := by
  obtain ⟨selector,-,h⟩ := bind_ok h
  obtain ⟨⟨args,l₁⟩,hargs,h⟩ := bind_ok h
  obtain ⟨⟨receiver,l₂⟩,hpop,h⟩ := bind_ok h
  obtain ⟨⟨found,args',w₁⟩,-,h⟩ := bind_ok h
  obtain ⟨code,-,h⟩ := bind_ok h
  cases h
  have hl₁ : l₁.temps = a.temps := by
    unfold Locals.popArgs at hargs
    split at hargs <;> cases hargs
    rfl
  exact congrArg List.length ((pop_temps hpop).trans hl₁)

theorem step_framed (hprim : KeepsFrames env) {m m' : Machine ω} (hm : Framed m.exec.stack)
    (h : step env mode m = .ok m') : Framed m'.exec.stack := by
  obtain ⟨f,fs,cm,hf,hcm,h⟩ := step_ok h
  have stays : ∀ {m₁ : Machine ω},stayStep env m cm (decodeInsn cm.bytecodes f.act.pc) f.act =
      .ok m₁ → Framed m₁.exec.stack := by
    intro m₁ hstay
    obtain ⟨⟨l,w⟩,hl,hstay⟩ := bind_ok hstay
    cases hstay
    exact hm.setLocals hf (localStep_temps (liftFault_ok hl)) w
  unfold dispatch at h
  dsimp only at h
  split at h
  · obtain ⟨m₁,hm₁,h⟩ := bind_ok h
    obtain ⟨r,rfl⟩ := chargeReduction_ok hm₁
    obtain ⟨⟨c,l,w⟩,hc,h⟩ := bind_ok h
    exact Framed.performCall hprim (hm.setLocals hf (prepareSend_temps (liftFault_ok hc)) w) h
  · obtain ⟨v,-,h⟩ := bind_ok h
    exact hm.doReturn h
  · obtain ⟨⟨v,l⟩,-,h⟩ := bind_ok h
    dsimp only at h
    split at h
    · exact absurd h blockCannotReturn_stops
    · next home rest hhome =>
      have hsuffix : home :: rest <:+ m.exec.stack.frames := by
        rw [hf]
        exact (hhome ▸ findHome_suffix f.act.context fs).trans (suffix_cons _ _)
      have hshape := hm.frames home.shape (by
        refine List.mem_map_of_mem (mem_append_left _ ?_)
        exact hsuffix.subset mem_cons_self)
      exact Framed.doReturn (m := m.setStack { m.exec.stack with
        top := home.addr,frames := home :: rest }) (hm.popTo hsuffix hshape.aligned) h
  · exact hm.runPrimitive hprim h
  · obtain ⟨m₁,hm₁,h⟩ := bind_ok h
    obtain ⟨r,rfl⟩ := chargeReduction_ok h
    have hframed := stays hm₁
    exact hframed
  · exact stays h

theorem run_framed (hprim : KeepsFrames env) {e : Exec ω} (he : Framed e.stack) {u : Machine ω}
    (hu : Reaches (step env mode) (enterLoop e) u) : Framed u.exec.stack := by
  refine Reaches.invariant (I := fun v => Framed v.exec.stack)
    (fun v v' _ hv hstep => step_framed hprim hv hstep) ?_ hu
  rwa [enterLoop_exec]

/-! ## What the walk covers -/

theorem mem_wordsBetween {a b x : Nat} (hb : (b - a) % 8 = 0) :
    x ∈ wordsBetween a b ↔ a ≤ x ∧ x < b ∧ (x - a) % 8 = 0 := by
  simp only [wordsBetween,List.mem_map,mem_range]
  constructor
  · rintro ⟨i,hi,rfl⟩
    omega
  · rintro ⟨hlo,hhi,hmod⟩
    exact ⟨(x - a) / 8,by omega,by omega⟩

theorem Frame.stackBase_le (f : Frame) (h : f.shape.Ok) :
    f.addr + frameHeaderSize ≤ f.stackBase ∧ f.stackBase ≤ f.sp ∧ (f.sp - f.stackBase) % 8 = 0 := by
  have hslots : f.act.temps.length = f.act.argCount + f.act.localCount := h.slots
  simp only [Frame.stackBase,Frame.sp,hslots]
  omega

theorem livePlaces_bounds {f : Frame} (h : f.shape.Ok) {x : Nat} (hx : x ∈ f.livePlaces) :
    f.addr ≤ x ∧ x < f.sp ∧ x ≠ f.addr + 16 := by
  obtain ⟨hbase,hsp,hmod⟩ := f.stackBase_le h
  have hslots : (f.stackBase - (f.addr + frameHeaderSize)) % 8 = 0 := by
    simp only [Frame.stackBase]
    omega
  simp only [frameHeaderSize] at hbase hslots
  simp only [Frame.livePlaces,Frame.fieldPlaces,mem_append,frameHeaderSize,
    mem_wordsBetween hslots,mem_wordsBetween hmod] at hx
  rcases hx with ((hx | hx) | hx) | hx
  · simp only [mem_cons,not_mem_nil,or_false] at hx
    omega
  · split at hx
    · simp only [mem_singleton] at hx
      omega
    · cases hx
  · omega
  · omega

theorem sender_not_live {f : Frame} (h : f.shape.Ok) : f.addr + 16 ∉ f.livePlaces :=
  fun hx => (livePlaces_bounds h hx).2.2 rfl

theorem bottom_walked {k : CallStack} {f b : Frame} {fs : List Frame} {x : Nat}
    (hlast : (f :: fs).getLast? = some b) (hx : x ∈ wordsBetween b.stackBase k.sp) :
    x ∈ frameGcRoots k (f :: fs) := by
  induction fs generalizing f with
  | nil =>
    obtain rfl : f = b := by simpa using hlast
    simp [frameGcRoots,walksStack,hx]
  | cons g gs ih =>
    have := ih (f := g) (by simpa using hlast)
    simp only [frameGcRoots,mem_append] at this ⊢
    exact .inr this

theorem walked_above {k : CallStack} {low : Nat} {fs : List Frame}
    (h : ∀ f ∈ fs,low ≤ f.addr ∧ f.shape.Ok) {x : Nat} (hx : x ∈ frameGcRoots k fs) :
    low ≤ x := by
  induction fs with
  | nil => cases hx
  | cons f fs ih =>
    obtain ⟨⟨hlow,hok⟩,hfs⟩ := forall_mem_cons.mp h
    obtain ⟨hbase,hsp,hmod⟩ := f.stackBase_le hok
    simp only [frameGcRoots,mem_append] at hx
    rcases hx with (hx | hx) | hx
    · have := livePlaces_bounds hok (mem_append_left _ hx)
      omega
    · split at hx
      · simp only [wordsBetween,List.mem_map,mem_range] at hx
        obtain ⟨i,-,rfl⟩ := hx
        omega
      · cases hx
    · exact ih hfs hx

theorem Framed.shape_ok {k : CallStack} (h : Framed k) {f : Frame} (hf : f ∈ k.chain) :
    f.shape.Ok := h.frames _ (List.mem_map_of_mem hf)

theorem two_frames_not_exact {k : CallStack} (h : Framed k) {f g : Frame} {fs : List Frame}
    (hf : k.frames = f :: g :: fs) : ¬ RootsExact k := by
  intro hexact
  have hchain := chain_cons hf
  have hok := h.shape_ok (f := f) (by simp [hchain])
  -- the place lies in the range of the bottom frame
  have hwalked : f.addr + 16 ∈ frameGcRoots k k.frames := by
    obtain ⟨bottom,hlast⟩ : ∃ b,(g :: fs).getLast? = some b :=
      ⟨_,getLast?_eq_some_getLast (by simp)⟩
    have hmem : bottom ∈ g :: fs := mem_of_getLast? hlast
    have hbottom := h.shape_ok (f := bottom) (by
      rw [hchain]
      exact mem_cons_of_mem _ (mem_append_left _ hmem))
    have hbelow : bottom.shape.sp ≤ f.shape.addr := by
      have horder := h.order
      rw [CallStack.shapes,hchain,map_cons] at horder
      exact (pairwise_cons.mp horder).1 _ (List.mem_map_of_mem (mem_append_left _ hmem))
    rw [hf]
    refine bottom_walked (b := bottom) (by simpa using hlast) ?_
    have hsp : k.sp = f.sp := by simp [CallStack.sp,hf]
    obtain ⟨hb,hbsp,hbmod⟩ := bottom.stackBase_le hbottom
    obtain ⟨hfb,hfsp,-⟩ := f.stackBase_le hok
    have hfa := hok.aligned
    have hba := hbottom.aligned
    have hmod := h.sp_mod
    have hlow : bottom.sp ≤ f.addr := hbelow
    simp only [frameHeaderSize] at hfb hb
    have hfa : f.addr % 8 = 0 := hfa
    have hba : bottom.addr % 8 = 0 := hba
    have hbb : bottom.stackBase % 8 = 0 := by
      simp only [Frame.stackBase,frameHeaderSize]
      omega
    rw [mem_wordsBetween (by omega)]
    omega
  have hlive := (hexact _).mp hwalked
  obtain ⟨g',hg',hx⟩ := mem_flatMap.mp hlive
  rw [hchain] at hg'
  rcases mem_cons.mp hg' with rfl | hg'
  · exact sender_not_live hok hx
  · have hbounds := livePlaces_bounds (h.shape_ok (f := g') (by
      rw [hchain]
      exact mem_cons_of_mem _ hg')) hx
    have horder := h.order
    rw [CallStack.shapes,hchain,map_cons] at horder
    have hle : g'.sp ≤ f.addr := (pairwise_cons.mp horder).1 _ (List.mem_map_of_mem hg')
    omega

theorem outer_not_exact {k : CallStack} (h : Framed k) (houter : k.outer ≠ []) :
    ¬ RootsExact k := by
  intro hexact
  obtain ⟨c,cs,ho⟩ := exists_cons_of_ne_nil houter
  obtain ⟨g,gs,rfl⟩ := exists_cons_of_ne_nil (h.loops c (by simp [ho]))
  have hg : g ∈ k.chain := by simp [CallStack.chain,ho]
  have hlive : g.addr ∈ livePlaces k :=
    mem_flatMap.mpr ⟨g,hg,by simp [Frame.livePlaces,Frame.fieldPlaces]⟩
  have hwalked := (hexact _).mpr hlive
  have hgok := h.shape_ok hg
  have habove : ∀ f ∈ k.frames,g.sp ≤ f.addr ∧ f.shape.Ok := by
    intro f hf
    refine ⟨?_,h.shape_ok (mem_append_left _ hf)⟩
    have horder := h.order
    simp only [CallStack.shapes,CallStack.chain,map_append] at horder
    exact (pairwise_append.mp horder).2.2 _ (List.mem_map_of_mem hf) _
      (List.mem_map_of_mem (by simp [ho]))
  have hle := walked_above habove hwalked
  obtain ⟨hb,hsp,-⟩ := g.stackBase_le hgok
  simp only [frameHeaderSize] at hb
  omega

theorem single_exact {k : CallStack} {f : Frame} (hf : k.frames = [f]) (ho : k.outer = []) :
    RootsExact k := by
  intro a
  simp [frameGcRoots,walksStack,livePlaces,CallStack.chain,CallStack.sp,Frame.livePlaces,hf,ho]

end

def walksBeyond (k : CallStack) : Bool :=
  (frameGcRoots k k.frames).any (fun a => !(livePlaces k).contains a)

theorem walksBeyond_not_exact {k : CallStack} (h : walksBeyond k = true) : ¬ RootsExact k := by
  intro hexact
  obtain ⟨a,hwalked,hlive⟩ := List.any_eq_true.mp h
  simp only [contains_eq_mem,Bool.not_eq_true',decide_eq_false_iff_not] at hlive
  exact hlive ((hexact a).mp hwalked)

end SmalltalkA
