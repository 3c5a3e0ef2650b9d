import SmalltalkA.Compiler.Codegen
import SmalltalkA.Interpreter.HomeReturn

/-! What the interpreter does to the variables of block activations, as events of `Variables`.
Activations that overlap in the shared context destroy each other's variables. -/

set_option autoImplicit false

namespace SmalltalkA

open List

section

variable {ω : Type}

def contextsOf (fs : List Frame) : List Oop :=
  (fs.map (·.act.context)).filter (fun c => c ≠ 0)

def CallStack.contexts (k : CallStack) : List Oop := contextsOf k.allFrames

structure Tracks (s : Storage) (k : CallStack) (mem : Memory) : Prop where
  live : s.live.map LiveBlock.ctx = k.contexts
  slots : s.slots = mem.slot

/-- Closures are activated with the layout of their block, methods with that of their body. -/
def VarEvent.From (block : Closure → BlockInfo) (home : Oop → BlockInfo) : VarEvent → Prop
  | .activate ctx b _ => ∃ c,b = block c ∧ ctx = c.context
  | .enter _ b => ∃ method,b = home method
  | _ => True

def EventStep (block : Closure → BlockInfo) (home : Oop → BlockInfo) (s s' : Storage) : Prop :=
  ∃ ev,VarEvent.From block home ev ∧ StorageStep ev s s'

def Follows (block : Closure → BlockInfo) (home : Oop → BlockInfo) (s : Storage) (k : CallStack)
    (mem : Memory) : Prop :=
  ∃ s',Relation.ReflTransGen (EventStep block home) s s' ∧ Tracks s' k mem

/-! ### What must not touch the contexts -/

/-- A primitive leaves the contexts where they are and as they are. -/
structure KeepsContexts (e e' : Exec ω) : Prop where
  contexts : e'.stack.contexts = e.stack.contexts
  current : e'.context = e.context
  slots : ∀ c ∈ e.stack.contexts,e'.world.mem.slot c = e.world.mem.slot c
  frontier : e.world.heap.frontier ≤ e'.world.heap.frontier

def PrimResult.Keeps (e : Exec ω) : PrimResult ω → Prop
  | .success _ e' | .failure _ e' => KeepsContexts e e'
  | _ => True

variable (env : Env ω)

/-- No instruction stores into a context through the receiver or a global, and no primitive that is
called changes one. -/
def stepKeepsContexts (m : Machine ω) : Prop :=
  match m.exec.stack.frames with
  | [] => True
  | f :: _ => f.act.receiver ∉ m.exec.stack.contexts ∧
    ∀ cm,env.methods f.act.method = some cm →
      (∀ lit ∈ cm.literals,lit ∉ m.exec.stack.contexts) ∧
      let insn := decodeInsn cm.bytecodes f.act.pc
      match control (Opcode.ofCode insn.opcode) with
      | .send isSuper => ∀ c l w,prepareSend env isSuper cm insn f.act m.exec.world = .ok (c,l,w) →
          ∀ p,findPrimitive env (calleePrimitive c.code) = some p →
            (p (m.exec.setLocals l w) (c.receiver :: c.args)).Keeps (m.exec.setLocals l w)
      | .primitive => ∀ p args,findPrimitive env insn.operand = some p →
          primitiveArgs m.slots f.act m.exec.world = .ok args → (p m.exec args).Keeps m.exec
      | _ => True

def Exec.contextsBelow (e : Exec ω) : Prop :=
  ∀ c ∈ e.stack.contexts,c < e.world.heap.frontier

variable {env}

/-! ### Contexts of a slab -/

@[simp] theorem contextsOf_append (fs gs : List Frame) :
    contextsOf (fs ++ gs) = contextsOf fs ++ contextsOf gs := by
  simp [contextsOf]

theorem contextsOf_cons (f : Frame) (fs : List Frame) : contextsOf (f :: fs) =
      if f.act.context = 0 then contextsOf fs else f.act.context :: contextsOf fs := by
  by_cases h : f.act.context = 0 <;> simp [contextsOf,h]

variable {fs : List Frame} {o n : Nat} {w w' : World ω} {cm : CompiledMethod}

theorem contextsOf_sublist {gs : List Frame} (h : fs.Sublist gs) :
    (contextsOf fs).Sublist (contextsOf gs) :=
  (h.map _).filter _

theorem contexts_setAct {k : CallStack} {f : Frame} (hf : k.frames = f :: fs) (a : Activation) :
    (k.setAct a).contexts =
      if a.context = 0 then contextsOf (fs ++ k.outer.flatten)
      else a.context :: contextsOf (fs ++ k.outer.flatten) := by
  simp only [CallStack.contexts,CallStack.allFrames,CallStack.setAct,hf]
  exact contextsOf_cons _ _

theorem contexts_cons {k : CallStack} {f : Frame} (hf : k.frames = f :: fs) :
    k.contexts = if f.act.context = 0 then contextsOf (fs ++ k.outer.flatten)
      else f.act.context :: contextsOf (fs ++ k.outer.flatten) := by
  simp only [CallStack.contexts,CallStack.allFrames,hf]
  exact contextsOf_cons _ _

theorem contexts_setLocals (e : Exec ω) (l : Locals) (w : World ω) :
    (e.setLocals l w).stack.contexts = e.stack.contexts := by
  unfold Exec.setLocals
  split
  · next f fs hf => rw [contexts_cons hf,contexts_setAct hf]
  · rfl

theorem contexts_pushValue (e : Exec ω) (v : Oop) :
    (e.pushValue v).stack.contexts = e.stack.contexts := by
  unfold Exec.pushValue
  split
  · exact contexts_setLocals _ _ _
  · rfl

theorem contexts_advance (e : Exec ω) (n : Nat) :
    (e.advance n).stack.contexts = e.stack.contexts := by
  unfold Exec.advance
  split
  · exact contexts_setLocals _ _ _
  · rfl

/-! ### Slots of the memory -/

def SameBelow (n : Nat) (w w' : World ω) : Prop := ∀ c,c < n → w'.mem.slot c = w.mem.slot c

theorem SameBelow.refl (n : Nat) (w : World ω) : SameBelow n w w := fun _ _ => rfl

theorem SameBelow.trans {w₁ w₂ : World ω} (h : SameBelow n w w₁) (h' : SameBelow n w₁ w₂) :
    SameBelow n w w₂ :=
  fun c hc => (h' c hc).trans (h c hc)

/-- An instruction does nothing to the contexts `cs`, or assigns to a slot of its activation's own.
-/
def LocalEffect (cs : List Oop) (a : Activation) (w w' : World ω) : Prop :=
  (∀ c ∈ cs,w'.mem.slot c = w.mem.slot c) ∨
    a.context ≠ 0 ∧ ∃ i v,w'.mem.slot = writeSlots w.mem.slot a.context i [v]

section

variable {cs : List Oop} {a : Activation} {w w' : World ω}

theorem LocalEffect.same (h : w' = w) : LocalEffect cs a w w' := .inl (fun _ _ => by rw [h])

variable {i v : Nat} {l : Locals}

theorem setSlot_effect {o : Nat} (h : w.setSlot o i v = .ok w') (ho : o ∉ cs) :
    LocalEffect cs a w w' := by
  refine .inl (fun c hc => funext (fun j => ?_))
  rw [setSlot_slots h]
  exact writeSlots_outside (fun heq => absurd (heq ▸ hc) ho)

theorem storeSlot_effect {l' : Locals} (h : storeSlot (effectiveSlots a) l w i v = .ok (l',w')) :
    LocalEffect cs a w w' := by
  unfold effectiveSlots at h
  split at h
  · obtain ⟨x,-,h⟩ := bind_ok h
    cases h
    exact .same rfl
  · next hctx =>
    obtain ⟨x,hx,h⟩ := bind_ok h
    cases h
    exact .inr ⟨hctx,i,v,setSlot_slots hx⟩

theorem outerContext_ok {depth ctx : Nat} (h : outerContext a depth = .ok ctx) :
    ctx = a.context ∧ a.context ≠ 0 := by
  unfold outerContext at h
  split at h
  · next hctx =>
    cases h
    exact ⟨rfl,hctx⟩
  · split at h <;> cases h

theorem setOuter_effect {depth ctx : Nat} (hctx : outerContext a depth = .ok ctx)
    (h : w.setSlot ctx i v = .ok w') : LocalEffect cs a w w' := by
  obtain ⟨rfl,hne⟩ := outerContext_ok hctx
  exact .inr ⟨hne,i,v,setSlot_slots h⟩

theorem noteFailure_effect {failure : Option Nat} {argCount localCount : Nat} {l' : Locals}
    (h : noteFailure failure argCount localCount (effectiveSlots a) l w = .ok (l',w')) :
    LocalEffect cs a w w' := by
  unfold noteFailure at h
  split at h
  · split at h
    · exact storeSlot_effect h
    · cases h
      exact .same rfl
  · cases h
    exact .same rfl

theorem methodLiteral_mem {cm : CompiledMethod} {o : Nat} (h : methodLiteral cm i = .ok o) :
    o ∈ cm.literals :=
  mem_of_getElem? (defined_ok h)

theorem localStep_effect {cm : CompiledMethod} {insn : Insn} (hbelow : ∀ c ∈ cs,c < w.heap.frontier)
    (hreceiver : a.receiver ∉ cs) (hlits : ∀ lit ∈ cm.literals,lit ∉ cs)
    (h : localStep env (effectiveSlots a) cm insn a w = .ok (l,w')) : LocalEffect cs a w w' := by
  have hcopy : NewObjects w w' → LocalEffect cs a w w' :=
    fun hs => .inl (fun c hc => hs.same c (hbelow c hc))
  have hdone : ∀ {l₁ : Locals} {w₁ : World ω},LocalEffect cs a w w₁ →
      (.ok (l₁,w₁) : Except Fault _) = .ok (l,w') → LocalEffect cs a w w' := by
    rintro _ _ heffect ⟨⟩
    exact heffect
  unfold localStep at h
  dsimp only at h
  split at h
  all_goals first
    | exact hcopy (copyBlock_fresh h)
    | (cases h; done)
    | (cases h; exact .same rfl)
    | skip
  case _ => -- storeTemp
    obtain ⟨v,-,h⟩ := bind_ok h
    obtain ⟨⟨l₁,w₁⟩,hstore,h⟩ := bind_ok h
    exact hdone (storeSlot_effect hstore) h
  case _ => -- popStoreTemp
    obtain ⟨⟨v,l₁⟩,-,h⟩ := bind_ok h
    obtain ⟨⟨l₂,w₁⟩,hstore,h⟩ := bind_ok h
    exact hdone (storeSlot_effect hstore) h
  case _ => -- storeInstvar
    obtain ⟨v,-,h⟩ := bind_ok h
    obtain ⟨w₁,hstore,h⟩ := bind_ok h
    exact hdone (setSlot_effect hstore hreceiver) h
  case _ => -- popStoreInstvar
    obtain ⟨⟨v,l₁⟩,-,h⟩ := bind_ok h
    obtain ⟨w₁,hstore,h⟩ := bind_ok h
    exact hdone (setSlot_effect hstore hreceiver) h
  case _ => -- storeGlobal
    obtain ⟨assoc,hassoc,h⟩ := bind_ok h
    obtain ⟨v,-,h⟩ := bind_ok h
    obtain ⟨w₁,hstore,h⟩ := bind_ok h
    exact hdone (setSlot_effect hstore (hlits _ (methodLiteral_mem hassoc))) h
  case _ => -- popStoreGlobal
    obtain ⟨assoc,hassoc,h⟩ := bind_ok h
    obtain ⟨⟨v,l₁⟩,-,h⟩ := bind_ok h
    obtain ⟨w₁,hstore,h⟩ := bind_ok h
    exact hdone (setSlot_effect hstore (hlits _ (methodLiteral_mem hassoc))) h
  case _ => -- jumpTrue
    obtain ⟨l₁,-,h⟩ := bind_ok h
    cases h
    exact .same rfl
  case _ => -- jumpFalse
    obtain ⟨l₁,-,h⟩ := bind_ok h
    cases h
    exact .same rfl
  case _ => -- pop
    obtain ⟨⟨v,l₁⟩,-,h⟩ := bind_ok h
    cases h
    exact .same rfl
  case _ => -- pushOuterTemp
    obtain ⟨ctx,-,h⟩ := bind_ok h
    obtain ⟨v,-,h⟩ := bind_ok h
    cases h
    exact .same rfl
  case _ => -- storeOuterTemp
    obtain ⟨ctx,hctx,h⟩ := bind_ok h
    obtain ⟨v,-,h⟩ := bind_ok h
    obtain ⟨w₁,hstore,h⟩ := bind_ok h
    exact hdone (setOuter_effect hctx hstore) h
  case _ => -- popStoreOuterTemp
    obtain ⟨ctx,hctx,h⟩ := bind_ok h
    obtain ⟨⟨v,l₁⟩,-,h⟩ := bind_ok h
    obtain ⟨w₁,hstore,h⟩ := bind_ok h
    exact hdone (setOuter_effect hctx hstore) h
  case _ => -- the pushes
    obtain ⟨v,-,h⟩ := bind_ok h
    cases h
    exact .same rfl

end

/-! ### Following the interpreter -/

section

variable {block : Closure → BlockInfo} {home : Oop → BlockInfo}
variable {s : Storage} {k k' : CallStack} {mem mem' : Memory}

theorem Follows.refl (h : Tracks s k mem) : Follows block home s k mem := ⟨s,.refl,h⟩

theorem Follows.trans (h : Follows block home s k mem)
    (h' : ∀ s',Tracks s' k mem → Follows block home s' k' mem') :
    Follows block home s k' mem' := by
  obtain ⟨s₁,hrun,hs₁⟩ := h
  obtain ⟨s₂,hrun',hs₂⟩ := h' s₁ hs₁
  exact ⟨s₂,hrun.trans hrun',hs₂⟩

theorem Tracks.mem_contexts (h : Tracks s k mem) {l : LiveBlock} (hl : l ∈ s.live) :
    l.ctx ∈ k.contexts :=
  h.live ▸ List.mem_map_of_mem hl

theorem Tracks.follow (ev : VarEvent) {s' : Storage} (hev : VarEvent.From block home ev)
    (hstep : StorageStep ev s s') (h : Tracks s' k' mem') : Follows block home s k' mem' :=
  ⟨s',.single ⟨ev,hev,hstep⟩,h⟩

section

variable (h : Tracks s k mem)

include h

theorem Tracks.shrink (hsub : k'.contexts.Sublist k.contexts)
    (hsame : ∀ c ∈ k'.contexts,mem'.slot c = mem.slot c) : Follows block home s k' mem' := by
  rw [← h.live] at hsub
  obtain ⟨live,hlive,hmap⟩ := sublist_map_iff.mp hsub
  have hleft : EventStep block home s ⟨s.slots,live⟩ := ⟨.leave,trivial,.leave live hlive⟩
  have hother : EventStep block home ⟨s.slots,live⟩ ⟨mem'.slot,live⟩ := by
    refine ⟨.other,trivial,.other _ (fun l hl => ?_)⟩
    rw [h.slots]
    exact hsame _ (hmap ▸ List.mem_map_of_mem hl)
  exact ⟨⟨mem'.slot,live⟩,.tail (.single hleft) hother,hmap.symm,rfl⟩

theorem Tracks.same (hk : k'.contexts = k.contexts)
    (hsame : ∀ c ∈ k.contexts,mem'.slot c = mem.slot c) : Follows block home s k' mem' :=
  h.shrink (hk ▸ List.Sublist.refl _) (fun c hc => hsame c (hk ▸ hc))

theorem Tracks.store {c : Oop} {cs : List Oop} {i v : Nat}
    (hc : k.contexts = c :: cs) (hk : k'.contexts = k.contexts)
    (hmem : mem'.slot = writeSlots mem.slot c i [v]) : Follows block home s k' mem' := by
  obtain ⟨x,xs,hlive,hx,-⟩ := map_eq_cons_iff.mp (h.live.trans hc)
  have hruns : s.Runs 0 x := ⟨by simp [hlive],fun m y hm => absurd hm (Nat.not_lt_zero m)⟩
  refine Tracks.follow (.store 0 i v) trivial (.store 0 i v x hruns) ⟨?_,?_⟩
  · exact h.live.trans hk.symm
  · rw [hmem,hx,h.slots]

theorem Tracks.activate (b : Closure) {args : List Oop}
    (hoff : (block b).tempOff = b.tempOff) (hk : k'.contexts = b.context :: k.contexts)
    (hmem : mem'.slot = writeSlots mem.slot b.context b.tempOff args) :
    Follows block home s k' mem' := by
  refine Tracks.follow (.activate b.context (block b) args) ⟨b,rfl,rfl⟩
    (.activate b.context (block b) args) ⟨?_,?_⟩
  · simp [hk,h.live]
  · rw [hmem,hoff,h.slots]

theorem Tracks.enter (method : Oop) {c : Oop} (hc : c ∉ k.contexts)
    (hk : k'.contexts = c :: k.contexts) (hsame : ∀ c ∈ k.contexts,mem'.slot c = mem.slot c) :
    Follows block home s k' mem' := by
  refine Tracks.follow (.enter c (home method)) ⟨method,rfl⟩
    (.enter c (home method) mem'.slot ?_ ?_) ⟨?_,rfl⟩
  · exact fun l hl heq => hc (heq ▸ h.mem_contexts hl)
  · intro l hl
    rw [h.slots]
    exact hsame _ (h.mem_contexts hl)
  · simp [hk,h.live]

end

variable {f : Frame} {fs : List Frame} {w w' : World ω} {a : Activation} {c : Call}
  {failure : Option Nat}

theorem Tracks.stay (h : Tracks s k mem) (hf : k.frames = f :: fs) (hk : k'.contexts = k.contexts)
    (hw : w.mem = mem) (heffect : LocalEffect k.contexts f.act w w') :
    Follows block home s k' w'.mem := by
  subst hw
  rcases heffect with hsame | ⟨hctx,i,v,hmem⟩
  · exact h.same hk hsame
  · exact h.store ((contexts_cons hf).trans (if_neg hctx)) hk hmem

/-- The storage follows an execution. -/
abbrev FollowsExec (block : Closure → BlockInfo) (home : Oop → BlockInfo) (s : Storage)
    (e : Exec ω) : Prop :=
  Follows block home s e.stack e.world.mem

abbrev TracksExec (s : Storage) (e : Exec ω) : Prop := Tracks s e.stack e.world.mem

variable {mode : LoopMode} {m m' : Machine ω}

theorem enterFrame_ok {full : Fatal} {start : Except Fault (Activation × World ω)}
    (h : enterFrame m a full start = .ok m') :
    ∃ a' w',start = .ok (a',w') ∧ m'.exec.world = w' ∧
      m'.exec.stack.contexts = if a'.context = 0 then m.exec.stack.contexts
        else a'.context :: m.exec.stack.contexts := by
  unfold enterFrame at h
  split at h
  · cases h
  · next k hk =>
    obtain ⟨addr,top,rfl⟩ := framePush_some hk
    obtain ⟨⟨a',w'⟩,hstart,h⟩ := bind_ok h
    cases h
    exact ⟨a',w',hstart,rfl,contexts_setAct rfl a'⟩

theorem startActivation_world {a' : Activation} {n : Nat} (ha : a.context = 0 ∨ n ≤ a.context)
    (h : startActivation c failure a w = .ok (a',w')) : SameBelow n w w' := by
  obtain ⟨⟨l,w₁⟩,hnote,h⟩ := bind_ok h
  have heffect : LocalEffect (List.range n) a w w₁ := noteFailure_effect hnote
  cases h
  intro c hc
  rcases heffect with hsame | ⟨hne,i,v,hmem⟩
  · exact hsame c (mem_range.mpr hc)
  · rw [hmem]
    refine funext (fun j => writeSlots_outside (fun heq => ?_))
    have hle : n ≤ a.context := ha.resolve_left hne
    exact absurd hc (Nat.not_lt.mpr (heq ▸ hle))

theorem pushedActivation_contexts (h : pushedActivation env w c failure = .ok (a,w')) :
    SameBelow w.heap.frontier w w' ∧ (a.context = 0 ∨ a.context = w.heap.frontier) := by
  unfold pushedActivation at h
  dsimp only at h
  split at h
  · obtain ⟨⟨a₁,w₁⟩,hgive,h⟩ := bind_ok h
    obtain ⟨⟨-,hctx,-⟩,hnew⟩ := giveContext_ok hgive
    have hstart := startActivation_world (.inr (Nat.le_of_eq hctx.symm)) h
    exact ⟨SameBelow.trans hnew.same hstart,.inr ((startActivation_context h).trans hctx)⟩
  · exact ⟨startActivation_world (.inl rfl) h,.inl (startActivation_context h)⟩

theorem pushCall_follows (hs : TracksExec s m.exec) (hbelow : m.exec.contextsBelow)
    (h : pushCall env m c failure = .ok m') :
    FollowsExec block home s m'.exec := by
  obtain ⟨a,w,hstart,hw,hctx⟩ := enterFrame_ok h
  obtain ⟨hsame,ha⟩ := pushedActivation_contexts hstart
  subst hw
  have hkept : ∀ o ∈ m.exec.stack.contexts,
      m'.exec.world.mem.slot o = m.exec.world.mem.slot o := fun o ho => hsame o (hbelow o ho)
  by_cases hzero : a.context = 0
  · rw [if_pos hzero] at hctx
    exact hs.same hctx hkept
  · rw [if_neg hzero] at hctx
    have hfresh : a.context ∉ m.exec.stack.contexts := by
      intro hmem
      have hlt : a.context < m.exec.world.heap.frontier := hbelow _ hmem
      rcases ha with ha | ha
      · exact hzero ha
      · exact absurd hlt (by rw [ha]; exact Nat.lt_irrefl _)
    exact hs.enter c.method hfresh hctx hkept

theorem reuseFrame_follows (hs : TracksExec s m.exec) (h : reuseFrame env m c failure = .ok m') :
    FollowsExec block home s m'.exec := by
  unfold reuseFrame at h
  split at h
  · cases h
  · next f fs hf =>
    obtain ⟨⟨a,w⟩,hstart,h⟩ := bind_ok h
    have hctx : a.context = 0 := startActivation_context hstart
    cases h
    have hk : (m.exec.stack.setAct a).contexts = contextsOf (fs ++ m.exec.stack.outer.flatten) :=
      (contexts_setAct hf a).trans (if_pos hctx)
    refine hs.shrink ?_ (fun o _ => ?_)
    · change (m.exec.stack.setAct a).contexts.Sublist _
      rw [hk,CallStack.contexts,CallStack.allFrames,hf]
      exact contextsOf_sublist (sublist_cons_self _ _)
    · exact startActivation_world (.inl rfl) hstart o (Nat.lt_succ_self o)

theorem activate_follows (hs : TracksExec s m.exec) (hbelow : m.exec.contextsBelow)
    (h : activate env mode m c failure = .ok m') :
    FollowsExec block home s m'.exec := by
  unfold activate at h
  split at h
  · exact reuseFrame_follows hs h
  · exact pushCall_follows hs hbelow h

theorem storeSlots_slots {l l' : Locals} {i : Nat} {vs : List Oop}
    (h : storeSlots (effectiveSlots a) l w i vs = .ok (l',w')) :
    w'.mem.slot = if a.context = 0 then w.mem.slot else writeSlots w.mem.slot a.context i vs := by
  unfold effectiveSlots at h
  split at h
  · next hctx =>
    obtain ⟨x,-,h⟩ := bind_ok h
    cases h
    rw [if_pos hctx]
  · next hctx =>
    obtain ⟨x,hx,h⟩ := bind_ok h
    cases h
    rw [if_neg hctx,setSlots_slots hx]

theorem activateBlock_follows {b : Closure} {args : List Oop}
    (hoff : (block b).tempOff = b.tempOff) (hs : TracksExec s m.exec)
    (h : activateBlock env m b args = .ok m') : FollowsExec block home s m'.exec := by
  unfold activateBlock at h
  obtain ⟨cm,-,h⟩ := bind_ok h
  obtain ⟨a,w,hstart,hw,hctx⟩ := enterFrame_ok h
  obtain ⟨⟨l,w₁⟩,hstore,hstart⟩ := bind_ok hstart
  have hmem := storeSlots_slots hstore
  cases hstart
  subst hw
  change m'.exec.stack.contexts = if b.context = 0 then _ else b.context :: _ at hctx
  change _ = if b.context = 0 then _ else writeSlots _ b.context _ _ at hmem
  by_cases hzero : b.context = 0
  · rw [if_pos hzero] at hctx hmem
    exact hs.same hctx (fun o _ => by rw [hmem])
  · rw [if_neg hzero] at hctx hmem
    exact hs.activate b hoff hctx hmem

theorem KeepsContexts.below {e e' : Exec ω} (h : KeepsContexts e e') (he : e.contextsBelow) :
    e'.contextsBelow := by
  intro c hc
  exact Nat.lt_of_lt_of_le (he c (h.contexts ▸ hc)) h.frontier

theorem performCall_follows (hoff : ∀ b,(block b).tempOff = b.tempOff) (hs : TracksExec s m.exec)
    (hbelow : m.exec.contextsBelow) (hkeep : ∀ p,findPrimitive env (calleePrimitive c.code) = some p
      → (p m.exec (c.receiver :: c.args)).Keeps m.exec) (h : performCall env mode m c = .ok m') :
    FollowsExec block home s m'.exec := by
  unfold performCall at h
  split at h
  · obtain ⟨isBlock,-,h⟩ := bind_ok h
    cases isBlock with
    | true =>
      obtain ⟨b,-,h⟩ := bind_ok (liftFault_ok h)
      exact activateBlock_follows (hoff b) hs h
    | false =>
      rw [if_neg Bool.false_ne_true] at h
      cases hp : findPrimitive env (calleePrimitive c.code) with
      | none =>
        rw [hp] at h
        exact activate_follows hs hbelow (liftFault_ok h)
      | some p =>
        rw [hp] at h
        have hkeep := hkeep p hp
        dsimp only at h
        cases hr : p m.exec (c.receiver :: c.args) with
        | success v e =>
          rw [hr] at h hkeep
          cases h
          refine hs.same ((contexts_pushValue e v).trans hkeep.contexts) (fun o ho => ?_)
          change ((e.pushValue v).world.mem.slot o) = _
          rw [pushValue_world]
          exact hkeep.slots o ho
        | failure code e =>
          rw [hr] at h hkeep
          simp only [afterPrimitive] at h
          split at h
          · cases h
          · refine (hs.same hkeep.contexts hkeep.slots).trans (fun s' hs' => ?_)
            exact activate_follows (m := { m with exec := e }) hs' (hkeep.below hbelow)
              (liftFault_ok h)
        | unwound e | aborted =>
          rw [hr] at h
          cases h
  · exact activate_follows hs hbelow (liftFault_ok h)

theorem doReturn_follows {v : Oop} (hs : TracksExec s m.exec) (h : doReturn m v = .ok m') :
    FollowsExec block home s m'.exec := by
  cases hf : m.exec.stack.frames with
  | nil => simp [doReturn,framePop,hf] at h
  | cons f fs =>
    cases fs with
    | nil =>
      rw [doReturn_last hf] at h
      cases h
    | cons g rest =>
      rw [doReturn_cons hf] at h
      cases h
      refine hs.shrink ?_ (fun _ _ => rfl)
      have hsame : (returnedTo m f.addr g rest v).exec.stack.contexts =
          contextsOf (g :: rest ++ m.exec.stack.outer.flatten) := by
        simp only [returnedTo,CallStack.contexts,CallStack.allFrames,cons_append,contextsOf_cons]
      rw [hsame,CallStack.contexts,CallStack.allFrames,hf]
      exact contextsOf_sublist (sublist_cons_self _ _)

theorem nonLocalReturn_follows {senders : List Frame} (hf : m.exec.stack.frames = f :: senders)
    (hs : TracksExec s m.exec) (h : nonLocalReturn env m f.act senders = .ok m') :
    FollowsExec block home s m'.exec := by
  unfold nonLocalReturn at h
  obtain ⟨⟨v,l⟩,-,h⟩ := bind_ok h
  dsimp only at h
  split at h
  · exact absurd h blockCannotReturn_stops
  · next g rest hhome =>
    have hsuffix : (g :: rest).Sublist senders := (hhome ▸ findHome_suffix _ senders).sublist
    let k : CallStack := { m.exec.stack with top := g.addr,frames := g :: rest }
    suffices hcut : k.contexts.Sublist m.exec.stack.contexts from
      (hs.shrink hcut (fun _ _ => rfl)).trans (fun s' hs' => doReturn_follows hs' h)
    rw [CallStack.contexts,CallStack.contexts,CallStack.allFrames,CallStack.allFrames,hf]
    exact contextsOf_sublist ((hsuffix.cons f).append_right _)

theorem runPrimitive_follows {insn : Insn} (hf : m.exec.stack.frames = f :: fs) (hv : SlotsValid m)
    (hs : TracksExec s m.exec) (hkeep : ∀ p args,findPrimitive env insn.operand = some p →
      primitiveArgs m.slots f.act m.exec.world = .ok args → (p m.exec args).Keeps m.exec)
    (h : runPrimitive env mode m insn f.act = .ok m') : FollowsExec block home s m'.exec := by
  unfold runPrimitive at h
  cases hp : findPrimitive env insn.operand with
  | none =>
    rw [hp] at h
    cases h
    exact hs.same (contexts_advance _ _) (fun o _ => by rw [advance_world])
  | some p =>
    rw [hp] at h
    obtain ⟨args,hargs,h⟩ := bind_ok h
    have hkeep := hkeep p args hp (liftFault_ok hargs)
    cases hr : p m.exec args with
    | success v e =>
      rw [hr] at h hkeep
      cases h
      refine hs.same ?_ (fun o ho => ?_)
      · rw [contexts_advance,contexts_pushValue,hkeep.contexts]
      · rw [advance_world,pushValue_world]
        exact hkeep.slots o ho
    | failure code e =>
      rw [hr] at h hkeep
      simp only [afterPrimitiveInsn] at h
      split at h
      · cases h
      · split at h
        · next g gs hg =>
          obtain ⟨⟨l,w⟩,hnote,h⟩ := bind_ok h
          cases h
          -- the frame after the primitive still has the context the cached pointer is for
          have hptr : m.slots = effectiveSlots g.act := by
            rw [(slotsValid_iff hf).mp hv,effectiveSlots_inj]
            have := hkeep.current
            rw [context_cons hg,context_cons hf] at this
            exact (Option.some.inj this).symm
          rw [hptr] at hnote
          refine (hs.same hkeep.contexts hkeep.slots).trans (fun s' hs' => ?_)
          have heffect : LocalEffect e.stack.contexts g.act e.world w :=
            noteFailure_effect (liftFault_ok hnote)
          have hworld : ((e.setLocals l w).advance insn.len).world = w := by
            rw [advance_world,setLocals_world]
          have hk : ((e.setLocals l w).advance insn.len).stack.contexts = e.stack.contexts := by
            rw [contexts_advance,contexts_setLocals]
          change Follows block home s' _ ((e.setLocals l w).advance insn.len).world.mem
          rw [hworld]
          exact hs'.stay hg hk rfl heffect
        · cases h
    | unwound e | aborted =>
      rw [hr] at h
      cases h

theorem stayStep_follows {cm : CompiledMethod} {insn : Insn} (hf : m.exec.stack.frames = f :: fs)
    (hv : SlotsValid m) (hs : TracksExec s m.exec) (hbelow : m.exec.contextsBelow)
    (hreceiver : f.act.receiver ∉ m.exec.stack.contexts)
    (hlits : ∀ lit ∈ cm.literals,lit ∉ m.exec.stack.contexts)
    (h : stayStep env m cm insn f.act = .ok m') : FollowsExec block home s m'.exec := by
  obtain ⟨⟨l,w⟩,hlocal,h⟩ := bind_ok h
  have hlocal := liftFault_ok hlocal
  cases h
  rw [(slotsValid_iff hf).mp hv] at hlocal
  change Follows block home s _ (m.exec.setLocals l w).world.mem
  rw [setLocals_world]
  exact hs.stay hf (contexts_setLocals _ _ _) rfl (localStep_effect hbelow hreceiver hlits hlocal)

theorem step_follows (hoff : ∀ b,(block b).tempOff = b.tempOff) (hs : TracksExec s m.exec)
    (hv : SlotsValid m) (hbelow : m.exec.contextsBelow) (hkeep : stepKeepsContexts env m)
    (h : step env mode m = .ok m') : FollowsExec block home s m'.exec := by
  obtain ⟨f,fs,cm,hf,hcm,h⟩ := step_ok h
  simp only [stepKeepsContexts,hf] at hkeep
  obtain ⟨hreceiver,hkeep⟩ := hkeep
  obtain ⟨hlits,hkeep⟩ := hkeep cm hcm
  unfold dispatch at h
  dsimp only at h
  cases hop : control (Opcode.ofCode (decodeInsn cm.bytecodes f.act.pc).opcode) with
  | send isSuper =>
    simp only [hop] at h hkeep
    obtain ⟨m₁,hm₁,h⟩ := bind_ok h
    obtain ⟨r,rfl⟩ := chargeReduction_ok hm₁
    obtain ⟨⟨c,l,w⟩,hc,h⟩ := bind_ok h
    have hc := liftFault_ok hc
    have hsent : FollowsExec block home s (m.exec.setLocals l w) := by
      refine hs.same (contexts_setLocals _ _ _) (fun o ho => ?_)
      rw [setLocals_world]
      exact (prepareSend_fresh hc).same o (hbelow o ho)
    have hbelow' : (m.exec.setLocals l w).contextsBelow := by
      intro o ho
      rw [contexts_setLocals] at ho
      rw [setLocals_world]
      exact Nat.lt_of_lt_of_le (hbelow o ho) (prepareSend_fresh hc).frontier
    exact hsent.trans (fun s' hs' => performCall_follows hoff hs' hbelow' (hkeep c l w hc) h)
  | ret =>
    simp only [hop] at h
    obtain ⟨v,-,h⟩ := bind_ok h
    exact doReturn_follows hs h
  | nonLocalReturn =>
    simp only [hop] at h
    exact nonLocalReturn_follows hf hs h
  | primitive =>
    simp only [hop] at h hkeep
    exact runPrimitive_follows hf hv hs hkeep h
  | jumpBack =>
    simp only [hop] at h
    obtain ⟨m₁,hm₁,h⟩ := bind_ok h
    have hm' : FollowsExec block home s m₁.exec :=
      stayStep_follows hf hv hs hbelow hreceiver hlits hm₁
    obtain ⟨r,rfl⟩ := chargeReduction_ok h
    exact hm'
  | stay =>
    simp only [hop] at h
    exact stayStep_follows hf hv hs hbelow hreceiver hlits h

theorem blockFrame_contexts {slots : SlotPtr} {b : Closure} {args : List Oop}
    (h : blockFrame env mem k b args = .ok (mem',k',slots)) :
    k'.contexts = (if b.context = 0 then k.contexts else b.context :: k.contexts) ∧
      mem'.slot = if b.context = 0 then mem.slot
        else writeSlots mem.slot b.context b.tempOff args := by
  obtain ⟨cm,-,h⟩ := bind_ok h
  dsimp only at h
  split at h
  · cases h
  · next k₁ hk₁ =>
    obtain ⟨addr,top,rfl⟩ := framePush_some hk₁
    by_cases hctx : b.context = 0
    · rw [show effectiveSlots (blockActivation env cm b) = .inline from if_pos hctx] at h
      obtain ⟨l,-,h⟩ := bind_ok h
      cases h
      exact ⟨contexts_setAct rfl _,(if_pos hctx).symm⟩
    · rw [show effectiveSlots (blockActivation env cm b) = .payload b.context from if_neg hctx] at h
      obtain ⟨w,hw,h⟩ := bind_ok h
      cases h
      exact ⟨contexts_setAct rfl _,(setSlots_slots hw).trans (if_neg hctx).symm⟩

theorem evalBlock_follows {vm vm' : Vm ω} {p : Pending} {o : Oop} {args : List Oop}
    (hoff : ∀ b,(block b).tempOff = b.tempOff)
    (hs : Tracks s (vm.actors rootActor).stack vm.mem)
    (h : evalBlock env vm p o args = .ok vm') :
    Follows block home s (vm'.actors rootActor).stack vm'.mem := by
  unfold evalBlock at h
  obtain ⟨b,-,h⟩ := bindVm_ok h
  obtain ⟨⟨mem₁,k₁,slots⟩,hframe,h⟩ := bindVm_ok h
  cases h
  obtain ⟨hk,hmem⟩ := blockFrame_contexts hframe
  simp only [Vm.setStack,Vm.setActor,Function.update_self]
  by_cases hctx : b.context = 0
  · rw [if_pos hctx] at hk hmem
    exact hs.same hk (fun o _ => by rw [hmem])
  · rw [if_neg hctx] at hk hmem
    exact hs.activate b (hoff b) hk hmem

/-- A step that finds the contexts in order and keeps them so. -/
structure KeptStep (env : Env ω) (mode : LoopMode) (m m' : Machine ω) : Prop where
  below : m.exec.contextsBelow
  keeps : stepKeepsContexts env m
  kept : contextKept env mode m = true
  step : step env mode m = .ok m'

end

end

/-! ### Overlapping activations -/

/-- `| f | f := [:n | n ifTrue: [f value: false]. n]. ^f value: true`. -/
def recurse : Node :=
  .method "main" [] ["f"]
    [.assign "f" (.block ["n"] []
      [.send (.var "n") "ifTrue:" [.block [] [] [.send (.var "f") "value:" [.literalBool false]]],
        .var "n"]),
      .ret (.send (.var "f") "value:" [.literalBool true])]

def recurseCompiler : CodegenEnv Unit where
  classOop := 512
  instvarNames := []
  symbolIntern _ _ := (304,())
  immutableAlloc _ _ _ := (1040,())
  heapAlloc _ _ _ := (1328,())
  storeSlots _ _ _ := ()
  storeString _ _ _ := ()
  storeMethod _ _ _ := ()
  lookupGlobal _ _ := 0
  systemDict := 0
  nilOop := 16
  trueOop := 32
  falseOop := 48
  codeLimit := 4096
  codeLimit_le := codeLimit_page

def recurseMain : CompiledMethod :=
  ⟨methodHeader 0 2 3 0 false true,[1328,304,512],
    [0x61,0,0x07,1,0x42,8,0x07,0,0x05,0,0x20,1,0x40,2,0x03,0,0x50,0,0x07,1,0x30,0,
      0x13,0,0x07,0,0x04,0,0x20,1,0x30,0]⟩

def recurseEnv : Env Unit :=
  tableEnv [(1024,callMain),(1040,recurseMain),(1120,primitiveMethod 1 82)]
    [((528,272),1040),((560,304),1120)] [(272,0),(304,1)] []

def recurseWorld : World Unit where
  heap := ⟨8192,4096,0⟩
  mem := tableMemory [(512,plainObj 16 [16,528,1,16]),(544,plainObj 16 [16,560,1,16]),
    (768,plainObj 2 []),(1328,plainObj clsBlockDescriptor [5,41,3,3,3])]
  classTable := classTableOf [(2,512),(clsBlockClosure,544)]
  handlers := []
  signaled := 0
  rest := ()

def recurseStart : Machine Unit := startMachine recurseWorld 16 1024 callMain 768

/-- The block's layout as `emit_block` gives it, and the method's. -/
def recurseBlock : BlockInfo := ⟨[2],1,1,0⟩

def recurseHome : BlockInfo := ⟨[],0,0,1⟩

end SmalltalkA
