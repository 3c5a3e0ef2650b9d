import SmalltalkA.Interpreter.SlotCache
import SmalltalkA.Interpreter.Unwinding
import SmalltalkA.Interpreter.Variables

/-! Non-local returns. `^` in a block looks for the marked frame with the block's context among the
senders of its own loop. Marked frames never share a context, so a home there is found; the loops
around are not looked at. -/

set_option autoImplicit false

namespace SmalltalkA

open Interleaving List

def Heap.frontier (h : Heap) : Nat := h.base + h.used

def homesOf (fs : List Frame) : List Nat := (fs.filter (fun f => f.act.marker)).map (·.act.context)

def CallStack.allFrames (k : CallStack) : List Frame := k.frames ++ k.outer.flatten

/-- No two activations have the same context, and a new one will be another. -/
structure HomesOk (k : CallStack) (h : Heap) : Prop where
  distinct : (homesOf k.allFrames).Nodup
  inHeap : ∀ c ∈ homesOf k.allFrames,0 < c ∧ c < h.frontier
  frontier : 0 < h.frontier

instance (k : CallStack) (h : Heap) : Decidable (HomesOk k h) :=
  decidable_of_iff ((homesOf k.allFrames).Nodup ∧
    (∀ c ∈ homesOf k.allFrames,0 < c ∧ c < h.frontier) ∧ 0 < h.frontier)
    ⟨fun ⟨h₁,h₂,h₃⟩ => ⟨h₁,h₂,h₃⟩,fun h => ⟨h.distinct,h.inHeap,h.frontier⟩⟩

section

variable {ω : Type} (env : Env ω)

def Exec.homesOk (e : Exec ω) : Prop := HomesOk e.stack e.world.heap

instance (e : Exec ω) : Decidable e.homesOk := inferInstanceAs (Decidable (HomesOk _ _))

/-! ### Steps that keep the homes -/

def reusesHome (mode : LoopMode) (e : Exec ω) (c : Call) : Bool :=
  reusesFrame mode e.stack c && e.stack.frames.head?.any (fun f => f.act.marker)

/-- The primitive a send calls leaves distinct contexts behind, and no marked frame is reused. -/
def callKeepsHomes (mode : LoopMode) (e : Exec ω) (c : Call) : Bool :=
  if methodHasPrim c.code.header then
    match isBlockActivation e.world.mem (calleePrimitive c.code) c.receiver,
        findPrimitive env (calleePrimitive c.code) with
    | .ok false,some p =>
      match p e (c.receiver :: c.args) with
      | .success _ e' => decide e'.homesOk
      | .failure _ e' => decide e'.homesOk && !reusesHome mode e' c
      | _ => true
    | .ok false,none => !reusesHome mode e c
    | _,_ => true
  else !reusesHome mode e c

/-- The same for `OP_PRIMITIVE`. -/
def insnKeepsHomes (m : Machine ω) (insn : Insn) (a : Activation) : Bool :=
  match findPrimitive env insn.operand,primitiveArgs m.slots a m.exec.world with
  | some p,.ok args =>
    match p m.exec args with
    | .success _ e' | .failure _ e' => decide e'.homesOk
    | _ => true
  | _,_ => true

def stepKeepsHomes (mode : LoopMode) (m : Machine ω) : Bool :=
  match m.exec.stack.frames with
  | [] => true
  | f :: _ =>
    match env.methods f.act.method with
    | none => true
    | some cm =>
      let insn := decodeInsn cm.bytecodes f.act.pc
      match control (Opcode.ofCode insn.opcode) with
      | .send isSuper =>
        match prepareSend env isSuper cm insn f.act m.exec.world with
        | .ok (c,l,w) => callKeepsHomes env mode (m.exec.setLocals l w) c
        | .error _ => true
      | .primitive => insnKeepsHomes env m insn f.act
      | _ => true

def keepsHomes (failed : World ω → List Oop → Option Oop) (vm : Vm ω) : Bool :=
  (vmSpecial env failed vm).isSome || stepKeepsHomes env (modeOf vm.loop) vm.machine

/-! ### What a non-local return is due -/

/-- The method activation whose context is `ctx`. -/
def Frame.isHome (f : Frame) (ctx : Oop) : Prop := f.act.marker = true ∧ f.act.context = ctx

def Vm.waiting (vm : Vm ω) : List Frame :=
  vm.own.stack.outer.flatten ++ vm.pending.flatMap (fun p =>
    if p.caller.actor = vm.loop.actor then [] else (vm.actors p.caller.actor).stack.allFrames)

/-- The value goes to the sender of `home`, on whose senders nothing changes; without a sender the
loop returns it. -/
def returnPast (vm : Vm ω) (home : Frame) (v : Oop) : List Frame → Except VmEnd (Vm ω)
  | sender :: rest => .ok (vm.setMachine (returnedTo vm.machine home.addr sender rest v))
  | [] => finishLoop env
      (vm.setExec ⟨vm.world,{ vm.own.stack with top := home.addr,frames := [] }⟩) v

/-- The next instruction is a non-local return of `v`. -/
def Vm.returns (vm : Vm ω) (f : Frame) (senders : List Frame) (v : Oop) : Prop :=
  ∃ cm insn stack,vm.nextInsn env = some (f,senders,cm,insn) ∧
    control (Opcode.ofCode insn.opcode) = .nonLocalReturn ∧ f.act.stack = v :: stack

/-- A non-local return goes to the home, wherever it is; without a home it signals
`BlockCannotReturn`. -/
structure TargetsHome (failed : World ω → List Oop → Option Oop) (vm : Vm ω) : Prop where
  home : ∀ f senders v,vm.returns env f senders v →
    ∀ g ∈ senders ++ vm.waiting,g.isHome f.act.context →
      ∃ above rest,senders = above ++ g :: rest ∧
        vmStep env failed vm = returnPast env vm g v rest
  dead : ∀ f senders v,vm.returns env f senders v →
    (∀ g ∈ senders ++ vm.waiting,¬g.isHome f.act.context) →
      ∃ vm₁,deadReturn vm f senders = some (v,vm₁) ∧
        vmStep env failed vm = vmBlockCannotReturn env vm₁ v

def homeInLoop (vm : Vm ω) : Prop :=
  ∀ f senders v,vm.returns env f senders v → ∀ g ∈ vm.waiting,¬g.isHome f.act.context

variable {env}

/-! ### Homes -/

@[simp] theorem homesOf_append (fs gs : List Frame) : homesOf (fs ++ gs) = homesOf fs ++ homesOf gs := by
  simp [homesOf]

theorem homesOf_cons (f : Frame) (fs : List Frame) :
    homesOf (f :: fs) = if f.act.marker then f.act.context :: homesOf fs else homesOf fs := by
  unfold homesOf
  rw [filter_cons]
  split <;> simp

variable {fs senders : List Frame} {f g : Frame} {h : Heap} {k k' : CallStack} {i : Nat}
  {w w' : World ω} {l l' : Locals} {ptr : SlotPtr} {a : Activation} {cm : CompiledMethod}
  {insn : Insn} {selector v ctx : Oop} {isSuper : Bool} {c : Call} {failure : Option Nat}
  {m m' : Machine ω} {mode : LoopMode} {e : Exec ω} {p : Pending}

theorem homesOf_sublist {gs : List Frame} (h : fs.Sublist gs) : (homesOf fs).Sublist (homesOf gs) :=
  (h.filter _).map _

theorem mem_homesOf (hf : f ∈ fs) (hm : f.act.marker = true) : f.act.context ∈ homesOf fs :=
  List.mem_map_of_mem (mem_filter.mpr ⟨hf,hm⟩)

theorem HomesOk.mono {h' : Heap} (hk : HomesOk k h)
    (hs : (homesOf k'.allFrames).Sublist (homesOf k.allFrames)) (hf : h.frontier ≤ h'.frontier) :
    HomesOk k' h' := by
  refine ⟨hk.distinct.sublist hs,fun c hc => ?_,Nat.lt_of_lt_of_le hk.frontier hf⟩
  have := hk.inHeap c (hs.subset hc)
  omega

theorem HomesOk.push {h' : Heap} (hk : HomesOk k h)
    (hs : homesOf k'.allFrames = h.frontier :: homesOf k.allFrames) (hf : h.frontier < h'.frontier) :
    HomesOk k' h' := by
  have hpos := hk.frontier
  refine ⟨?_,fun c hc => ?_,by omega⟩
  · rw [hs,nodup_cons]
    refine ⟨fun hmem => ?_,hk.distinct⟩
    have := hk.inHeap _ hmem
    omega
  · rw [hs,mem_cons] at hc
    rcases hc with rfl | hc
    · omega
    · have := hk.inHeap c hc
      omega

theorem setLocals_homes (e : Exec ω) (l : Locals) (w : World ω) :
    homesOf (e.setLocals l w).stack.allFrames = homesOf e.stack.allFrames := by
  unfold Exec.setLocals CallStack.setAct
  split
  · rename_i f fs hf
    simp only [hf,CallStack.allFrames,cons_append,homesOf_cons]
  · rfl

theorem pushValue_homes (e : Exec ω) (v : Oop) :
    homesOf (e.pushValue v).stack.allFrames = homesOf e.stack.allFrames := by
  unfold Exec.pushValue
  split
  · exact setLocals_homes _ _ _
  · rfl

@[simp] theorem pushValue_world (e : Exec ω) (v : Oop) : (e.pushValue v).world = e.world := by
  unfold Exec.pushValue
  split
  · exact setLocals_world _ _ _
  · rfl

@[simp] theorem advance_world (e : Exec ω) (n : Nat) : (e.advance n).world = e.world := by
  unfold Exec.advance
  split
  · exact setLocals_world _ _ _
  · rfl

theorem advance_homes (e : Exec ω) (n : Nat) :
    homesOf (e.advance n).stack.allFrames = homesOf e.stack.allFrames := by
  unfold Exec.advance
  split
  · exact setLocals_homes _ _ _
  · rfl

/-! ### The heap only grows -/

theorem setSlot_heap {o v : Nat} (h : w.setSlot o i v = .ok w') : w'.heap = w.heap := by
  obtain ⟨m,-,h⟩ := bind_ok h
  cases h
  rfl

theorem setSlots_heap {o : Oop} {vs : List Oop} : ∀ {w w' : World ω} {i : Nat},
    w.setSlots o i vs = .ok w' → w'.heap = w.heap := by
  induction vs with
  | nil =>
    intro w w' i h
    cases h
    rfl
  | cons v vs ih =>
    intro w w' i h
    obtain ⟨w₁,h₁,h⟩ := bind_ok h
    exact (ih h).trans (setSlot_heap h₁)

theorem alloc_heap {c n o : Nat} (h : w.alloc c n = some (o,w')) :
    o = w.heap.frontier ∧ w.heap.frontier < w'.heap.frontier := by
  unfold World.alloc heapAlloc at h
  split at h
  · cases h
  · obtain ⟨rfl,rfl⟩ := Prod.mk.inj (Option.some.inj h)
    have := alignedSize_pos n
    exact ⟨rfl,by simp only [Heap.frontier]; omega⟩

theorem setSlot_slots {o v : Nat} (h : w.setSlot o i v = .ok w') :
    w'.mem.slot = writeSlots w.mem.slot o i [v] := by
  obtain ⟨mem,hm,h⟩ := bind_ok h
  cases h
  have hm := defined_ok hm
  unfold Memory.setSlot at hm
  split at hm
  · next obj hobj =>
    split at hm
    · next hi =>
      cases hm
      funext p j
      by_cases hp : p = o
      · subst hp
        by_cases hj : j = i
        · subst hj
          simp [Memory.slot,writeSlots,hi]
        · rw [writeSlots_outside (fun _ _ hlt => by simp at hlt; omega)]
          simp [Memory.slot,hobj,Ne.symm hj]
      · rw [writeSlots_outside (fun h => absurd h hp)]
        simp [Memory.slot,Memory.put_other hp]
    · cases hm
  · cases hm

theorem setSlots_slots {o : Oop} {vs : List Oop} : ∀ {w w' : World ω} {i : Nat},
    w.setSlots o i vs = .ok w' → w'.mem.slot = writeSlots w.mem.slot o i vs := by
  induction vs with
  | nil =>
    intro w w' i h
    cases h
    exact writeSlots_nil.symm
  | cons v vs ih =>
    intro w w' i h
    obtain ⟨w₁,h₁,h⟩ := bind_ok h
    rw [ih h,setSlot_slots h₁,writeSlots_cons]

/-- New objects at most: what was in the heap has kept its slots. -/
structure NewObjects (w w' : World ω) : Prop where
  frontier : w.heap.frontier ≤ w'.heap.frontier
  same : ∀ c,c < w.heap.frontier → w'.mem.slot c = w.mem.slot c

theorem NewObjects.refl (w : World ω) : NewObjects w w := ⟨Nat.le_refl _,fun _ _ => rfl⟩

section

variable {w₁ : World ω} {n o : Nat}

theorem NewObjects.alloc (h : NewObjects w w₁) {c : Nat} (halloc : w₁.alloc c n = some (o,w')) :
    NewObjects w w' ∧ w.heap.frontier ≤ o := by
  obtain ⟨ho,hlt⟩ := alloc_heap halloc
  have hle := h.frontier
  refine ⟨⟨Nat.le_of_lt (Nat.lt_of_le_of_lt hle hlt),fun c hc => ?_⟩,ho ▸ hle⟩
  rw [← h.same c hc]
  unfold World.alloc heapAlloc at halloc
  split at halloc
  · cases halloc
  · cases halloc
    funext j
    simp only [Heap.frontier] at hc hle
    simp [Memory.slot,Memory.put_other (show c ≠ w₁.heap.base + w₁.heap.used by omega)]

theorem NewObjects.stored (h : NewObjects w w₁) (ho : w.heap.frontier ≤ o) {vs : List Oop}
    (hset : w₁.setSlots o i vs = .ok w') : NewObjects w w' := by
  refine ⟨by rw [setSlots_heap hset]; exact h.frontier,fun c hc => ?_⟩
  rw [← h.same c hc,setSlots_slots hset]
  exact funext (fun j => writeSlots_outside (fun heq => by omega))

end

theorem storeSlot_heap {v : Nat} (h : storeSlot ptr l w i v = .ok (l',w')) : w'.heap = w.heap := by
  unfold storeSlot at h
  split at h
  · obtain ⟨x,-,h⟩ := bind_ok h
    cases h
    rfl
  · obtain ⟨x,hx,h⟩ := bind_ok h
    cases h
    exact setSlot_heap hx

theorem copyBlock_fresh {extra : List Oop} (h : copyBlock extra cm insn a w = .ok (l,w')) :
    NewObjects w w' := by
  unfold copyBlock at h
  obtain ⟨_,-,h⟩ := bind_ok h
  obtain ⟨_,-,h⟩ := bind_ok h
  obtain ⟨_,-,h⟩ := bind_ok h
  obtain ⟨_,-,h⟩ := bind_ok h
  obtain ⟨_,-,h⟩ := bind_ok h
  split at h
  · cases h
  · rename_i w₁ halloc
    obtain ⟨w₂,hw₂,h⟩ := bind_ok h
    cases h
    obtain ⟨hnew,ho⟩ := (NewObjects.refl w).alloc halloc
    exact hnew.stored ho hw₂

theorem localStep_heap (h : localStep env ptr cm insn a w = .ok (l,w')) :
    w.heap.frontier ≤ w'.heap.frontier := by
  have same : w'.heap = w.heap → w.heap.frontier ≤ w'.heap.frontier := fun h => by rw [h]
  unfold localStep at h
  dsimp only at h
  split at h
  all_goals first
    | exact (copyBlock_fresh h).frontier
    | (cases h; done)
    | (cases h; exact Nat.le_refl _)
    | skip
  -- the other branches have one to three operations, of which the last may be a store
  all_goals obtain ⟨_,hx,h⟩ := bind_ok h
  all_goals first
    | (cases h; exact Nat.le_refl _)
    | obtain ⟨_,hx,h⟩ := bind_ok h
  all_goals first
    | (cases h; exact Nat.le_refl _)
    | (cases h; exact same (setSlot_heap hx))
    | (cases h; exact same (storeSlot_heap hx))
    | obtain ⟨_,hx,h⟩ := bind_ok h
  all_goals (cases h; exact same (setSlot_heap hx))

theorem makeMessage_fresh {cls msg : Oop} {args : List Oop}
    (h : makeMessage env w selector cls args = .ok (msg,w')) : NewObjects w w' := by
  unfold makeMessage at h
  split at h
  · cases h
    exact .refl _
  · rename_i m₁ w₁ halloc
    obtain ⟨hnew,hm⟩ := (NewObjects.refl w).alloc halloc
    split at h
    · obtain ⟨w₂,hw₂,h⟩ := bind_ok h
      cases h
      exact hnew.stored hm hw₂
    · rename_i arr w₂ halloc₂
      obtain ⟨hnew₂,ha⟩ := hnew.alloc halloc₂
      obtain ⟨w₃,hw₃,h⟩ := bind_ok h
      obtain ⟨w₄,hw₄,h⟩ := bind_ok h
      cases h
      exact (hnew₂.stored ha hw₃).stored hm hw₄

theorem findMethod_world {receiver found : Oop} {args args' : List Oop}
    (h : findMethod env isSuper cm w selector receiver args = .ok (found,args',w')) :
    w' = w ∨ ∃ cls msg,makeMessage env w selector cls args = .ok (msg,w') := by
  unfold findMethod at h
  dsimp only at h
  -- both lookups go on in the same way
  have hfound : ∀ {m₁ : Oop},(if m₁ ≠ 0 then pure (m₁,args,w)
      else if env.doesNotUnderstand = 0 then .error (.fatal (.doesNotUnderstand selector))
      else do
        let index ← oopClassIndex w.mem receiver
        let dnu ← methodLookup env w index env.doesNotUnderstand
        if dnu = 0 then .error (.fatal (.doesNotUnderstand selector))
        else do
          let r ← makeMessage env w selector (classTableGet w index) args
          return (dnu,[r.1],r.2)) = Except.ok (found,args',w') →
      w' = w ∨ ∃ cls msg,makeMessage env w selector cls args = .ok (msg,w') := by
    intro m₁ h
    split at h
    · cases h
      exact .inl rfl
    · split at h
      · cases h
      · obtain ⟨_,-,h⟩ := bind_ok h
        obtain ⟨_,-,h⟩ := bind_ok h
        split at h
        · cases h
        · obtain ⟨⟨msg,w₁⟩,hmsg,h⟩ := bind_ok h
          cases h
          exact .inr ⟨_,msg,hmsg⟩
  split at h
  · obtain ⟨m₁,-,h⟩ := bind_ok h
    exact hfound h
  · obtain ⟨_,-,h⟩ := bind_ok h
    obtain ⟨m₁,-,h⟩ := bind_ok h
    exact hfound h

theorem findMethod_fresh {receiver found : Oop} {args args' : List Oop}
    (h : findMethod env isSuper cm w selector receiver args = .ok (found,args',w')) :
    NewObjects w w' := by
  rcases findMethod_world h with rfl | ⟨cls,msg,hmsg⟩
  · exact .refl _
  · exact makeMessage_fresh hmsg

theorem prepareSend_fresh (h : prepareSend env isSuper cm insn a w = .ok (c,l,w')) :
    NewObjects w w' := by
  unfold prepareSend at h
  obtain ⟨_,-,h⟩ := bind_ok h
  obtain ⟨_,-,h⟩ := bind_ok h
  obtain ⟨_,-,h⟩ := bind_ok h
  obtain ⟨⟨found,args,w₁⟩,hfind,h⟩ := bind_ok h
  obtain ⟨_,-,h⟩ := bind_ok h
  cases h
  exact findMethod_fresh hfind

/-! ### One step of a loop -/

theorem noteFailure_heap {argCount localCount : Nat}
    (h : noteFailure failure argCount localCount ptr l w = .ok (l',w')) : w'.heap = w.heap := by
  unfold noteFailure at h
  split at h
  · split at h
    · exact storeSlot_heap h
    · cases h
      rfl
  · cases h
    rfl

theorem startActivation_ok {a' : Activation} (h : startActivation c failure a w = .ok (a',w')) :
    a'.context = a.context ∧ a'.marker = a.marker ∧ w'.heap = w.heap := by
  unfold startActivation at h
  obtain ⟨⟨l,w₁⟩,hn,h⟩ := bind_ok h
  cases h
  exact ⟨rfl,rfl,noteFailure_heap hn⟩

theorem giveContext_ok {a' : Activation} {size : Nat} (h : giveContext a size w = .ok (a',w')) :
    (a'.marker = true ∧ a'.context = w.heap.frontier ∧ w.heap.frontier < w'.heap.frontier) ∧
      NewObjects w w' := by
  unfold giveContext at h
  split at h
  · cases h
  · rename_i ctx w₁ halloc
    obtain ⟨hctx,hlt⟩ := alloc_heap halloc
    obtain ⟨hnew,hle⟩ := (NewObjects.refl w).alloc halloc
    split at h
    · cases h
    · obtain ⟨w₂,hw₂,h⟩ := bind_ok h
      cases h
      exact ⟨⟨rfl,hctx,by rw [setSlots_heap hw₂]; exact hlt⟩,hnew.stored hle hw₂⟩

theorem pushedActivation_homes (h : pushedActivation env w c failure = .ok (a,w')) :
    a.marker = false ∧ w'.heap = w.heap ∨
      a.marker = true ∧ a.context = w.heap.frontier ∧ w.heap.frontier < w'.heap.frontier := by
  unfold pushedActivation at h
  dsimp only at h
  split at h
  · obtain ⟨⟨a₁,w₁⟩,hgive,h⟩ := bind_ok h
    obtain ⟨hctx,hmark,hheap⟩ := startActivation_ok h
    rw [hctx,hmark,hheap]
    exact .inr (giveContext_ok hgive).1
  · obtain ⟨-,hmark,hheap⟩ := startActivation_ok h
    exact .inl ⟨hmark,hheap⟩

theorem enterFrame_homes {full : Fatal} {start : Except Fault (Activation × World ω)}
    (h : enterFrame m a full start = .ok m') :
    ∃ a' w',start = .ok (a',w') ∧ m'.exec.world = w' ∧ homesOf m'.exec.stack.allFrames =
        if a'.marker then a'.context :: homesOf m.exec.stack.allFrames
        else homesOf m.exec.stack.allFrames := by
  unfold enterFrame at h
  split at h
  · cases h
  · rename_i k hk
    obtain ⟨addr,top,rfl⟩ := framePush_some hk
    obtain ⟨⟨a',w'⟩,hstart,h⟩ := bind_ok h
    cases h
    refine ⟨a',w',hstart,rfl,?_⟩
    simp only [CallStack.setAct,CallStack.allFrames,cons_append,homesOf_cons]

theorem pushCall_homes (hm : m.exec.homesOk) (h : pushCall env m c failure = .ok m') :
    m'.exec.homesOk := by
  obtain ⟨a,w,hstart,rfl,hhomes⟩ := enterFrame_homes h
  unfold Exec.homesOk at hm ⊢
  rcases pushedActivation_homes hstart with ⟨hmark,hheap⟩ | ⟨hmark,hctx,hlt⟩
  · rw [if_neg (by simp [hmark])] at hhomes
    exact hm.mono (hhomes ▸ List.Sublist.refl _) (by rw [hheap])
  · rw [if_pos hmark,hctx] at hhomes
    exact hm.push hhomes hlt

theorem reuseFrame_homes (hm : m.exec.homesOk) (hr : reusesFrame mode m.exec.stack c = true)
    (hsafe : reusesHome mode m.exec c = false) (h : reuseFrame env m c failure = .ok m') :
    m'.exec.homesOk := by
  unfold reuseFrame at h
  cases hf : m.exec.stack.frames with
  | nil =>
    rw [hf] at h
    cases h
  | cons f fs =>
    rw [hf] at h
    obtain ⟨⟨a,w⟩,hstart,h⟩ := bind_ok h
    cases h
    obtain ⟨-,hmark,hheap⟩ := startActivation_ok hstart
    have hf' : f.act.marker = false := by simpa [reusesHome,hr,hf] using hsafe
    have ha : a.marker = false := hmark.trans hf'
    refine hm.mono ?_ (by rw [hheap])
    simp [CallStack.setAct,hf,CallStack.allFrames,homesOf_cons,ha,hf']

theorem activate_homes (hm : m.exec.homesOk) (hsafe : reusesHome mode m.exec c = false)
    (h : activate env mode m c failure = .ok m') : m'.exec.homesOk := by
  unfold activate at h
  split at h
  · rename_i hr
    exact reuseFrame_homes hm hr hsafe h
  · exact pushCall_homes hm h

theorem storeSlots_heap {vs : List Oop} (h : storeSlots ptr l w i vs = .ok (l',w')) :
    w'.heap = w.heap := by
  unfold storeSlots at h
  split at h
  · obtain ⟨x,-,h⟩ := bind_ok h
    cases h
    rfl
  · obtain ⟨x,hx,h⟩ := bind_ok h
    cases h
    exact setSlots_heap hx

theorem activateBlock_homes {b : Closure} {args : List Oop} (hm : m.exec.homesOk)
    (h : activateBlock env m b args = .ok m') : m'.exec.homesOk := by
  unfold activateBlock at h
  obtain ⟨home,-,h⟩ := bind_ok h
  obtain ⟨a,w,hstart,rfl,hhomes⟩ := enterFrame_homes h
  obtain ⟨⟨l,w₁⟩,hstore,hstart⟩ := bind_ok hstart
  cases hstart
  exact hm.mono (hhomes ▸ List.Sublist.refl _) (by rw [storeSlots_heap hstore])

def HomesAfter : Except (Halt ω) (Machine ω) → Prop
  | .ok m => m.exec.homesOk
  | .error (.returned _ e) => e.homesOk
  | .error _ => True

theorem HomesAfter.lift {r : Except Fault (Machine ω)} (h : ∀ m,r = .ok m → m.exec.homesOk) :
    HomesAfter (liftFault r) := by
  cases r with
  | ok m => exact h m rfl
  | error f => trivial

theorem HomesAfter.bind {α : Type} {r : Except Fault α} {f : α → Except (Halt ω) (Machine ω)}
    (h : ∀ a,r = .ok a → HomesAfter (f a)) : HomesAfter (liftFault r >>= f) := by
  cases r with
  | ok a => exact h a rfl
  | error f => trivial

theorem HomesAfter.charge {f : Machine ω → Except (Halt ω) (Machine ω)}
    (h : ∀ r,HomesAfter (f { m with reductions := r })) :
    HomesAfter (chargeReduction mode m >>= f) := by
  unfold chargeReduction
  dsimp only
  split
  · exact h _
  · split
    · trivial
    · exact h _

theorem Exec.homesOk.pushValue (he : e.homesOk) (v : Oop) : (e.pushValue v).homesOk :=
  he.mono (by rw [pushValue_homes]) (by rw [pushValue_world])

theorem Exec.homesOk.advance (he : e.homesOk) (n : Nat) : (e.advance n).homesOk :=
  he.mono (by rw [advance_homes]) (by rw [advance_world])

theorem Exec.homesOk.setLocals (he : e.homesOk) (l : Locals)
    (hw : e.world.heap.frontier ≤ w.heap.frontier) : (e.setLocals l w).homesOk :=
  he.mono (by rw [setLocals_homes]) (by simpa using hw)

theorem performCall_homes (hm : m.exec.homesOk) (hk : callKeepsHomes env mode m.exec c = true) :
    HomesAfter (performCall env mode m c) := by
  unfold performCall
  unfold callKeepsHomes at hk
  by_cases hprim : methodHasPrim c.code.header = true
  · rw [if_pos hprim] at hk ⊢
    refine .bind (fun isBlock hblock => ?_)
    rw [hblock] at hk
    cases isBlock with
    | true =>
      refine .lift (fun m' h => ?_)
      obtain ⟨b,-,h⟩ := bind_ok h
      exact activateBlock_homes hm h
    | false =>
      rw [if_neg Bool.false_ne_true]
      cases hp : findPrimitive env (calleePrimitive c.code) with
      | none =>
        rw [hp] at hk
        exact .lift (fun m' h => activate_homes hm (by simpa using hk) h)
      | some p =>
        rw [hp] at hk
        dsimp only at hk ⊢
        cases hr : p m.exec (c.receiver :: c.args) with
        | success v e =>
          rw [hr] at hk
          have he : e.homesOk := by simpa using hk
          exact he.pushValue v
        | failure code e =>
          rw [hr] at hk
          simp only [afterPrimitive]
          have hk : e.homesOk ∧ reusesHome mode e c = false := by simpa using hk
          split
          · trivial
          · exact .lift (fun m' h => activate_homes (m := { m with exec := e }) hk.1 hk.2 h)
        | unwound e => trivial
        | aborted => trivial
  · rw [if_neg hprim] at hk ⊢
    exact .lift (fun m' h => activate_homes hm (by simpa using hk) h)

theorem doReturn_homes (hm : m.exec.homesOk) (v : Oop) : HomesAfter (doReturn m v) := by
  have hpop : (framePop m.exec.stack).allFrames.Sublist m.exec.stack.allFrames := by
    unfold framePop CallStack.allFrames
    split
    · rename_i f rest hf
      rw [hf,cons_append]
      exact sublist_cons_self _ _
    · exact List.Sublist.refl _
  have hpopped : Exec.homesOk ⟨m.exec.world,framePop m.exec.stack⟩ :=
    hm.mono (homesOf_sublist hpop) (Nat.le_refl _)
  unfold doReturn
  dsimp only
  split
  · exact hpopped
  · exact hpopped.pushValue v

theorem blockCannotReturn_homes (e : Exec ω) (v : Oop) : HomesAfter (blockCannotReturn env e v) := by
  unfold blockCannotReturn
  dsimp only
  split
  · trivial
  · refine .bind (fun w _ => .bind (fun hs _ => ?_))
    cases hs <;> trivial

theorem nonLocalReturn_homes (hf : m.exec.stack.frames = f :: senders) (hm : m.exec.homesOk) :
    HomesAfter (nonLocalReturn env m f.act senders) := by
  unfold nonLocalReturn
  refine .bind (fun p _ => ?_)
  dsimp only
  split
  · exact blockCannotReturn_homes _ _
  · rename_i home rest hhome
    apply doReturn_homes
    refine hm.mono (homesOf_sublist ?_) (Nat.le_refl _)
    have hsub : (home :: rest).Sublist senders :=
      (hhome ▸ findHome_suffix f.act.context senders).sublist
    change ((home :: rest) ++ m.exec.stack.outer.flatten).Sublist
      (m.exec.stack.frames ++ m.exec.stack.outer.flatten)
    rw [hf]
    exact (hsub.cons f).append_right _

theorem runPrimitive_homes (mode : LoopMode) (hm : m.exec.homesOk)
    (hk : insnKeepsHomes env m insn a = true) :
    HomesAfter (runPrimitive env mode m insn a) := by
  unfold runPrimitive
  unfold insnKeepsHomes at hk
  cases hp : findPrimitive env insn.operand with
  | none => exact hm.advance _
  | some p =>
    rw [hp] at hk
    refine .bind (fun args hargs => ?_)
    rw [hargs] at hk
    dsimp only at hk
    cases hr : p m.exec args with
    | success v e =>
      rw [hr] at hk
      have he : e.homesOk := by simpa using hk
      exact (he.pushValue v).advance _
    | failure code e =>
      rw [hr] at hk
      have he : e.homesOk := by simpa using hk
      simp only [afterPrimitiveInsn]
      split
      · trivial
      · split
        · refine .bind (fun p hnote => ?_)
          obtain ⟨l,w⟩ := p
          exact (he.setLocals l (by rw [noteFailure_heap hnote])).advance _
        · trivial
    | unwound e => trivial
    | aborted => trivial

theorem stayStep_homes (hm : m.exec.homesOk) : HomesAfter (stayStep env m cm insn a) :=
  .bind (fun p hp => hm.setLocals p.1 (localStep_heap hp))

theorem step_homes (hm : m.exec.homesOk) (hk : stepKeepsHomes env mode m = true) :
    HomesAfter (step env mode m) := by
  cases hf : m.exec.stack.frames with
  | nil =>
    simp only [step,hf]
    trivial
  | cons f senders =>
    rw [step_cons hf]
    refine .bind (fun cm hcm => ?_)
    have hcm := defined_ok hcm
    simp only [stepKeepsHomes,hf,hcm] at hk
    unfold dispatch
    dsimp only
    cases hop : control (Opcode.ofCode (decodeInsn cm.bytecodes f.act.pc).opcode) with
    | send isSuper =>
      simp only [hop] at hk ⊢
      refine .charge (fun r => .bind (fun p hp => ?_))
      obtain ⟨c,l,w⟩ := p
      rw [show prepareSend env isSuper cm _ f.act m.exec.world = .ok (c,l,w) from hp] at hk
      exact performCall_homes (hm.setLocals l (prepareSend_fresh hp).frontier) hk
    | ret => exact .bind (fun v _ => doReturn_homes hm v)
    | nonLocalReturn => exact nonLocalReturn_homes hf hm
    | primitive =>
      simp only [hop] at hk
      exact runPrimitive_homes mode hm hk
    | jumpBack =>
      dsimp only
      rw [← bind_pure (stayStep env m cm _ f.act >>= chargeReduction mode),bind_assoc]
      unfold stayStep
      rw [bind_assoc]
      refine .bind (fun p hp => ?_)
      exact .charge (fun _ => hm.setLocals p.1 (localStep_heap hp))
    | stay => exact stayStep_homes hm

/-! ### One step of the thread -/

def Vm.homesOk (vm : Vm ω) : Prop := ∀ x,HomesOk (vm.actors x).stack (vm.actors x).heap

/-- Frames may go and heaps grow. -/
structure Vm.Shrinks (vm vm' : Vm ω) : Prop where
  homes : ∀ x,(homesOf (vm'.actors x).stack.allFrames).Sublist
    (homesOf (vm.actors x).stack.allFrames)
  heap : ∀ x,(vm.actors x).heap.frontier ≤ (vm'.actors x).heap.frontier

variable {vm vm' vm₁ : Vm ω}

theorem Vm.Shrinks.trans (h : vm.Shrinks vm₁) (h' : vm₁.Shrinks vm') : vm.Shrinks vm' :=
  ⟨fun x => (h'.homes x).trans (h.homes x),fun x => Nat.le_trans (h.heap x) (h'.heap x)⟩

theorem Vm.Shrinks.homesOk (h : vm.Shrinks vm') (hok : vm.homesOk) : vm'.homesOk :=
  fun x => (hok x).mono (h.homes x) (h.heap x)

theorem setActor_shrinks {a : Nat} {r : ActorRes}
    (hs : (homesOf r.stack.allFrames).Sublist (homesOf (vm.actors a).stack.allFrames))
    (hf : (vm.actors a).heap.frontier ≤ r.heap.frontier) : vm.Shrinks (vm.setActor a r) := by
  constructor <;> intro x <;> by_cases hx : x = a
  · subst hx
    simpa [Vm.setActor] using hs
  · simp [Vm.setActor,hx]
  · subst hx
    simpa [Vm.setActor] using hf
  · simp [Vm.setActor,hx]

theorem setHandlers_shrinks (vm : Vm ω) (a : Nat) (hs : List Handler) :
    vm.Shrinks (vm.setHandlers a hs) :=
  setActor_shrinks (List.Sublist.refl _) (Nat.le_refl _)

theorem setSignaled_shrinks (vm : Vm ω) (a : Nat) (exc : Oop) : vm.Shrinks (vm.setSignaled a exc) :=
  setActor_shrinks (List.Sublist.refl _) (Nat.le_refl _)

theorem setStack_shrinks {a : Nat}
    (hs : (homesOf k.allFrames).Sublist (homesOf (vm.actors a).stack.allFrames)) :
    vm.Shrinks (vm.setStack a k) :=
  setActor_shrinks hs (Nat.le_refl _)

theorem setExec_shrinks (hs : (homesOf e.stack.allFrames).Sublist (homesOf vm.own.stack.allFrames))
    (hf : vm.own.heap.frontier ≤ e.world.heap.frontier) : vm.Shrinks (vm.setExec e) := by
  have h : vm.Shrinks (vm.setActor vm.loop.actor
      { vm.own with heap := e.world.heap,stack := e.stack,signaled := e.world.signaled }) :=
    setActor_shrinks hs hf
  exact ⟨h.homes,h.heap⟩

theorem blockFrame_homes {mem mem' : Memory} {b : Closure} {args : List Oop} {slots : SlotPtr}
    (h : blockFrame env mem k b args = .ok (mem',k',slots)) :
    homesOf k'.allFrames = homesOf k.allFrames := by
  have hact : ∀ {addr top : Nat} {a : Activation},a.marker = false →
      homesOf (CallStack.setAct { k with top := top,frames := ⟨addr,a⟩ :: k.frames } a).allFrames =
        homesOf k.allFrames := by
    intro addr top a ha
    simp [CallStack.setAct,CallStack.allFrames,homesOf_cons,ha]
  unfold blockFrame at h
  obtain ⟨home,-,h⟩ := bind_ok h
  dsimp only at h
  split at h
  · cases h
  · rename_i k₁ hk₁
    obtain ⟨addr,top,rfl⟩ := framePush_some hk₁
    split at h
    · obtain ⟨l,-,h⟩ := bind_ok h
      cases h
      simp [CallStack.setAct,CallStack.allFrames,homesOf_cons,blockActivation,newActivation]
    · obtain ⟨w,-,h⟩ := bind_ok h
      cases h
      exact hact rfl

theorem evalBlock_shrinks {block : Oop} {args : List Oop}
    (h : evalBlock env vm p block args = .ok vm') : vm.Shrinks vm' := by
  unfold evalBlock at h
  obtain ⟨b,-,h⟩ := bindVm_ok h
  obtain ⟨⟨mem,k,slots⟩,hframe,h⟩ := bindVm_ok h
  cases h
  have hs : vm.Shrinks (vm.setStack rootActor k) := by
    refine setStack_shrinks ?_
    rw [blockFrame_homes hframe]
    exact List.Sublist.refl _
  exact ⟨hs.homes,hs.heap⟩

theorem unnest_sublist (k : CallStack) (depth : Nat) :
    (unnest k depth).allFrames.Sublist k.allFrames := by
  unfold unnest
  split
  · rename_i fs outer hdrop
    have hsplit := congrArg List.flatten (take_append_drop (k.outer.length - (depth + 1)) k.outer)
    rw [hdrop,flatten_append,flatten_cons] at hsplit
    simp only [CallStack.allFrames,← hsplit]
    exact (sublist_append_right _ _).trans (sublist_append_right _ _)
  · exact List.Sublist.refl _

theorem popLoop_sublist (k : CallStack) : k.popLoop.allFrames.Sublist k.allFrames := by
  unfold CallStack.popLoop
  split
  · rename_i fs outer ho
    simp only [CallStack.allFrames,ho,flatten_cons]
    exact sublist_append_right _ _
  · exact List.Sublist.refl _

theorem longjmp_shrinks {target : Handler} (h : longjmp env vm target = .ok vm') :
    vm.Shrinks vm' := by
  unfold longjmp at h
  split at h
  · cases h
  split at h
  · rename_i p below _
    split at h
    · have hk : vm.Shrinks (vm.setStack p.caller.actor
          { (if p.caller.actor = rootActor then unnest (vm.actors p.caller.actor).stack p.depth
              else (vm.actors p.caller.actor).stack) with top := p.savedTop }) := by
        refine setStack_shrinks (homesOf_sublist ?_)
        split
        · exact unnest_sublist _ _
        · exact List.Sublist.refl _
      have he := evalBlock_shrinks h
      exact hk.trans ⟨he.homes,he.heap⟩
    · cases h
  · cases h

theorem unwind_shrinks {exception : Oop} {target : Handler} {chain : List Handler}
    (h : unwind env vm p exception target chain = .ok vm') : vm.Shrinks vm' := by
  induction chain with
  | nil => cases h
  | cons g prev ih =>
    unfold unwind at h
    have hset := setHandlers_shrinks vm p.caller.actor prev
    split at h
    · exact (hset.trans (setSignaled_shrinks _ _ _)).trans (longjmp_shrinks h)
    · split at h
      · have he := evalBlock_shrinks h
        exact hset.trans ⟨he.homes,he.heap⟩
      · exact ih h

theorem signalException_shrinks {len : Option Nat} {exception : Oop}
    (h : signalException env vm len exception = .ok vm') : vm.Shrinks vm' := by
  unfold signalException at h
  obtain ⟨o,-,h⟩ := bindVm_ok h
  cases o with
  | none => cases h
  | some target =>
    have hu := unwind_shrinks h
    exact ⟨hu.homes,hu.heap⟩

theorem callSpecial_shrinks {len : Option Nat} {args : List Oop} {sp : Special}
    (h : callSpecial env vm len args sp = .ok vm') : vm.Shrinks vm' := by
  have henter : ∀ {hs : List Handler} {u : Vm ω} {p : Pending} {block : Oop},
      evalBlock env u p block [] = .ok vm' →
      u.actors = (vm.setHandlers vm.loop.actor hs).actors → vm.Shrinks vm' := by
    intro hs u p block h hu
    have he := evalBlock_shrinks h
    have hset := setHandlers_shrinks vm vm.loop.actor hs
    exact hset.trans ⟨hu ▸ he.homes,hu ▸ he.heap⟩
  cases sp with
  | onDo =>
    simp only [callSpecial,primOnDo] at h
    split at h
    · exact henter h rfl
    · cases h
  | ensure =>
    simp only [callSpecial,primEnsure] at h
    split at h
    · exact henter h rfl
    · cases h
  | signal =>
    simp only [callSpecial,primSignal] at h
    split at h
    · exact signalException_shrinks h
    · cases h
  | failedWait reason =>
    simp only [callSpecial,signalFutureFailure] at h
    split at h
    · cases h
    · rename_i exc w halloc
      obtain ⟨w',hw',h⟩ := bindVm_ok h
      refine (setExec_shrinks (List.Sublist.refl _) ?_).trans (signalException_shrinks h)
      have : vm.own.heap.frontier < w.heap.frontier := (alloc_heap halloc).2
      rw [setSlots_heap hw']
      omega

theorem succeed_shrinks (vm : Vm ω) (p : Pending) (v : Oop) : vm.Shrinks (succeed vm p v) := by
  unfold succeed
  refine setExec_shrinks ?_ ?_
  · split
    · rw [advance_homes,pushValue_homes]
    · rw [pushValue_homes]
  · split
    · simp [Vm.world]
    · simp [Vm.world]

theorem resume_shrinks (h : resume env vm p v = .ok vm') : vm.Shrinks vm' := by
  unfold resume at h
  have hset := setHandlers_shrinks vm p.caller.actor vm.own.handlers.tail
  split at h
  · cases h
    exact hset.trans (succeed_shrinks _ _ _)
  · cases h
    exact succeed_shrinks _ _ _
  · have he := evalBlock_shrinks h
    exact hset.trans ⟨he.homes,he.heap⟩
  · cases h
    exact succeed_shrinks _ _ _
  · exact unwind_shrinks h

theorem finishLoop_shrinks (h : finishLoop env vm v = .ok vm') : vm.Shrinks vm' := by
  unfold finishLoop at h
  split at h
  · cases h
  · have hpop : vm.Shrinks (vm.setStack rootActor (vm.actors rootActor).stack.popLoop) :=
      setStack_shrinks (homesOf_sublist (popLoop_sublist _))
    have hr := resume_shrinks h
    exact hpop.trans ⟨hr.homes,hr.heap⟩

theorem vmBlockCannotReturn_shrinks {result : Oop}
    (h : vmBlockCannotReturn env vm result = .ok vm') : vm.Shrinks vm' := by
  unfold vmBlockCannotReturn at h
  obtain ⟨⟨exc,vm₂⟩,hnew,h⟩ := bind_ok h
  have hgrow : vm.Shrinks vm₂ := by
    unfold newBlockCannotReturn at hnew
    split at hnew
    · cases hnew
    · rename_i exc w halloc
      obtain ⟨w',hw',hnew⟩ := bind_ok hnew
      cases hnew
      refine setExec_shrinks (List.Sublist.refl _) ?_
      have : vm.own.heap.frontier < w.heap.frontier := (alloc_heap halloc).2
      cases hset : w.setSlots exc 0 [env.nilOop,env.nilOop,result,env.nilOop] with
      | error f =>
        rw [hset] at hw'
        cases hw'
      | ok w'' =>
        rw [hset] at hw'
        cases hw'
        rw [setSlots_heap hset]
        omega
  obtain ⟨o,-,h⟩ := bindVm_ok h
  cases o with
  | none => cases h
  | some target =>
    exact hgrow.trans ((setHandlers_shrinks _ _ _).trans ((setSignaled_shrinks _ _ _).trans
      (longjmp_shrinks h)))

theorem deadReturn_shrinks {result : Oop} (h : deadReturn vm f senders = some (result,vm₁)) :
    vm.Shrinks vm₁ := by
  unfold deadReturn at h
  split at h
  · cases h
    refine setExec_shrinks (by rw [setLocals_homes]; exact List.Sublist.refl _) ?_
    rw [setLocals_world]
    exact Nat.le_refl _
  · cases h

theorem setExec_homesOk (hok : vm.homesOk) (he : e.homesOk) : (vm.setExec e).homesOk := by
  intro x
  by_cases hx : x = vm.loop.actor
  · subst hx
    simp only [Vm.setExec,Vm.setActor,Function.update_self]
    exact he
  · simpa [Vm.setExec,Vm.setActor,hx] using hok x

theorem vmStep_homes {failed : World ω → List Oop → Option Oop} (hok : vm.homesOk)
    (hk : keepsHomes env failed vm = true) (h : vmStep env failed vm = .ok vm') :
    vm'.homesOk := by
  have hown : vm.machine.exec.homesOk := hok vm.loop.actor
  cases vmStep_move h with
  | inner m hsp hs hm =>
    rw [keepsHomes,hsp] at hk
    have hafter := step_homes hown (by simpa using hk)
    rw [hs] at hafter
    subst hm
    exact setExec_homesOk hok hafter
  | finish e v hsp hs hf =>
    rw [keepsHomes,hsp] at hk
    have hafter := step_homes hown (by simpa using hk)
    rw [hs] at hafter
    exact (finishLoop_shrinks hf).homesOk (setExec_homesOk hok hafter)
  | call m len args sp hprep hc =>
    have hm : (vm.setMachine m).homesOk := by
      rcases hprep with rfl | ⟨isSuper,cm,insn,a,c,l,w,r,hsend,rfl⟩
      · rw [setMachine_machine]
        exact hok
      · exact setExec_homesOk hok (hown.setLocals l (prepareSend_fresh hsend).frontier)
    exact (callSpecial_shrinks hc).homesOk hm
  | dead f senders cm insn vm₁ result _ _ hdead hb =>
    exact ((deadReturn_shrinks hdead).trans (vmBlockCannotReturn_shrinks hb)).homesOk hok

/-! ### Non-local returns -/

theorem findHome_nil : findHome ctx fs = [] ↔ ∀ g ∈ fs,¬g.isHome ctx := by
  induction fs with
  | nil => simp [findHome]
  | cons f fs ih =>
    unfold findHome
    split
    · rename_i hf
      simp [Frame.isHome,hf]
    · rename_i hf
      rw [ih,forall_mem_cons]
      exact ⟨fun h => ⟨hf,h⟩,fun h => h.2⟩

theorem findHome_append {above : List Frame} (rest : List Frame)
    (habove : ∀ f ∈ above,¬f.isHome ctx) (hg : g.isHome ctx) :
    findHome ctx (above ++ g :: rest) = g :: rest := by
  induction above with
  | nil => simp [findHome,hg.1,hg.2]
  | cons f above ih =>
    have hf : ¬(f.act.marker = true ∧ f.act.context = ctx) := habove f mem_cons_self
    rw [cons_append,findHome,if_neg hf]
    exact ih (fun f hf => habove f (mem_cons_of_mem _ hf))

theorem HomesOk.unique (hk : HomesOk k h) {above rest : List Frame}
    (hs : k.allFrames = above ++ g :: rest) (hg : g.isHome ctx) :
    ∀ f ∈ above ++ rest,¬f.isHome ctx := by
  have hd := hk.distinct
  rw [hs,homesOf_append,homesOf_cons,if_pos hg.1,nodup_append,nodup_cons] at hd
  intro f hf hfh
  rcases mem_append.mp hf with hf | hf
  · exact hd.2.2 _ (mem_homesOf hf hfh.1) _ mem_cons_self (hfh.2.trans hg.2.symm)
  · exact hd.2.1.1 (hg.2 ▸ hfh.2 ▸ mem_homesOf hf hfh.1)

theorem Vm.returns.step (failed : World ω → List Oop → Option Oop) (h : vm.returns env f senders v)
    :
    vm.own.stack.frames = f :: senders ∧ (∃ stack,f.act.stack = v :: stack) ∧
      vmStep env failed vm = match deadReturn vm f senders with
        | some (result,vm) => vmBlockCannotReturn env vm result
        | none => afterStep env vm (nonLocalReturn env vm.machine f.act senders) := by
  obtain ⟨cm,insn,stack,hnext,hop,hstack⟩ := h
  cases hf : vm.own.stack.frames with
  | nil => simp [Vm.nextInsn,hf] at hnext
  | cons f' senders' =>
    simp only [Vm.nextInsn,hf] at hnext
    cases hcm : env.methods f'.act.method with
    | none => simp [hcm] at hnext
    | some cm' =>
      simp only [hcm,Option.map_some,Option.some.injEq,Prod.mk.injEq] at hnext
      obtain ⟨rfl,rfl,rfl,rfl⟩ := hnext
      refine ⟨rfl,⟨stack,hstack⟩,?_⟩
      have hstep : SmalltalkA.step env (modeOf vm.loop) vm.machine =
          nonLocalReturn env vm.machine f'.act senders' := by
        rw [step_dispatch (m := vm.machine) hf hcm,dispatch]
        simp only [hop]
      cases hdead : deadReturn vm f' senders' with
      | none => simp only [vmStep,hf,hcm,hop,hstep,hdead]
      | some r => simp only [vmStep,hf,hcm,hop,hdead]

theorem deadReturn_some (vm : Vm ω) (hs : ∃ stack,f.act.stack = v :: stack)
    (hnone : findHome f.act.context senders = []) :
    ∃ vm₁,deadReturn vm f senders = some (v,vm₁) := by
  obtain ⟨stack,hs⟩ := hs
  simp [deadReturn,hs,hnone]

theorem return_to_home {failed : World ω → List Oop → Option Oop} {rest : List Frame}
    (h : vm.returns env f senders v) (hfind : findHome f.act.context senders = g :: rest) :
    vmStep env failed vm = returnPast env vm g v rest := by
  obtain ⟨hf,⟨stack,hs⟩,hstep⟩ := h.step failed
  have hdead : deadReturn vm f senders = none := by simp [deadReturn,hs,hfind]
  rw [hstep,hdead]
  have hnlr : nonLocalReturn env vm.machine f.act senders =
      doReturn (vm.machine.setStack { vm.own.stack with top := g.addr,frames := g :: rest }) v := by
    simp only [nonLocalReturn,Locals.pop,hs,hfind]
    rfl
  dsimp only
  rw [hnlr]
  cases rest with
  | nil =>
    rw [doReturn_last rfl]
    rfl
  | cons sender rest =>
    rw [doReturn_cons rfl]
    rfl

/-- If all steps keep the homes, a non-local return goes where it should if no activation of a loop
around is its home, and on a thread of one actor only then. -/
theorem nonlocal_return_targets_home (failed : World ω → List Oop → Option Oop) {vm₀ vm : Vm ω}
    (h₀ : vm₀.homesOk)
    (hrun : Path (threadStep env failed) (fun vm _ => keepsHomes env failed vm = true) vm₀ vm) :
    (homeInLoop env vm → TargetsHome env failed vm) ∧
      ((∀ p ∈ vm.pending,p.caller.actor = vm.loop.actor) →
        TargetsHome env failed vm → homeInLoop env vm) := by
  have hok : vm.homesOk := by
    refine hrun.invariant (I := Vm.homesOk) h₀ ?_
    intro vm₁ _ vm₂ hok hk hs
    exact vmStep_homes hok hk (threadStep_some hs)
  have hown := hok vm.loop.actor
  constructor
  · intro hin
    refine ⟨fun f senders v hr g hg hhome => ?_,fun f senders v hr hno => ?_⟩
    · have hg : g ∈ senders := by
        rcases mem_append.mp hg with hg | hg
        · exact hg
        · exact absurd hhome (hin f senders v hr g hg)
      obtain ⟨above,rest,rfl⟩ := append_of_mem hg
      refine ⟨above,rest,rfl,return_to_home hr (findHome_append rest ?_ hhome)⟩
      have hframes : (vm.actors vm.loop.actor).stack.allFrames =
          (f :: above) ++ g :: (rest ++ vm.own.stack.outer.flatten) := by
        have hf := (hr.step failed).1
        simp only [Vm.own] at hf
        simp [CallStack.allFrames,hf,Vm.own]
      intro f' hf'
      exact hown.unique hframes hhome f' (by simp [hf'])
    · have hnone : findHome f.act.context senders = [] :=
        findHome_nil.mpr (fun g hg => hno g (mem_append_left _ hg))
      obtain ⟨hf,hs,hstep⟩ := hr.step failed
      obtain ⟨vm₁,hdead⟩ := deadReturn_some vm hs hnone
      exact ⟨vm₁,hdead,by rw [hstep,hdead]⟩
  · intro hone htarget f senders v hr g hg hhome
    obtain ⟨above,rest,rfl,-⟩ := htarget.home f senders v hr g (mem_append_right _ hg) hhome
    have hg : g ∈ vm.own.stack.outer.flatten := by
      rcases mem_append.mp hg with hg | hg
      · exact hg
      · obtain ⟨p,hp,hg⟩ := mem_flatMap.mp hg
        simp [hone p hp] at hg
    have hframes : (vm.actors vm.loop.actor).stack.allFrames =
        (f :: above) ++ g :: (rest ++ vm.own.stack.outer.flatten) := by
      have hf := (hr.step failed).1
      simp only [Vm.own] at hf
      simp [CallStack.allFrames,hf,Vm.own]
    exact hown.unique hframes hhome g (by simp [hg]) hhome

end

/-! ### A home within the loop and one outside -/

/-- `^[^1] value`. -/
def valueMain : CompiledMethod :=
  ⟨methodHeader 0 0 3 0 false true,[1392,336,512],
    [0x61,0,0x0E,0,0x35,0,0x30,0,0x20,1,0x30,0]⟩

theorem protectStart_homesOk (a : Nat) : (protectStart a).homesOk := by
  intro x
  have hempty : homesOf ((protectStart a).actors x).stack.allFrames = [] := by
    simp only [protectStart,startVm]
    split <;> rfl
  refine ⟨by simp [hempty],by simp [hempty],?_⟩
  simp only [protectStart,startVm,protectWorld,Heap.frontier]
  omega

/-- At the `^` of `^[^1] value`. -/
theorem nonlocal_return_within_loop : ∃ vm,TargetsHome (protectEnv valueMain) noFailure vm ∧
      (vm.nextInsn (protectEnv valueMain)).map (fun i => i.2.2.2.opcode) = some 0x35 := by
  have hpath : Path (threadStep (protectEnv valueMain) noFailure)
      (fun vm _ => keepsHomes (protectEnv valueMain) noFailure vm = true)
      (protectStart rootActor) _ := runAll_path (List.replicate 5 ()) rfl
  have htarget := (nonlocal_return_targets_home noFailure (protectStart_homesOk rootActor) hpath).1
  exact ⟨_,htarget (fun f senders v hr g hg => by cases hg),rfl⟩

/-- At the `^` of `[[^1] ensure: [2]] on: BlockCannotReturn do: [:e | 3]` the home, waiting two
loops down, is not returned to. -/
theorem nonlocal_return_misses_home : (protectStart rootActor).homesOk ∧
      ∃ vm,Path (threadStep (protectEnv returnMain) noFailure)
          (fun vm _ => keepsHomes (protectEnv returnMain) noFailure vm = true)
          (protectStart rootActor) vm ∧ ¬TargetsHome (protectEnv returnMain) noFailure vm := by
  refine ⟨protectStart_homesOk rootActor,_,runAll_path (List.replicate 10 ()) rfl,
    fun htarget => ?_⟩
  obtain ⟨above,rest,h,-⟩ := htarget.home _ _ _ ⟨_,_,_,rfl,rfl,rfl⟩ _
    (mem_append_right _ (.tail _ (.head _))) ⟨rfl,rfl⟩
  cases above <;> cases h

end SmalltalkA
