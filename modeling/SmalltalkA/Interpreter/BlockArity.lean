import SmalltalkA.Interpreter.SharedContext

/-! The number of arguments of a block: `value` and its like enter a block from `OP_SEND`, `on:do:`
and `ensure:` through `sta_eval_block`. Both store the arguments from the first parameter on,
whatever number the closure records. -/

set_option autoImplicit false

namespace SmalltalkA

open List

section

variable {ω : Type}

/-- The two ways to evaluate a block: a send of a `value` message with its method found, and
`sta_eval_block`. -/
inductive BlockCall (ω : Type)
  | send (mode : LoopMode) (m : Machine ω) (c : Call)
  | eval (vm : Vm ω) (p : Pending) (block : Oop) (args : List Oop)

namespace BlockCall

def block : BlockCall ω → Oop
  | .send _ _ c => c.receiver
  | .eval _ _ block _ => block

def args : BlockCall ω → List Oop
  | .send _ _ c => c.args
  | .eval _ _ _ args => args

def mem : BlockCall ω → Memory
  | .send _ m _ => m.exec.world.mem
  | .eval vm _ _ _ => vm.mem

def Valid : BlockCall ω → Prop
  | .send _ m c => methodHasPrim c.code.header = true ∧
      isBlockActivation m.exec.world.mem (calleePrimitive c.code) c.receiver = .ok true
  | .eval _ _ _ _ => True

def after (env : Env ω) : BlockCall ω → Option (Memory × Activation)
  | .send mode m c =>
    match performCall env mode m c with
    | .ok m' => m'.current.map (fun a => (m'.exec.world.mem,a))
    | .error _ => none
  | .eval vm p block args =>
    match evalBlock env vm p block args with
    | .ok vm' => (vm'.actors rootActor).stack.frames.head?.map (fun f => (vm'.mem,f.act))
    | .error _ => none

def numArgs (call : BlockCall ω) : Option Int := (call.mem.slot call.block 1).map smallIntVal

end BlockCall

def Closure.Entered (b : Closure) (a : Activation) : Prop :=
  a.method = b.method ∧ a.receiver = b.receiver ∧ a.context = b.context ∧ a.pc = b.startPc

/-- The slots of `n` parameters. -/
def Closure.Parameter (b : Closure) (n j : Nat) : Prop := b.tempOff ≤ j ∧ j < b.tempOff + n

/-- Nothing but the `n` parameters is written, in the context or in the new frame, whose other slots
are nil. -/
structure OnlyParameters (nilOop : Oop) (b : Closure) (n : Nat) (mem mem' : Memory)
    (a : Activation) : Prop where
  memory : ∀ p j,¬ (b.context ≠ 0 ∧ p = b.context ∧ b.Parameter n j) → mem'.slot p j = mem.slot p j
  frame : ∀ j v,¬ (b.context = 0 ∧ b.Parameter n j) → a.temps[j]? = some v → v = nilOop

/-- With another number of arguments the block is not entered, with the right one only its
parameters are written. -/
structure ArityEnforced (nilOop : Oop) (b : Closure) (n : Nat) (args : List Oop)
    (mem mem' : Memory) (a : Activation) : Prop where
  mismatch : args.length ≠ n → ¬ b.Entered a
  matching : args.length = n → OnlyParameters nilOop b n mem mem' a

variable {env : Env ω}

theorem setTemps_other {vs : List Oop} : ∀ {l l' : Locals} {i : Nat},l.setTemps i vs = .ok l' →
      l'.pc = l.pc ∧ ∀ j,¬ (i ≤ j ∧ j < i + vs.length) → l'.temps[j]? = l.temps[j]? := by
  induction vs with
  | nil =>
    intro l l' i h
    cases h
    exact ⟨rfl,fun _ _ => rfl⟩
  | cons v vs ih =>
    intro l l' i h
    obtain ⟨l₁,h₁,h⟩ := bind_ok h
    obtain ⟨hpc,hother⟩ := ih h
    unfold Locals.setTemp at h₁
    split at h₁ <;> cases h₁
    refine ⟨hpc,fun j hj => ?_⟩
    simp only [length_cons] at hj
    rw [hother j (by omega)]
    exact getElem?_set_ne (by omega)

section

variable {home : CompiledMethod} {b : Closure} {args : List Oop}

theorem blockActivation_nil {j : Nat} {v : Oop}
    (h : (blockActivation env home b).temps[j]? = some v) : v = env.nilOop := by
  have hmem : v ∈ (blockActivation env home b).temps := mem_of_getElem? h
  simp only [blockActivation,newActivation,nil_append] at hmem
  exact eq_of_mem_replicate hmem

theorem inline_block {l : Locals} (hctx : b.context = 0)
    (h : (blockActivation env home b).toLocals.setTemps b.tempOff args = .ok l) (mem : Memory) :
    b.Entered { blockActivation env home b with toLocals := l } ∧
      OnlyParameters env.nilOop b args.length mem mem
        { blockActivation env home b with toLocals := l } := by
  obtain ⟨hpc,hother⟩ := setTemps_other h
  refine ⟨⟨rfl,rfl,rfl,hpc⟩,fun _ _ _ => rfl,fun j v hj hv => ?_⟩
  rw [hother j (fun hin => hj ⟨hctx,hin⟩)] at hv
  exact blockActivation_nil hv

theorem context_block {α : Type} {w w' : World α} (hctx : b.context ≠ 0)
    (h : w.setSlots b.context b.tempOff args = .ok w') :
    b.Entered (blockActivation env home b) ∧
      OnlyParameters env.nilOop b args.length w.mem w'.mem (blockActivation env home b) := by
  refine ⟨⟨rfl,rfl,rfl,rfl⟩,fun p j hj => ?_,fun j v _ hv => blockActivation_nil hv⟩
  rw [setSlots_slots h]
  exact writeSlots_outside fun hp hlow hhigh => hj ⟨hctx,hp,hlow,hhigh⟩

theorem activateBlock_enters {m m' : Machine ω} (h : activateBlock env m b args = .ok m') :
    ∃ a,m'.current = some a ∧ b.Entered a ∧
      OnlyParameters env.nilOop b args.length m.exec.world.mem m'.exec.world.mem a := by
  unfold activateBlock enterFrame at h
  obtain ⟨home,-,h⟩ := bind_ok h
  dsimp only at h
  split at h
  · cases h
  · rename_i k hk
    obtain ⟨⟨a,w⟩,hstart,h⟩ := bind_ok h
    cases h
    obtain ⟨addr,top,rfl⟩ := framePush_some hk
    obtain ⟨⟨l,w₁⟩,hstore,hstart⟩ := bind_ok hstart
    cases hstart
    refine ⟨_,rfl,?_⟩
    by_cases hctx : b.context = 0
    · have hptr : effectiveSlots (blockActivation env home b) = .inline := if_pos hctx
      rw [hptr] at hstore
      obtain ⟨l₁,hl,hstore⟩ := bind_ok hstore
      cases hstore
      exact inline_block hctx hl _
    · have hptr : effectiveSlots (blockActivation env home b) = .payload b.context := if_neg hctx
      rw [hptr] at hstore
      obtain ⟨w₂,hw,hstore⟩ := bind_ok hstore
      cases hstore
      exact context_block hctx hw

theorem blockFrame_enters {mem mem' : Memory} {k k' : CallStack} {slots : SlotPtr}
    (h : blockFrame env mem k b args = .ok (mem',k',slots)) :
    ∃ f,k'.frames.head? = some f ∧ b.Entered f.act ∧
      OnlyParameters env.nilOop b args.length mem mem' f.act := by
  unfold blockFrame at h
  obtain ⟨home,-,h⟩ := bind_ok h
  dsimp only at h
  split at h
  · cases h
  · rename_i k₁ hk
    obtain ⟨addr,top,rfl⟩ := framePush_some hk
    by_cases hctx : b.context = 0
    · have hptr : effectiveSlots (blockActivation env home b) = .inline := if_pos hctx
      rw [hptr] at h
      obtain ⟨l,hl,h⟩ := bind_ok h
      cases h
      exact ⟨_,rfl,inline_block hctx hl _⟩
    · have hptr : effectiveSlots (blockActivation env home b) = .payload b.context := if_neg hctx
      rw [hptr] at h
      obtain ⟨w,hw,h⟩ := bind_ok h
      cases h
      exact ⟨_,rfl,context_block hctx hw⟩

theorem evalBlock_enters {vm vm' : Vm ω} {p : Pending} {block : Oop}
    (hb : readClosure vm.mem block = .ok b) (h : evalBlock env vm p block args = .ok vm') :
    ∃ f,(vm'.actors rootActor).stack.frames.head? = some f ∧ b.Entered f.act ∧
      OnlyParameters env.nilOop b args.length vm.mem vm'.mem f.act := by
  unfold evalBlock at h
  obtain ⟨b',hread,h⟩ := bindVm_ok h
  cases hb.symm.trans hread
  obtain ⟨⟨mem,k,slots⟩,hframe,h⟩ := bindVm_ok h
  cases h
  obtain ⟨f,hf,henter⟩ := blockFrame_enters hframe
  exact ⟨f,by simpa [Vm.setStack,Vm.setActor] using hf,henter⟩

theorem performCall_enters {mode : LoopMode} {m m' : Machine ω} {c : Call}
    (hvalid : (BlockCall.send mode m c).Valid)
    (hb : readClosure m.exec.world.mem c.receiver = .ok b) (h : performCall env mode m c = .ok m') :
    ∃ a,m'.current = some a ∧ b.Entered a ∧
      OnlyParameters env.nilOop b c.args.length m.exec.world.mem m'.exec.world.mem a := by
  obtain ⟨hprim,hblock⟩ := hvalid
  have hact : performCall env mode m c = liftFault (activateBlock env m b c.args) := by
    simp only [performCall,hprim,if_true,hblock,hb]
    rfl
  rw [hact] at h
  exact activateBlock_enters (liftFault_ok h)

/-- A block is entered with any number of arguments. -/
theorem block_arity_iff {call : BlockCall ω} {n : Nat} {mem' : Memory} {a : Activation}
    (hvalid : call.Valid) (hb : readClosure call.mem call.block = .ok b)
    (hn : call.numArgs = some n) (hafter : call.after env = some (mem',a)) :
    ArityEnforced env.nilOop b n call.args call.mem mem' a ↔ call.args.length = n := by
  have hentered : b.Entered a ∧ OnlyParameters env.nilOop b call.args.length call.mem mem' a := by
    cases call with
    | send mode m c =>
      obtain ⟨m',hcall,hafter⟩ : ∃ m',performCall env mode m c = .ok m' ∧
          m'.current.map (fun a => (m'.exec.world.mem,a)) = some (mem',a) := by
        simp only [BlockCall.after] at hafter
        split at hafter
        · exact ⟨_,‹_›,hafter⟩
        · cases hafter
      obtain ⟨a',hcurrent,henter⟩ := performCall_enters hvalid hb hcall
      rw [hcurrent] at hafter
      cases hafter
      exact henter
    | eval vm p block args =>
      obtain ⟨vm',hcall,hafter⟩ : ∃ vm',evalBlock env vm p block args = .ok vm' ∧
          (vm'.actors rootActor).stack.frames.head?.map (fun f => (vm'.mem,f.act)) =
            some (mem',a) := by
        simp only [BlockCall.after] at hafter
        split at hafter
        · exact ⟨_,‹_›,hafter⟩
        · cases hafter
      obtain ⟨f,hf,henter⟩ := evalBlock_enters hb hcall
      rw [hf] at hafter
      cases hafter
      exact henter
  constructor
  · intro h
    by_contra hne
    exact h.mismatch hne hentered.1
  · rintro rfl
    exact ⟨fun hne => absurd rfl hne,fun _ => hentered.2⟩

end

end

/-! A block without parameters at 96 whose method has one variable. -/

def arityHome : CompiledMethod := ⟨methodHeader 0 1 0 0 false false,[],[0x30]⟩

def arityValue : CompiledMethod := ⟨methodHeader 1 1 0 82 true false,[],[0x52,82,0x31,0]⟩

def arityEnv : Env Unit where
  nilOop := 16
  trueOop := 32
  falseOop := 48
  doesNotUnderstand := 0
  methods := fun o =>
    if o = 1024 then some arityHome else if o = 1040 then some arityValue else none
  selectorArity := fun _ => 1
  methodDictLookup := fun _ _ _ => 0
  primitives := fun _ => none

/-- The machine that evaluates a block with `numArgs` parameters. -/
def arityMachine (numArgs : Int) : Machine Unit :=
  enterLoop ⟨⟨⟨8192,4096,0⟩,fun o =>
    if o = 96 then some ⟨clsBlockClosure,0,0,0,[smallIntOop 0,smallIntOop numArgs,1024,16,
      smallIntOop 0]⟩ else none,[],[],0,()⟩,⟨0,none,64,[⟨0,newActivation 16 0 1024 16 []⟩],[]⟩⟩

/-- `value: 7` sent to the block. -/
def arityCall (numArgs : Int) : BlockCall Unit :=
  .send (sourceMode false) (arityMachine numArgs) ⟨1040,arityValue,96,[smallIntOop 7],false⟩

def arityClosure : Closure := ⟨0,1024,16,0,0⟩

theorem block_arity_one : ∃ mem' a,(arityCall 1).after arityEnv = some (mem',a) ∧
      ArityEnforced 16 arityClosure 1 [smallIntOop 7] (arityCall 1).mem mem' a := by
  refine ⟨_,_,rfl,?_⟩
  exact (@block_arity_iff Unit arityEnv arityClosure (arityCall 1) 1 _ _ ⟨rfl,rfl⟩ rfl rfl rfl).mpr
    rfl

/-- The argument of `value:` takes the place of the variable, which is not a parameter. -/
theorem block_arity_unchecked :
    (arityCall 0).Valid ∧ readClosure (arityCall 0).mem (arityCall 0).block = .ok arityClosure ∧
      (arityCall 0).numArgs = some 0 ∧
      ∃ mem' a,(arityCall 0).after arityEnv = some (mem',a) ∧ a.temps = [smallIntOop 7] ∧
        ¬ ArityEnforced 16 arityClosure 0 [smallIntOop 7] (arityCall 0).mem mem' a := by
  refine ⟨⟨rfl,rfl⟩,rfl,rfl,_,_,rfl,rfl,fun h => h.mismatch (by decide) ⟨rfl,rfl,rfl,rfl⟩⟩

end SmalltalkA
