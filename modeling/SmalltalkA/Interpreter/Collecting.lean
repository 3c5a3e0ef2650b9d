import SmalltalkA.Gc.Grow
import SmalltalkA.Interpreter.FrameRoots
import SmalltalkA.Interpreter.Tables

/-! A primitive that collects. `prim_basic_new` allocates with `sta_heap_alloc_gc`, which may run
the collector over the roots of the running actor. -/

set_option autoImplicit false

namespace SmalltalkA

open Runs

/-! ## The roots of the running actor -/

/-- What of the actor and the VM only the collector looks at. -/
structure ActorRest where
  behaviorClass : Oop
  behaviorObj : Oop
  /-- selector and arguments of the queued messages -/
  mailbox : List (Oop × List Oop)
  regions : List (Option Nat)
  immBase : Nat
  immLimit : Nat
  sideRoom : Nat

/-- The words of a frame that can refer to an object. -/
inductive FrameWord where
  | method
  | receiver
  | context
  | slot (i : Nat)
  | stack (i : Nat)
  deriving DecidableEq,Repr

/-- A root: a word of a frame, counted from the innermost one, of a handler entry, of the actor, or
of a queued message. -/
inductive RootPlace where
  | frame (i : Nat) (w : FrameWord)
  | exceptionClass (i : Nat)
  | handlerBlock (i : Nat)
  | ensureBlock (i : Nat)
  | behaviorClass
  | behaviorObj
  | signaled
  | selector (i : Nat)
  | argument (i j : Nat)
  deriving DecidableEq,Repr

def Frame.word (f : Frame) : FrameWord → Oop
  | .method => f.act.method
  | .receiver => f.act.receiver
  | .context => f.act.context
  | .slot i => f.act.temps.getD i 0
  | .stack i => f.act.stack.getD i 0

def Frame.setWord (f : Frame) (w : FrameWord) (v : Oop) : Frame :=
  match w with
  | .method => { f with act := { f.act with method := v } }
  | .receiver => { f with act := { f.act with receiver := v } }
  | .context => { f with act := { f.act with context := v } }
  | .slot i => { f with act := { f.act with temps := f.act.temps.set i v } }
  | .stack i => { f with act := { f.act with stack := f.act.stack.set i v } }

def Exec.rootWord (e : Exec ActorRest) : RootPlace → Oop
  | .frame i w => (e.stack.frames[i]?.map (fun f => f.word w)).getD 0
  | .exceptionClass i => (e.world.handlers[i]?.map HandlerEntry.exceptionClass).getD 0
  | .handlerBlock i => (e.world.handlers[i]?.map HandlerEntry.handlerBlock).getD 0
  | .ensureBlock i => (e.world.handlers[i]?.map HandlerEntry.ensureBlock).getD 0
  | .behaviorClass => e.world.rest.behaviorClass
  | .behaviorObj => e.world.rest.behaviorObj
  | .signaled => e.world.signaled
  | .selector i => (e.world.rest.mailbox[i]?.map Prod.fst).getD 0
  | .argument i j => (e.world.rest.mailbox[i]?.map (fun msg => msg.2.getD j 0)).getD 0

def World.setHandler {ω : Type} (w : World ω) (i : Nat) (f : HandlerEntry → HandlerEntry) :
    World ω :=
  { w with handlers := w.handlers.modify i f }

def World.setRest {ω : Type} (w : World ω) (f : ω → ω) : World ω := { w with rest := f w.rest }

def Exec.setRoot (e : Exec ActorRest) (p : RootPlace) (v : Oop) : Exec ActorRest :=
  match p with
  | .frame i w =>
    { e with stack := { e.stack with
      frames := e.stack.frames.modify i (fun f => f.setWord w v) } }
  | .exceptionClass i =>
    { e with world := e.world.setHandler i (fun h => { h with exceptionClass := v }) }
  | .handlerBlock i =>
    { e with world := e.world.setHandler i (fun h => { h with handlerBlock := v }) }
  | .ensureBlock i =>
    { e with world := e.world.setHandler i (fun h => { h with ensureBlock := v }) }
  | .behaviorClass => { e with world := e.world.setRest (fun r => { r with behaviorClass := v }) }
  | .behaviorObj => { e with world := e.world.setRest (fun r => { r with behaviorObj := v }) }
  | .signaled => { e with world := { e.world with signaled := v } }
  | .selector i =>
    { e with world := e.world.setRest (fun r =>
      { r with mailbox := r.mailbox.modify i (fun msg => (v,msg.2)) }) }
  | .argument i j =>
    { e with world := e.world.setRest (fun r =>
      { r with mailbox := r.mailbox.modify i (fun msg => (msg.1,msg.2.set j v)) }) }

/-- `method`, `receiver`, `context` if there is one, arguments and temporaries. -/
def Frame.fieldWords (f : Frame) : List FrameWord :=
  [.method,.receiver] ++ (if f.act.context ≠ 0 then [.context] else []) ++
    (List.range (f.act.argCount + f.act.localCount)).map FrameWord.slot

def Frame.stackWords (f : Frame) : List FrameWord :=
  (List.range f.act.stack.length).reverse.map FrameWord.stack

def wordsAbove : List Frame → List RootPlace
  | [] => []
  | f :: above => (f.fieldWords ++ f.stackWords).map (RootPlace.frame above.length) ++ wordsAbove above

/-- The visits of `sta_frame_gc_roots`. A walk from a frame's stack up to `slab->sp` goes through
all frames above. -/
def slabPlaces (k : CallStack) (above : List Frame) : List Frame → List RootPlace
  | [] => []
  | f :: senders =>
    f.fieldWords.map (RootPlace.frame above.length) ++
    (if walksStack k f senders then
      f.stackWords.map (RootPlace.frame above.length) ++ wordsAbove above else []) ++
    slabPlaces k (f :: above) senders

def handlerPlaces (handlers : List HandlerEntry) : List RootPlace :=
  (List.range handlers.length).flatMap (fun i => [.exceptionClass i,.handlerBlock i,.ensureBlock i])

def mailboxPlaces (i : Nat) : List (Oop × List Oop) → List RootPlace
  | [] => []
  | msg :: rest =>
    .selector i :: (List.range msg.2.length).map (RootPlace.argument i) ++ mailboxPlaces (i + 1) rest

/-- The order of `gc_scan_roots`. A second visit of a word finds it traced already. -/
def Exec.rootPlaces (e : Exec ActorRest) : List RootPlace :=
  (slabPlaces e.stack [] e.stack.frames).eraseDups ++ handlerPlaces e.world.handlers ++
    [.behaviorClass,.behaviorObj,.signaled] ++ mailboxPlaces 0 e.world.rest.mailbox

def Exec.rootKind (e : Exec ActorRest) : RootPlace → RootKind
  | .frame _ (.slot _) => .frameSlot
  | .frame i (.stack _) => .stack i
  | .frame _ _ => .frameField
  | .exceptionClass _ | .handlerBlock _ => .handler
  | .ensureBlock i => .ensureBlock ((e.world.handlers[i]?.map HandlerEntry.isEnsure).getD false)
  | .behaviorClass | .behaviorObj | .signaled => .actorField
  | .selector _ => .selector
  | .argument _ _ => .argument

/-- The running actor as `sta_heap_alloc_gc` gets it. -/
def Exec.space (e : Exec ActorRest) : ActorSpace where
  heap := e.world.heap
  mem := e.world.mem
  roots := e.rootPlaces.map (fun p => ⟨e.rootKind p,e.rootWord p⟩)
  regions := e.world.rest.regions

def Exec.setSpace (e : Exec ActorRest) (s : ActorSpace) : Exec ActorRest :=
  let e' := (e.rootPlaces.zip s.roots).foldl (fun e pr => e.setRoot pr.1 pr.2.word) e
  { e' with world := { e'.world with
      heap := s.heap
      mem := s.mem
      rest := { e'.world.rest with regions := s.regions } } }

def Exec.gcParams (e : Exec ActorRest) : GcParams where
  formats := classFormats e.world.classTable e.world.mem
  immBase := e.world.rest.immBase
  immLimit := e.world.rest.immLimit
  sideRoom := e.world.rest.sideRoom

/-- `prim_alloc` for an actor. -/
def primAlloc (e : Exec ActorRest) (classIndex nwords : Nat) :
    Option (Exec ActorRest × Option Oop) :=
  (staHeapAllocGc e.gcParams e.space classIndex nwords).map
    (fun (s,o) => (e.setSpace s,o))

/-! ## `prim_basic_new` -/

/-- `sta_class_table_index_of`. -/
def classTableIndexOf (classTable : List Oop) (cls : Oop) : Nat :=
  if cls = 0 then 0
  else ((List.range classTable.length).find? (fun i => i ≠ 0 ∧ classTable.getD i 0 = cls)).getD 0

/-- `sta_format_is_instantiable`: neither immediates nor CompiledMethods. -/
def formatIsInstantiable (fmt : Oop) : Bool := formatType fmt ≠ 5 && formatType fmt ≠ 6

/-- `sta_format_is_indexable`. -/
def formatIsIndexable (fmt : Oop) : Bool := 1 ≤ formatType fmt && formatType fmt ≤ 4

/-- `prim_basic_new`. An access that is not defined is taken as the end of the process. -/
def primBasicNew (nilOop : Oop) : Primitive ActorRest := fun e args =>
  let cls := args.headD 0
  if isImmediate cls then .failure primBadReceiver e
  else
    match e.world.mem.slot cls classSlotFormat with
    | none => .aborted
    | some fmt =>
      if !formatIsInstantiable fmt || formatIsIndexable fmt then .failure primBadReceiver e
      else if classTableIndexOf e.world.classTable cls = 0 then .failure primBadReceiver e
      else
        match primAlloc e (classTableIndexOf e.world.classTable cls) (formatInstVars fmt) with
        | none => .aborted
        | some (e,none) => .failure primNoMemory e
        | some (e,some o) =>
          match e.world.setSlots o 0 (List.replicate (formatInstVars fmt) nilOop) with
          | .ok w => .success o { e with world := w }
          | .error _ => .aborted

/-! ### A context that moves -/

/-- `main self run. ^self`, `run | x | x := 7. Foo basicNew. ^x` with a captured `x`, and the
primitive method `basicNew`. -/
def collectMain : CompiledMethod :=
  ⟨methodHeader 0 0 1 0 false false,[272],[0x02,0,0x20,0,0x50,0,0x31,0]⟩

def collectRun : CompiledMethod :=
  ⟨methodHeader 0 1 2 0 false true,[304,512],
    [0x0B,7,0x13,0,0x06,1,0x20,0,0x50,0,0x07,0,0x30,0]⟩

def basicNew : CompiledMethod := ⟨methodHeader 0 0 0 31 true false,[],[0x52,31,0x31,0]⟩

def collectEnv : Env ActorRest :=
  tableEnv [(1024,collectMain),(1040,collectRun),(1056,basicNew)]
    [((528,272),1040),((560,304),1056)] [(272,0),(304,0)] [(31,primBasicNew 16)]

/-- A heap of `capacity` bytes with a dead object on it. -/
def collectWorld (capacity : Nat) : World ActorRest where
  heap := ⟨8192,capacity,16⟩
  mem := tableMemory [(512,plainObj 16 [16,528,1,16]),(544,plainObj 16 [16,560,1,16]),
    (768,plainObj 2 []),(8192,plainObj 2 [])]
  classTable := twoClasses 2 512 16 544
  handlers := []
  signaled := 0
  rest := ⟨512,768,[],[some 16384],0,4096,64⟩

def collectStart (capacity : Nat) : Machine ActorRest :=
  startMachine (collectWorld capacity) 16 1024 collectMain 768

/-- With a heap that never fills the pointer stays valid. -/
theorem slot_cache_valid_roomy : (collectStart 4096).exec.stack.frames ≠ [] ∧
      ∀ u,Reaches (step collectEnv (sourceMode true)) (enterLoop (collectStart 4096).exec) u →
        SlotsValid u := by
  have hframes : (collectStart 4096).exec.stack.frames ≠ [] := by decide +kernel
  refine ⟨hframes,(slot_cache_valid_iff (sourceMode true) (collectStart 4096).exec hframes).mpr ?_⟩
  exact fun _ _ hu _ => holdsAlong_reaches (n := 20) (by decide +kernel) hu

/-- On a full heap `Foo basicNew` moves the context of `run`, and `^x` reads the old one. -/
theorem basicNew_stale_slots :
    ∃ u,Reaches (step collectEnv (sourceMode true)) (collectStart 48) u ∧ ¬ SlotsValid u := by
  refine ⟨_,⟨6,rfl⟩,?_⟩
  unfold SlotsValid
  decide

end SmalltalkA
