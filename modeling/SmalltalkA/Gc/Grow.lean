import SmalltalkA.Gc.Collect

/-! Growing a heap (`sta_heap_grow`) and allocation that collects and grows
(`sta_heap_alloc_gc`). -/

set_option autoImplicit false

namespace SmalltalkA

/-- The places outside the heap that hold references of an actor; frame 0 is the innermost one. -/
inductive RootKind where
  | frameField
  | frameSlot
  | stack (frame : Nat)
  | handler
  | ensureBlock (isEnsure : Bool)
  | actorField
  | selector
  | argument
  deriving DecidableEq,Repr

/-- A word and where it is. -/
structure Root where
  kind : RootKind
  word : Oop
  deriving DecidableEq,Repr

/-- `gc_scan_roots` traces the place. -/
def RootKind.scanned : RootKind → Bool
  | .ensureBlock isEnsure => isEnsure
  | _ => true

/-- The fixup of `sta_heap_alloc_gc` relocates the place. -/
def RootKind.fixedUp : RootKind → Bool
  | .stack frame => frame == 0
  | .selector => false
  | _ => true

/-- An actor's heap and roots, in the order of `gc_scan_roots`, in a memory shared with others;
`regions` is what `aligned_alloc` returns next. -/
structure ActorSpace where
  heap : Heap
  mem : Memory
  roots : List Root
  regions : List (Option Nat)

/-- What the collector takes from the VM. -/
structure GcParams where
  formats : Formats
  immBase : Nat
  immLimit : Nat
  sideRoom : Nat

def ActorSpace.nextRegion (s : ActorSpace) : Option Nat × List (Option Nat) :=
  match s.regions with
  | [] => (none,[])
  | r :: rs => (r,rs)

def refillRoots : List Root → List Oop → List Root
  | [],_ => []
  | r :: rs,ws =>
    if r.kind.scanned then { r with word := ws.headD 0 } :: refillRoots rs ws.tail
    else r :: refillRoots rs ws

def scannedWords (roots : List Root) : List Oop :=
  (roots.filter (fun r => r.kind.scanned)).map Root.word

/-- `sta_gc_collect` on an actor; false if it returns -1. -/
def ActorSpace.collect (p : GcParams) (s : ActorSpace) : Option (ActorSpace × Bool) :=
  let (region,regions) := s.nextRegion
  match staGcCollect p.formats p.immBase p.immLimit p.sideRoom region s.heap s.mem
      (scannedWords s.roots) with
  | none => none
  | some none => some ({ s with regions := regions },false)
  | some (some (heap,mem,words)) => some (⟨heap,mem,refillRoots s.roots words,regions⟩,true)

def relocate (base used newBase : Nat) (v : Oop) : Oop :=
  if isHeap v = true ∧ v ≠ 0 ∧ base ≤ v ∧ v < base + used then v - base + newBase else v

/-- `memcpy` to the new region, fixup of every payload word, `free` of the old region. -/
def Memory.move (m : Memory) (heap : Heap) (newBase : Nat) : Memory := fun o =>
  if newBase ≤ o ∧ o < newBase + heap.used then
    (m (o - newBase + heap.base)).map (fun obj =>
      { obj with payload := obj.payload.map (relocate heap.base heap.used newBase) })
  else m.free heap.base heap.capacity o

/-- `sta_heap_grow`; false if it returns -1. -/
def staHeapGrow (s : ActorSpace) (minCapacity : Nat) : ActorSpace × Bool :=
  let capacity := (minCapacity + 15) / 16 * 16
  if capacity ≤ s.heap.capacity then (s,true)
  else
    let (region,regions) := s.nextRegion
    match region with
    | none => ({ s with regions := regions },false)
    | some newBase =>
      ({ s with
          heap := ⟨newBase,capacity,s.heap.used⟩
          mem := s.mem.move s.heap newBase
          regions := regions },true)

def ActorSpace.alloc (s : ActorSpace) (classIndex nwords : Nat) : Option (Oop × ActorSpace) :=
  (heapAlloc s.heap s.mem classIndex nwords).map (fun (o,h,m) =>
    (o,{ s with heap := h,mem := m }))

def grownCapacity (heap : Heap) (nwords : Nat) : Nat :=
  max (if heap.used * 4 > heap.capacity * 3 then heap.capacity * 2
    else heap.capacity + heap.capacity / 2) (heap.used + alignedSize nwords)

/-- The fixup of the roots after growing from `old`. -/
def fixupRoots (old : Heap) (newBase : Nat) (roots : List Root) : List Root :=
  roots.map (fun r =>
    if r.kind.fixedUp then { r with word := relocate old.base old.used newBase r.word } else r)

/-- `sta_heap_alloc_gc`: the object, or none for NULL. -/
def staHeapAllocGc (p : GcParams) (s : ActorSpace) (classIndex nwords : Nat) :
    Option (ActorSpace × Option Oop) :=
  match s.alloc classIndex nwords with
  | some (o,s) => some (s,some o)
  | none =>
    match s.collect p with
    | none => none
    | some (s,false) => some (s,none)
    | some (s,true) =>
      match s.alloc classIndex nwords with
      | some (o,s) => some (s,some o)
      | none =>
        match staHeapGrow s (grownCapacity s.heap nwords) with
        | (s,false) => some (s,none)
        | (t,true) =>
          let t := { t with roots := fixupRoots s.heap t.heap.base t.roots }
          match t.alloc classIndex nwords with
          | some (o,t) => some (t,some o)
          | none => some (t,none)

end SmalltalkA
