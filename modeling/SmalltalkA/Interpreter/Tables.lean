import SmalltalkA.Interpreter.Nested

/-! Environments, memories and start states given by finite tables. -/

set_option autoImplicit false

namespace SmalltalkA

def plainObj (classIndex : Nat) (payload : List Oop) : Obj := ⟨classIndex,0,0,0,payload⟩

def tableMemory (objs : List (Oop × Obj)) : Memory := fun o => objs.lookup o

/-- nil, true and false are the objects 16, 32 and 48; an entry maps dictionary and selector to a
method. -/
def tableEnv {ω : Type} (methods : List (Oop × CompiledMethod))
    (dicts : List ((Oop × Oop) × Oop)) (arities : List (Oop × Nat))
    (prims : List (Nat × Primitive ω)) : Env ω where
  nilOop := 16
  trueOop := 32
  falseOop := 48
  doesNotUnderstand := 0
  methods := fun o => methods.lookup o
  selectorArity := fun s => (arities.lookup s).getD 0
  methodDictLookup := fun _ d s => (dicts.lookup (d,s)).getD 0
  primitives := fun i => prims.lookup i

def twoClasses (i : Nat) (cls : Oop) (j : Nat) (cls' : Oop) : List Oop :=
  ((List.replicate (max i j + 1) 0).set i cls).set j cls'

def classTableOf (entries : List (Nat × Oop)) : List Oop :=
  (List.range 34).map (fun i => (entries.lookup i).getD 0)

/-- A loop entered at the start of a method without arguments or context, on an empty slab. -/
def startMachine {ω : Type} (w : World ω) (nilOop : Oop) (method : Oop) (cm : CompiledMethod)
    (receiver : Oop) : Machine ω :=
  let a := newActivation nilOop cm.header method receiver []
  let stack : CallStack := ⟨4096,some 65536,4096,[],[]⟩
  enterLoop ⟨w,(framePush stack a).getD stack⟩

/-- A thread whose outermost loop is entered so, on the slab of actor `a`. -/
def startVm {ω : Type} (a : Nat) (w : World ω) (nilOop : Oop) (method : Oop) (cm : CompiledMethod)
    (receiver : Oop) : Vm ω where
  mem := w.mem
  classTable := w.classTable
  rest := w.rest
  actors := fun i =>
    let stack := if i = a then (startMachine w nilOop method cm receiver).exec.stack
      else ⟨4096,some 65536,4096,[],[]⟩
    ⟨{ w.heap with base := w.heap.base + i * w.heap.capacity },stack,[],0⟩
  loop := ⟨a,false,(startMachine w nilOop method cm receiver).slots,0⟩
  pending := []
  nextId := 1
  trace := []

/-- The value or fault a run ends with within `n` steps. -/
def Halt.answer {ω : Type} : Halt ω → Option (Except Fault Oop)
  | .returned v _ => some (.ok v)
  | .fault f => some (.error f)
  | _ => none

end SmalltalkA
