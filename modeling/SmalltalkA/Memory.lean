import SmalltalkA.Oop

/-! Object memory and the bump-allocated actor heap (`oop.h`, `heap.c`): an object's address is
mapped to its header fields and payload words. -/

set_option autoImplicit false

namespace SmalltalkA

/-- `STA_ObjHeader` with its payload; the header's `size` is the payload's length. -/
structure Obj where
  classIndex : Nat
  gcFlags : Nat
  objFlags : Nat
  reserved : Nat
  payload : List Oop
  deriving DecidableEq,Repr

abbrev Memory := Oop → Option Obj

def Memory.slot (m : Memory) (o : Oop) (i : Nat) : Option Oop :=
  (m o).bind (fun obj => obj.payload[i]?)

def Memory.put (m : Memory) (o : Oop) (obj : Option Obj) : Memory := Function.update m o obj

def Memory.setSlot (m : Memory) (o : Oop) (i : Nat) (v : Oop) : Option Memory :=
  match m o with
  | some obj =>
    if i < obj.payload.length then
      some (m.put o (some { obj with payload := obj.payload.set i v }))
    else none
  | none => none

@[simp] theorem Memory.put_same (m : Memory) (o : Oop) (obj : Option Obj) :
    m.put o obj o = obj := by
  simp [Memory.put]

theorem Memory.put_other {m : Memory} {o p : Oop} (h : p ≠ o) (obj : Option Obj) :
    m.put o obj p = m p := by
  simp [Memory.put,h]

/-- `STA_Heap`. -/
structure Heap where
  base : Nat
  capacity : Nat
  used : Nat
  deriving DecidableEq,Repr

/-- `sta_alloc_size`: header unit and payload words. -/
def allocSize (n : Nat) : Nat := 16 + 8 * n

def alignedSize (n : Nat) : Nat := (allocSize n + 15) / 16 * 16

def newObj (classIndex nwords : Nat) : Obj :=
  ⟨classIndex,0,0,0,List.replicate nwords 0⟩

/-- `sta_heap_alloc`. -/
def heapAlloc (h : Heap) (m : Memory) (classIndex nwords : Nat) : Option (Oop × Heap × Memory) :=
  if h.used + alignedSize nwords > h.capacity then none
  else
    let o := h.base + h.used
    some (o,{ h with used := h.used + alignedSize nwords },
      m.put o (some (newObj classIndex nwords)))

theorem alignedSize_pos (n : Nat) : 0 < alignedSize n := by
  unfold alignedSize allocSize
  omega

theorem alignedSize_mod (n : Nat) : alignedSize n % 16 = 0 := by
  unfold alignedSize
  omega

end SmalltalkA
