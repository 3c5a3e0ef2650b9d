import SmalltalkA.CompiledMethod
import SmalltalkA.Memory
import SmalltalkA.Lib.Graph

/-! Objects as nodes of a graph: which payload words are references (`format.h`, `scannable_slots`
of `deep_copy.c`, `gc_scannable_slots` of `gc.c`). -/

set_option autoImplicit false

namespace SmalltalkA

open ObjectGraph

/-- `STA_OBJ_IMMUTABLE`. -/
def Obj.isImmutable (obj : Obj) : Bool := obj.objFlags % 2 == 1

/-- `STA_FORMAT_TYPE` and `STA_FORMAT_INST_VARS`. -/
def formatType (fmt : Oop) : Nat := (smallIntVal fmt / 256 % 8).toNat
def formatInstVars (fmt : Oop) : Nat := (smallIntVal fmt % 256).toNat

def fmtVariableByte : Nat := 2
def fmtCompiledMethod : Nat := 6

/-- The format word of a class, by class index. -/
abbrev Formats := Nat → Option Oop

def classSlotFormat : Nat := 2

/-- The format words that `sta_class_table_get` and the class objects give. -/
def classFormats (classTable : List Oop) (m : Memory) : Formats := fun i =>
  if classTable.getD i 0 = 0 then none else m.slot (classTable.getD i 0) classSlotFormat

/-- The payload words to scan, `numLiterals` being read off a method's header. -/
def slotsToScan (numLiterals : Oop → Nat) (formats : Formats) (obj : Obj) : Nat :=
  match formats obj.classIndex with
  | none => obj.payload.length
  | some fmt =>
    if formatType fmt = fmtVariableByte then formatInstVars fmt
    else if formatType fmt = fmtCompiledMethod then
      match obj.payload with
      | [] => 0
      | header :: _ => min (1 + numLiterals header) obj.payload.length
    else obj.payload.length

/-- `gc_scannable_slots`. -/
def gcScannableSlots : Formats → Obj → Nat := slotsToScan methodNumLiterals

/-- `scannable_slots`, which takes the low ten bits of a method's header for its literal count. -/
def scannableSlots : Formats → Obj → Nat :=
  slotsToScan (fun header => (smallIntVal header % 1024).toNat)

/-- What is the same in a copy: class, byte padding and raw words. -/
structure ObjLabel where
  classIndex : Nat
  reserved : Nat
  raw : List Oop
  deriving DecidableEq

def Obj.label (formats : Formats) (obj : Obj) : ObjLabel :=
  ⟨obj.classIndex,obj.reserved,obj.payload.drop (gcScannableSlots formats obj)⟩

def Obj.references (formats : Formats) (obj : Obj) : List Oop :=
  obj.payload.take (gcScannableSlots formats obj)

def objectGraph (formats : Formats) (atom : Oop → Prop) (m : Memory) :
    ObjectGraph.Graph Oop ObjLabel where
  atom := atom
  node := fun o => (m o).map (fun obj => (obj.label formats,obj.references formats))

/-- A word that every actor may hold as it is: an immediate, 0, or an immutable object. -/
def isShared (m : Memory) (v : Oop) : Bool :=
  isImmediate v || v == 0 || ((m v).map Obj.isImmutable).getD false

def mutableGraph (formats : Formats) (m : Memory) : ObjectGraph.Graph Oop ObjLabel :=
  objectGraph formats (fun v => isShared m v = true) m

/-- The payload has the words that the format promises, and the object is no CompiledMethod, whose
words are counted in two ways. -/
structure Obj.Scannable (formats : Formats) (obj : Obj) : Prop where
  fits : gcScannableSlots formats obj ≤ obj.payload.length
  plain : ∀ fmt,formats obj.classIndex = some fmt → formatType fmt ≠ fmtCompiledMethod

theorem slotsToScan_congr {formats : Formats} {f g : Oop → Nat} {obj obj' : Obj}
    (hplain : ∀ fmt,formats obj.classIndex = some fmt → formatType fmt ≠ fmtCompiledMethod)
    (hclass : obj'.classIndex = obj.classIndex)
    (hlen : obj'.payload.length = obj.payload.length) :
    slotsToScan f formats obj' = slotsToScan g formats obj := by
  unfold slotsToScan
  rw [hclass,hlen]
  cases hfmt : formats obj.classIndex with
  | none => rfl
  | some fmt => simp [hplain fmt hfmt]

theorem gcScannableSlots_congr {formats : Formats} {obj obj' : Obj}
    (hclass : obj'.classIndex = obj.classIndex)
    (hlen : obj'.payload.length = obj.payload.length)
    (hhead : ∀ fmt,formats obj.classIndex = some fmt → formatType fmt = fmtCompiledMethod →
      obj'.payload.head? = obj.payload.head?) :
    gcScannableSlots formats obj' = gcScannableSlots formats obj := by
  unfold gcScannableSlots slotsToScan
  rw [hclass,hlen]
  cases hfmt : formats obj.classIndex with
  | none => rfl
  | some fmt =>
    by_cases htype : formatType fmt = fmtCompiledMethod
    · have hh := hhead fmt hfmt htype
      cases hp : obj.payload with
      | nil =>
        cases hq : obj'.payload with
        | nil => rfl
        | cons v vs => simp [hp,hq] at hh
      | cons v vs =>
        cases hq : obj'.payload with
        | nil => simp [hp,hq] at hh
        | cons u us =>
          simp only [hp,hq,List.head?_cons,Option.some.injEq] at hh
          rw [hh]
    · simp [htype]

end SmalltalkA
