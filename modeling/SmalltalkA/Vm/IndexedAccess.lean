import SmalltalkA.Interpreter.Collecting
import SmalltalkA.Vm.Interning
import SmalltalkA.Vm.SmallIntegers

/-! Indexed access (`primitive_table.c`): `at:` and `at:put:` of Array, String, ByteArray and
Object, their sizes, `replaceFrom:to:with:startingAt:` and `basicNew:`. An index of 63 bits is cut
to 32 before it is compared. -/

set_option autoImplicit false

namespace SmalltalkA

open ByteCodec List Option

/-- A failure code of a primitive, or an access outside of the object. -/
inductive AccessError
  | code (n : Nat)
  | undefined
  deriving DecidableEq,Repr

abbrev Access (α : Type) := Except AccessError α

def failWith {α : Type} (n : Nat) : Access α := .error (.code n)

/-- `STA_CHAR_VAL`. -/
def charVal (o : Oop) : Nat := o / 4 % 2 ^ 32

/-- The cast `(uint32_t)`. -/
def uint32 (n : Int) : Nat := (n % 2 ^ 32).toNat

/-- The check in front of every access: `idx < 1 || (uint32_t)idx > count`. -/
def indexOutOfRange (idx : Int) (count : Nat) : Bool := decide (idx < 1) || decide (count < uint32 idx)

/-- `sta_format_is_bytes`. -/
def formatIsBytes (fmt : Oop) : Bool := formatType fmt == fmtVariableByte

/-- `STA_BYTE_PADDING`. -/
def bytePadding (obj : Obj) : Nat := obj.reserved % 8

/-- `h->size - inst_vars` as an unsigned number. -/
def varWords (obj : Obj) (instVars : Nat) : Nat := (obj.payload.length + 2 ^ 32 - instVars) % 2 ^ 32

/-- `var_words * 8 - STA_BYTE_PADDING(h)` as an unsigned number. -/
def byteCount (obj : Obj) (instVars : Nat) : Nat :=
  (varWords obj instVars * 8 + 2 ^ 32 - bytePadding obj) % 2 ^ 32

def Obj.bytes (obj : Obj) : List Nat := obj.payload.flatMap (toLe 8)

def Obj.setBytes (obj : Obj) (bytes : List Nat) : Obj :=
  { obj with payload := packWords obj.payload.length bytes }

def inObject {α : Type} : Option α → Access α
  | none => .error .undefined
  | some a => .ok a

def heapObject (m : Memory) (o : Oop) : Access Obj := inObject (m o)

def loadByte (obj : Obj) (i : Nat) : Access Nat := inObject obj.bytes[i]?

def loadWord (obj : Obj) (i : Nat) : Access Oop := inObject obj.payload[i]?

def storeByte (m : Memory) (o : Oop) (obj : Obj) (i b : Nat) : Access Memory :=
  if i < obj.bytes.length then .ok (m.put o (some (obj.setBytes (obj.bytes.set i b))))
  else .error .undefined

def storeWord (m : Memory) (o : Oop) (obj : Obj) (i : Nat) (w : Oop) : Access Memory :=
  if i < obj.payload.length then .ok (m.put o (some { obj with payload := obj.payload.set i w }))
  else .error .undefined

section

variable (classTable : List Oop) (m : Memory)

/-- `get_receiver_format`: 0 if the class table has no class for the object. -/
def getReceiverFormat (obj : Obj) : Oop := (classFormats classTable m obj.classIndex).getD 0

/-- `byte_access_setup`: the object, its number of instance variables and its number of bytes. -/
def byteAccessSetup (receiver : Oop) : Access (Obj × Nat × Nat) :=
  if isImmediate receiver then failWith primBadReceiver
  else do
    let obj ← heapObject m receiver
    let fmt := getReceiverFormat classTable m obj
    if fmt = 0 then failWith primBadReceiver
    else if !formatIsBytes fmt then failWith primBadReceiver
    else .ok (obj,formatInstVars fmt,byteCount obj (formatInstVars fmt))

/-- `prim_byte_at`. -/
def primByteAt (args : List Oop) : Access (Oop × Memory) := do
  let (obj,instVars,count) ← byteAccessSetup classTable m (args.getD 0 0)
  if !isSmallInt (args.getD 1 0) then failWith primBadArgument
  else
    let idx := smallIntVal (args.getD 1 0)
    if indexOutOfRange idx count then failWith primOutOfRange
    else return (smallIntOop (← loadByte obj (instVars * 8 + (idx - 1).toNat)),m)

/-- `prim_string_at`. -/
def primStringAt (args : List Oop) : Access (Oop × Memory) := do
  let (obj,instVars,count) ← byteAccessSetup classTable m (args.getD 0 0)
  if !isSmallInt (args.getD 1 0) then failWith primBadArgument
  else
    let idx := smallIntVal (args.getD 1 0)
    if indexOutOfRange idx count then failWith primOutOfRange
    else return (charOop (← loadByte obj (instVars * 8 + (idx - 1).toNat)),m)

/-- `prim_byte_at_put`. -/
def primByteAtPut (args : List Oop) : Access (Oop × Memory) :=
  if isImmediate (args.getD 0 0) then failWith primBadReceiver
  else do
    let obj ← heapObject m (args.getD 0 0)
    if obj.isImmutable then failWith primBadReceiver
    else do
      let (obj,instVars,count) ← byteAccessSetup classTable m (args.getD 0 0)
      if !isSmallInt (args.getD 1 0) then failWith primBadArgument
      else if !isSmallInt (args.getD 2 0) then failWith primBadArgument
      else
        let idx := smallIntVal (args.getD 1 0)
        let val := smallIntVal (args.getD 2 0)
        if indexOutOfRange idx count then failWith primOutOfRange
        else if val < 0 ∨ 255 < val then failWith primOutOfRange
        else return (args.getD 2 0,
          ← storeByte m (args.getD 0 0) obj (instVars * 8 + (idx - 1).toNat) val.toNat)

/-- `prim_string_at_put`. -/
def primStringAtPut (args : List Oop) : Access (Oop × Memory) :=
  if isImmediate (args.getD 0 0) then failWith primBadReceiver
  else do
    let obj ← heapObject m (args.getD 0 0)
    if obj.isImmutable then failWith primBadReceiver
    else do
      let (obj,instVars,count) ← byteAccessSetup classTable m (args.getD 0 0)
      if !isSmallInt (args.getD 1 0) then failWith primBadArgument
      else if !isChar (args.getD 2 0) then failWith primBadArgument
      else
        let idx := smallIntVal (args.getD 1 0)
        let cp := charVal (args.getD 2 0)
        if indexOutOfRange idx count then failWith primOutOfRange
        else if 255 < cp then failWith primOutOfRange
        else return (args.getD 2 0,
          ← storeByte m (args.getD 0 0) obj (instVars * 8 + (idx - 1).toNat) cp)

/-- `prim_byte_size`. -/
def primByteSize (args : List Oop) : Access (Oop × Memory) := do
  let (_,_,count) ← byteAccessSetup classTable m (args.getD 0 0)
  return (smallIntOop count,m)

/-- `prim_basic_at`. -/
def primBasicAt (args : List Oop) : Access (Oop × Memory) :=
  if isImmediate (args.getD 0 0) then failWith 1
  else if !isSmallInt (args.getD 1 0) then failWith 3
  else do
    let obj ← heapObject m (args.getD 0 0)
    let fmt := getReceiverFormat classTable m obj
    if fmt = 0 then failWith 1
    else if !formatIsIndexable fmt then failWith 1
    else
      let instVars := formatInstVars fmt
      let idx := smallIntVal (args.getD 1 0)
      if formatIsBytes fmt then
        if indexOutOfRange idx (byteCount obj instVars) then failWith 2
        else return (smallIntOop (← loadByte obj (instVars * 8 + (idx - 1).toNat)),m)
      else if indexOutOfRange idx (varWords obj instVars) then failWith 2
      else return (← loadWord obj (instVars + (idx - 1).toNat),m)

/-- `prim_basic_at_put`. -/
def primBasicAtPut (args : List Oop) : Access (Oop × Memory) :=
  if isImmediate (args.getD 0 0) then failWith 1
  else if !isSmallInt (args.getD 1 0) then failWith 3
  else do
    let obj ← heapObject m (args.getD 0 0)
    if obj.isImmutable then failWith 4
    else
      let fmt := getReceiverFormat classTable m obj
      if fmt = 0 then failWith 1
      else if !formatIsIndexable fmt then failWith 1
      else
        let instVars := formatInstVars fmt
        let idx := smallIntVal (args.getD 1 0)
        if formatIsBytes fmt then
          if indexOutOfRange idx (byteCount obj instVars) then failWith 2
          else if !isSmallInt (args.getD 2 0) then failWith 3
          else
            let val := smallIntVal (args.getD 2 0)
            if val < 0 ∨ 255 < val then failWith 5
            else return (args.getD 2 0,
              ← storeByte m (args.getD 0 0) obj (instVars * 8 + (idx - 1).toNat) val.toNat)
        else if indexOutOfRange idx (varWords obj instVars) then failWith 2
        else return (args.getD 2 0,
          ← storeWord m (args.getD 0 0) obj (instVars + (idx - 1).toNat) (args.getD 2 0))

/-- `prim_basic_size`. -/
def primBasicSize (args : List Oop) : Access (Oop × Memory) :=
  if isImmediate (args.getD 0 0) then .ok (smallIntOop 0,m)
  else do
    let obj ← heapObject m (args.getD 0 0)
    let fmt := getReceiverFormat classTable m obj
    if fmt = 0 ∨ !formatIsIndexable fmt then return (smallIntOop 0,m)
    else if formatIsBytes fmt then return (smallIntOop (byteCount obj (formatInstVars fmt)),m)
    else return (smallIntOop (varWords obj (formatInstVars fmt)),m)

/-- `prim_array_at`: the class format is not looked at. -/
def primArrayAt (args : List Oop) : Access (Oop × Memory) :=
  if isImmediate (args.getD 0 0) then failWith primBadReceiver
  else if !isSmallInt (args.getD 1 0) then failWith primBadArgument
  else do
    let obj ← heapObject m (args.getD 0 0)
    let idx := smallIntVal (args.getD 1 0)
    if indexOutOfRange idx obj.payload.length then failWith primOutOfRange
    else return (← loadWord obj (idx - 1).toNat,m)

/-- `prim_array_at_put`. -/
def primArrayAtPut (args : List Oop) : Access (Oop × Memory) :=
  if isImmediate (args.getD 0 0) then failWith primBadReceiver
  else if !isSmallInt (args.getD 1 0) then failWith primBadArgument
  else do
    let obj ← heapObject m (args.getD 0 0)
    let idx := smallIntVal (args.getD 1 0)
    if indexOutOfRange idx obj.payload.length then failWith primOutOfRange
    else return (args.getD 2 0,← storeWord m (args.getD 0 0) obj (idx - 1).toNat (args.getD 2 0))

/-- `prim_array_size`. -/
def primArraySize (args : List Oop) : Access (Oop × Memory) :=
  if isImmediate (args.getD 0 0) then failWith primBadReceiver
  else do
    let obj ← heapObject m (args.getD 0 0)
    let fmt := getReceiverFormat classTable m obj
    if fmt ≠ 0 ∧ formatIsBytes fmt then
      return (smallIntOop (byteCount obj (formatInstVars fmt)),m)
    else return (smallIntOop obj.payload.length,m)

/-- `memmove` of `n` items from one place to another; none if it leaves either list. -/
def splice {α : Type} (dst : List α) (i : Nat) (src : List α) (j n : Nat) : Option (List α) :=
  if i + n ≤ dst.length ∧ j + n ≤ src.length then
    some (dst.take i ++ (src.drop j).take n ++ dst.drop (i + n))
  else none

/-- `prim_replace`. -/
def primReplace (args : List Oop) : Access (Oop × Memory) :=
  let dst := args.getD 0 0
  let src := args.getD 3 0
  if isImmediate dst then failWith primBadReceiver
  else do
    let dstObj ← heapObject m dst
    if dstObj.isImmutable then failWith primBadReceiver
    else if !isSmallInt (args.getD 1 0) || !isSmallInt (args.getD 2 0) ||
        !isSmallInt (args.getD 4 0) then failWith primBadArgument
    else if isImmediate src then failWith primBadArgument
    else
      let start := smallIntVal (args.getD 1 0)
      let stop := smallIntVal (args.getD 2 0)
      let repStart := smallIntVal (args.getD 4 0)
      if start < 1 ∨ stop < start - 1 ∨ repStart < 1 then failWith primOutOfRange
      else
        let count := stop - start + 1
        if count = 0 then .ok (dst,m)
        else do
          let srcObj ← heapObject m src
          let dstFmt := getReceiverFormat classTable m dstObj
          let srcFmt := getReceiverFormat classTable m srcObj
          if dstFmt = 0 ∨ srcFmt = 0 then failWith primBadReceiver
          else if formatIsBytes dstFmt ≠ formatIsBytes srcFmt then failWith primBadArgument
          else if formatIsBytes dstFmt then
            let dstIv := formatInstVars dstFmt
            let srcIv := formatInstVars srcFmt
            if byteCount dstObj dstIv < uint32 stop then failWith primOutOfRange
            else if byteCount srcObj srcIv < uint32 (repStart + count - 1) then
              failWith primOutOfRange
            else
              let i := dstIv * 8 + (start - 1).toNat
              let j := srcIv * 8 + (repStart - 1).toNat
              let bytes ← inObject (splice dstObj.bytes i srcObj.bytes j count.toNat)
              return (dst,m.put dst (some (dstObj.setBytes bytes)))
          else
            if dstObj.payload.length < uint32 stop then failWith primOutOfRange
            else if srcObj.payload.length < uint32 (repStart + count - 1) then
              failWith primOutOfRange
            else
              let i := (start - 1).toNat
              let j := (repStart - 1).toNat
              let words ← inObject (splice dstObj.payload i srcObj.payload j count.toNat)
              return (dst,m.put dst (some { dstObj with payload := words }))

/-- `prim_alloc`: the new object and the memory after it, which may have been collected. -/
abbrev Allocator := Memory → Nat → Nat → Option (Oop × Memory)

def newVarWords (fmt : Oop) (requested : Int) : Nat :=
  if formatIsBytes fmt then (uint32 requested + 7) % 2 ^ 32 / 8 else uint32 requested
def newTotalWords (fmt : Oop) (requested : Int) : Nat :=
  (formatInstVars fmt + newVarWords fmt requested) % 2 ^ 32

def initIndexed (fmt : Oop) (requested : Int) (nilOop : Oop) (obj : Obj) : Obj :=
  if formatIsBytes fmt then
    { obj with
      reserved := (newVarWords fmt requested * 8 + 2 ^ 32 - uint32 requested) % 2 ^ 8
      payload := List.replicate (formatInstVars fmt) nilOop ++
        List.replicate (newVarWords fmt requested) 0 }
  else { obj with payload := List.replicate (newTotalWords fmt requested) nilOop }

/-- `prim_basic_new_size`. -/
def primBasicNewSize (alloc : Allocator) (nilOop : Oop) (args : List Oop) : Access (Oop × Memory) :=
  let cls := args.getD 0 0
  if isImmediate cls then failWith primBadReceiver
  else if !isSmallInt (args.getD 1 0) then failWith primBadArgument
  else
    let requested := smallIntVal (args.getD 1 0)
    if requested < 0 then failWith primOutOfRange
    else do
      let fmt ← inObject (m.slot cls classSlotFormat)
      if !formatIsInstantiable fmt then failWith primBadReceiver
      else if !formatIsIndexable fmt then failWith primBadReceiver
      else if classTableIndexOf classTable cls = 0 then failWith primBadReceiver
      else
        match alloc m (classTableIndexOf classTable cls) (newTotalWords fmt requested) with
        | none => failWith primNoMemory
        | some (o,m) => do
          let obj ← heapObject m o
          return (o,m.put o (some (initIndexed fmt requested nilOop obj)))

end

/-! ## What a safe access is -/

def Access.Sound {α : Type} (r : Access α) (q : α → Prop) : Prop :=
  match r with
  | .ok a => q a
  | .error (.code _) => True
  | .error .undefined => False

inductive AtPrim
  | array | string | byte | basic
  deriving DecidableEq,Repr

/-- The elements of an object: its bytes or its words, from the given one on. -/
structure Extent where
  ofBytes : Bool
  first : Nat
  count : Nat
  deriving DecidableEq,Repr

def Extent.items (e : Extent) (obj : Obj) : List Nat := if e.ofBytes then obj.bytes else obj.payload

/-- The only item that changes is the given one. -/
structure Extent.Replaced (e : Extent) (obj obj' : Obj) (i x : Nat) : Prop where
  header : obj' = { obj with payload := obj'.payload }
  size : obj'.payload.length = obj.payload.length
  items : e.items obj' = (e.items obj).set i x

section

variable (classTable : List Oop) (m : Memory)

def AtPrim.at : AtPrim → List Oop → Access (Oop × Memory)
  | .array => primArrayAt m
  | .string => primStringAt classTable m
  | .byte => primByteAt classTable m
  | .basic => primBasicAt classTable m

def AtPrim.atPut : AtPrim → List Oop → Access (Oop × Memory)
  | .array => primArrayAtPut m
  | .string => primStringAtPut classTable m
  | .byte => primByteAtPut classTable m
  | .basic => primBasicAtPut classTable m

def AtPrim.size : AtPrim → List Oop → Access (Oop × Memory)
  | .array | .string => primArraySize classTable m
  | .byte => primByteSize classTable m
  | .basic => primBasicSize classTable m

def byteExtent (obj : Obj) : Extent :=
  let instVars := formatInstVars (getReceiverFormat classTable m obj)
  ⟨true,instVars * 8,byteCount obj instVars⟩

/-- The elements that a primitive is for; an object of bytes has no whole words as elements. -/
def AtPrim.extent (p : AtPrim) (obj : Obj) : Option Extent :=
  let fmt := getReceiverFormat classTable m obj
  let hasBytes := fmt ≠ 0 ∧ formatIsBytes fmt = true
  match p with
  | .array => if hasBytes then none else some ⟨false,0,obj.payload.length⟩
  | .string | .byte => if hasBytes then some (byteExtent classTable m obj) else none
  | .basic =>
    if fmt = 0 ∨ formatIsIndexable fmt = false then none
    else if hasBytes then some (byteExtent classTable m obj)
    else some ⟨false,formatInstVars fmt,varWords obj (formatInstVars fmt)⟩

/-- An element as `at:` answers it. -/
def AtPrim.encode (p : AtPrim) (e : Extent) (x : Nat) : Oop :=
  if e.ofBytes then (if p = .string then charOop x else smallIntOop x) else x

/-- An element as `at:put:` is given it. -/
def AtPrim.decode (p : AtPrim) (e : Extent) (v : Oop) : Nat :=
  if e.ofBytes then (if p = .string then charVal v else (smallIntVal v).toNat) else v

def AtPrim.Within (p : AtPrim) (o : Oop) (e : Extent) (idx : Int) : Prop :=
  p.size classTable m [o] = .ok (smallIntOop e.count,m) ∧ 1 ≤ idx ∧ idx ≤ e.count

/-- The calls, with SmallIntegers as their values. -/
inductive IndexedCall
  | at (p : AtPrim) (o : Oop) (idx : Int)
  | atPut (p : AtPrim) (o : Oop) (idx : Int) (v : Oop)
  | replace (dst : Oop) (start stop : Int) (src : Oop) (repStart : Int)
  | basicNew (cls : Oop) (requested : Int)

def IndexedCall.run (alloc : Allocator) (nilOop : Oop) : IndexedCall → Access (Oop × Memory)
  | .at p o idx => p.at classTable m [o,smallIntOop idx]
  | .atPut p o idx v => p.atPut classTable m [o,smallIntOop idx,v]
  | .replace dst start stop src repStart => primReplace classTable m
      [dst,smallIntOop start,smallIntOop stop,src,smallIntOop repStart]
  | .basicNew cls requested =>
      primBasicNewSize classTable m alloc nilOop [cls,smallIntOop requested]

/-- The elements that `replaceFrom:to:with:startingAt:` moves. -/
def moveExtent (obj : Obj) : Extent :=
  if formatIsBytes (getReceiverFormat classTable m obj) then byteExtent classTable m obj
  else ⟨false,0,obj.payload.length⟩

/-- The elements from `start` to `stop` are those of the source from `repStart` on, and nothing else
has changed. -/
structure Moved (dst src dst' : Obj) (start stop repStart : Int) : Prop where
  header : dst' = { dst with payload := dst'.payload }
  size : dst'.payload.length = dst.payload.length
  items : ∀ k : Nat,((moveExtent classTable m dst).items dst')[k]? =
    if ((moveExtent classTable m dst).first : Int) + start ≤ k + 1 ∧
        (k : Int) < (moveExtent classTable m dst).first + stop then
      ((moveExtent classTable m src).items src)[((moveExtent classTable m src).first +
        k - (moveExtent classTable m dst).first + (repStart - start)).toNat]?
    else ((moveExtent classTable m dst).items dst)[k]?

def IndexedCall.Correct : IndexedCall → Oop × Memory → Prop
  | .at p o idx,(v,m') => m' = m ∧ ∃ obj e x,m o = some obj ∧ p.extent classTable m obj = some e ∧
      p.Within classTable m o e idx ∧ (e.items obj)[e.first + (idx - 1).toNat]? = some x ∧
      v = p.encode e x
  | .atPut p o idx v,(r,m') => r = v ∧ ∃ obj e obj',m o = some obj ∧
      p.extent classTable m obj = some e ∧ p.Within classTable m o e idx ∧
      e.first + (idx - 1).toNat < (e.items obj).length ∧
      e.Replaced obj obj' (e.first + (idx - 1).toNat) (p.decode e v) ∧
      m' = m.put o (some obj')
  | .replace dst start stop src repStart,(r,m') => r = dst ∧
      (stop = start - 1 ∧ m' = m ∨
        ∃ dstObj srcObj dst',m dst = some dstObj ∧ m src = some srcObj ∧
          AtPrim.array.size classTable m [dst] =
            .ok (smallIntOop (moveExtent classTable m dstObj).count,m) ∧
          AtPrim.array.size classTable m [src] =
            .ok (smallIntOop (moveExtent classTable m srcObj).count,m) ∧
          1 ≤ start ∧ stop ≤ (moveExtent classTable m dstObj).count ∧
          1 ≤ repStart ∧ repStart + (stop - start) ≤ (moveExtent classTable m srcObj).count ∧
          Moved classTable m dstObj srcObj dst' start stop repStart ∧
          m' = m.put dst (some dst'))
  | .basicNew _ requested,(o,m') => ∃ n : Nat,
      primBasicSize classTable m' [o] = .ok (smallIntOop n,m') ∧ (n : Int) = requested

/-! ## When the checks are enough -/

/-- The elements that a primitive reads and writes: `prim_array_at` takes words of any object. -/
def AtPrim.touched (p : AtPrim) (obj : Obj) : Option Extent :=
  match p with
  | .array => some ⟨false,0,obj.payload.length⟩
  | _ => p.extent classTable m obj

/-- The checks of `at:put:` other than that of the index. -/
def AtPrim.admits (p : AtPrim) (obj : Obj) (v : Oop) : Prop :=
  match p with
  | .array => True
  | .string => obj.isImmutable = false ∧ isChar v = true ∧ charVal v ≤ 255
  | .byte => obj.isImmutable = false ∧ isSmallInt v = true ∧ 0 ≤ smallIntVal v ∧ smallIntVal v ≤ 255
  | .basic => obj.isImmutable = false ∧
      (formatIsBytes (getReceiverFormat classTable m obj) = true →
        isSmallInt v = true ∧ 0 ≤ smallIntVal v ∧ smallIntVal v ≤ 255)

/-- An index that gets past the comparison has 32 bits, the object is of the kind that the primitive is
for, and it is long enough. -/
def AtPrim.Guarded (p : AtPrim) (obj : Obj) (idx : Int) : Prop :=
  ∀ e,p.touched classTable m obj = some e → 1 ≤ idx → uint32 idx ≤ e.count →
    idx < 2 ^ 32 ∧ p.extent classTable m obj = some e ∧ e.first + idx ≤ (e.items obj).length

def MoveGuarded (dst src : Obj) (start stop repStart : Int) : Prop :=
  let e := moveExtent classTable m dst
  let f := moveExtent classTable m src
  dst.isImmutable = false → getReceiverFormat classTable m dst ≠ 0 →
    getReceiverFormat classTable m src ≠ 0 → e.ofBytes = f.ofBytes →
    1 ≤ start → start ≤ stop → 1 ≤ repStart →
    uint32 stop ≤ e.count → uint32 (repStart + (stop - start)) ≤ f.count →
    (stop < 2 ^ 32 ∧ e.first + stop ≤ (e.items dst).length) ∧
      repStart + (stop - start) < 2 ^ 32 ∧
      f.first + (repStart + (stop - start)) ≤ (f.items src).length

def IndexedCall.Guarded (alloc : Allocator) : IndexedCall → Prop
  | .at p o idx => ∀ obj,isHeap o → m o = some obj → p.Guarded classTable m obj idx
  | .atPut p o idx v => ∀ obj,isHeap o → m o = some obj → p.admits classTable m obj v →
      p.Guarded classTable m obj idx
  | .replace dst start stop src repStart => ∀ dstObj srcObj,isHeap dst → isHeap src →
      m dst = some dstObj → m src = some srcObj →
      MoveGuarded classTable m dstObj srcObj start stop repStart
  | .basicNew cls requested => ∀ fmt o m',isHeap cls → 0 ≤ requested →
      m.slot cls classSlotFormat = some fmt → formatIsInstantiable fmt = true →
      formatIsIndexable fmt = true → classTableIndexOf classTable cls ≠ 0 →
      alloc m (classTableIndexOf classTable cls) (newTotalWords fmt requested) = some (o,m') →
      requested < 2 ^ 32

end

/-! ## The proof -/

attribute [simp] isSmallInt_smallIntOop isImmediate AtPrim.touched byteExtent Extent.items
  AtPrim.encode AtPrim.decode AtPrim.at AtPrim.atPut AtPrim.size AtPrim.admits

section

variable {α β : Type} {m : Memory} {o : Oop} {obj : Obj}

namespace Access

@[simp] theorem ok_bind (a : α) (f : α → Access β) : (Except.ok a : Access α) >>= f = f a := rfl

@[simp] theorem pure_eq (a : α) : (pure a : Access α) = .ok a := rfl

@[simp] theorem heapObject_eq (h : m o = some obj) : heapObject m o = .ok obj := by
  rw [heapObject,h]
  rfl

variable {x : Access α} {q : α → Prop} {i : Nat}

@[simp] theorem sound_bind {f : α → Access β} {q : β → Prop} :
    Sound (x >>= f) q ↔ Sound x (fun a => Sound (f a) q) := by
  cases x with
  | ok a => rfl
  | error e => cases e <;> rfl

@[simp] theorem sound_ok {a : α} : Sound (.ok a) q ↔ q a := Iff.rfl

@[simp] theorem sound_pure {a : α} : Sound (pure a) q ↔ q a := Iff.rfl

@[simp] theorem sound_failWith {n : Nat} : Sound (failWith n) q := trivial

@[simp] theorem sound_inObject {x : Option α} : Sound (inObject x) q ↔ ∃ a,x = some a ∧ q a := by
  cases x <;> simp [Sound,inObject]

@[simp] theorem sound_heapObject {q : Obj → Prop} :
    Sound (heapObject m o) q ↔ ∃ obj,m o = some obj ∧ q obj := sound_inObject

@[simp] theorem sound_loadByte {q : Nat → Prop} :
    Sound (loadByte obj i) q ↔ ∃ b,obj.bytes[i]? = some b ∧ q b := sound_inObject

@[simp] theorem sound_loadWord {q : Nat → Prop} :
    Sound (loadWord obj i) q ↔ ∃ w,obj.payload[i]? = some w ∧ q w := sound_inObject

@[simp] theorem sound_storeByte {b : Nat} {q : Memory → Prop} : Sound (storeByte m o obj i b) q ↔
      i < obj.bytes.length ∧ q (m.put o (some (obj.setBytes (obj.bytes.set i b)))) := by
  unfold storeByte
  split <;> simp_all [Sound]

@[simp] theorem sound_storeWord {w : Oop} {q : Memory → Prop} : Sound (storeWord m o obj i w) q ↔
      i < obj.payload.length ∧ q (m.put o (some { obj with payload := obj.payload.set i w })) := by
  unfold storeWord
  split <;> simp_all [Sound]

@[simp] theorem sound_ite {c : Prop} [Decidable c] {n : Nat} :
    Sound (if c then failWith n else x) q ↔ (¬ c → Sound x q) := by
  split <;> simp_all

end Access

open Access

@[simp] theorem indexOutOfRange_false {idx : Int} {count : Nat} :
    indexOutOfRange idx count = false ↔ 1 ≤ idx ∧ uint32 idx ≤ count := by
  simp [indexOutOfRange]

theorem length_bytes (obj : Obj) : obj.bytes.length = 8 * obj.payload.length := by
  unfold Obj.bytes
  induction obj.payload with
  | nil => rfl
  | cons w ws ih => simp [flatMap_cons,length_toLe,ih]; omega

theorem bytes_lt (obj : Obj) : ∀ b ∈ obj.bytes,b < 256 := by
  intro b hb
  obtain ⟨w,_,hw⟩ := mem_flatMap.mp hb
  exact toLe_lt hw

theorem bytes_setBytes {bytes : List Nat} (hlen : bytes.length = obj.bytes.length)
    (hbytes : ∀ b ∈ bytes,b < 256) : (obj.setBytes bytes).bytes = bytes := by
  have hlen := hlen.trans (length_bytes obj)
  have h := packWords_bytes (Nat.le_of_eq hlen) hbytes
  simpa [Obj.setBytes,Obj.bytes,hlen] using h

@[simp] def Extent.put (e : Extent) (obj : Obj) (items : List Nat) : Obj :=
  if e.ofBytes then obj.setBytes items else { obj with payload := items }

theorem put_header (e : Extent) (items : List Nat) :
    e.put obj items = { obj with payload := (e.put obj items).payload } := by
  cases h : e.ofBytes <;> simp [h,Obj.setBytes]

variable {e : Extent} {i j n : Nat} {p : AtPrim} {nilOop cls : Oop} {items : List β}

theorem put_size {items : List Nat} (hlen : items.length = (e.items obj).length) :
    (e.put obj items).payload.length = obj.payload.length := by
  cases h : e.ofBytes with
  | false => simpa [h] using hlen
  | true => simp [h,Obj.setBytes,length_packWords]

theorem items_put {items : List Nat} (hlen : items.length = (e.items obj).length)
    (hbytes : e.ofBytes = true → ∀ b ∈ items,b < 256) : e.items (e.put obj items) = items := by
  cases h : e.ofBytes with
  | false => simp [h]
  | true =>
    simp only [Extent.items,Extent.put,h,if_true] at hlen ⊢
    exact bytes_setBytes hlen (hbytes h)

theorem items_lt (h : e.ofBytes = true) : ∀ b ∈ e.items obj,b < 256 := by
  simpa [h] using bytes_lt obj

theorem put_replaced {x : Nat} (hx : e.ofBytes = true → x < 256) :
    e.Replaced obj (e.put obj ((e.items obj).set i x)) i x := by
  have hlen : ((e.items obj).set i x).length = (e.items obj).length := length_set ..
  refine ⟨put_header e _,put_size hlen,items_put hlen fun h b hb => ?_⟩
  rcases mem_or_eq_of_mem_set hb with hb | rfl
  · exact items_lt h b hb
  · exact hx h

variable {classTable : List Oop} {idx : Int}

section

variable (hheap : isHeap o = true) (hobj : m o = some obj)

include hheap hobj

theorem sound_byteAccessSetup {q : Obj × Nat × Nat → Prop} :
    Sound (byteAccessSetup classTable m o) q ↔ (getReceiverFormat classTable m obj ≠ 0 →
        formatIsBytes (getReceiverFormat classTable m obj) = true →
        q (obj,formatInstVars (getReceiverFormat classTable m obj),
          byteCount obj (formatInstVars (getReceiverFormat classTable m obj)))) := by
  simp [byteAccessSetup,hheap,hobj]

theorem at_sound {p : AtPrim} {q : Oop × Memory → Prop} (hidx : inSmallInt idx) :
    Sound (p.at classTable m [o,smallIntOop idx]) q ↔
      ∀ e,p.touched classTable m obj = some e → 1 ≤ idx → uint32 idx ≤ e.count →
        ∃ x,(e.items obj)[e.first + (idx - 1).toNat]? = some x ∧ q (p.encode e x,m) := by
  have hval : smallIntVal (smallIntOop idx) = idx := smallIntVal_inSmallInt hidx
  cases p with
  | array => simp [primArrayAt,hheap,hobj,hval]
  | string => simp [primStringAt,hval,sound_byteAccessSetup hheap hobj,AtPrim.extent]
  | byte => simp [primByteAt,hval,sound_byteAccessSetup hheap hobj,AtPrim.extent]
  | basic =>
    by_cases hfmt : getReceiverFormat classTable m obj = 0
    · simp [primBasicAt,hheap,hobj,AtPrim.extent,hfmt]
    cases hbytes : formatIsBytes (getReceiverFormat classTable m obj) <;>
      simp [primBasicAt,hheap,hobj,hval,AtPrim.extent,hfmt,hbytes]

/-- What `at:put:` does with an index that gets past the check. -/
theorem atPut_sound {p : AtPrim} {v : Oop} {q : Oop × Memory → Prop} (hidx : inSmallInt idx) :
    Sound (p.atPut classTable m [o,smallIntOop idx,v]) q ↔ (p.admits classTable m obj v →
        ∀ e,p.touched classTable m obj = some e → 1 ≤ idx → uint32 idx ≤ e.count →
          e.first + (idx - 1).toNat < (e.items obj).length ∧ q (v,m.put o (some (e.put obj
              ((e.items obj).set (e.first + (idx - 1).toNat) (p.decode e v)))))) := by
  have hval : smallIntVal (smallIntOop idx) = idx := smallIntVal_inSmallInt hidx
  cases p with
  | array => simp [primArrayAtPut,hheap,hobj,hval]
  | string =>
    simp [primStringAtPut,hheap,hobj,hval,sound_byteAccessSetup hheap hobj,AtPrim.extent]
    exact ⟨fun h himm hchar hval hfmt hbytes h1 hle => h himm hfmt hbytes hchar h1 hle hval,
      fun h himm hfmt hbytes hchar h1 hle hval => h himm hchar hval hfmt hbytes h1 hle⟩
  | byte =>
    simp [primByteAtPut,hheap,hobj,hval,sound_byteAccessSetup hheap hobj,AtPrim.extent]
    exact ⟨fun h himm hint h0 h255 hfmt hbytes h1 hle => h himm hfmt hbytes hint h1 hle h0 h255,
      fun h himm hfmt hbytes hint h1 hle h0 h255 => h himm hint h0 h255 hfmt hbytes h1 hle⟩
  | basic =>
    by_cases hfmt : getReceiverFormat classTable m obj = 0
    · simp [primBasicAtPut,hheap,hobj,AtPrim.extent,hfmt]
    cases hbytes : formatIsBytes (getReceiverFormat classTable m obj) <;>
      simp [primBasicAtPut,hheap,hobj,hval,AtPrim.extent,hfmt,hbytes]
    exact ⟨fun h himm hint h0 h255 hindexable h1 hle => h himm hindexable h1 hle hint h0 h255,
      fun h himm hindexable h1 hle hint h0 h255 => h himm hint h0 h255 hindexable h1 hle⟩

end

theorem at_immediate (p : AtPrim) (args : List Oop) (hheap : isHeap o = false) :
    ∃ n,p.at classTable m (o :: args) = failWith n := by
  cases p <;> exact ⟨1,by simp [primArrayAt,primStringAt,primByteAt,primBasicAt,byteAccessSetup,
    hheap,primBadReceiver]; try rfl⟩

theorem atPut_immediate (p : AtPrim) (args : List Oop) (hheap : isHeap o = false) :
    ∃ n,p.atPut classTable m (o :: args) = failWith n := by
  cases p <;> exact ⟨1,by simp [primArrayAtPut,primStringAtPut,primByteAtPut,primBasicAtPut,hheap,
    primBadReceiver]⟩

theorem size_of_extent (hheap : isHeap o = true) (hobj : m o = some obj)
    (he : p.extent classTable m obj = some e) :
    p.size classTable m [o] = .ok (smallIntOop e.count,m) := by
  cases p with
  | array | string | byte =>
    simp only [AtPrim.extent] at he
    split at he <;> cases he
    simp_all [primArraySize,primByteSize,byteAccessSetup]
  | basic =>
    simp only [AtPrim.extent] at he
    split at he <;> try cases he
    split at he <;> cases he <;> simp_all [primBasicSize]

theorem touched_of_extent (he : p.extent classTable m obj = some e) :
    p.touched classTable m obj = some e := by
  cases p with
  | array =>
    simp only [AtPrim.extent] at he
    split at he
    · cases he
    · exact he
  | _ => exact he

theorem byteCount_lt (obj : Obj) (instVars : Nat) : byteCount obj instVars < 2 ^ 32 :=
  Nat.mod_lt _ (by decide)

theorem varWords_lt (obj : Obj) (instVars : Nat) : varWords obj instVars < 2 ^ 32 :=
  Nat.mod_lt _ (by decide)

theorem extent_count_lt (hsize : obj.payload.length < 2 ^ 32)
    (he : p.extent classTable m obj = some e) : e.count < 2 ^ 32 := by
  have hbytes := byteCount_lt obj (formatInstVars (getReceiverFormat classTable m obj))
  have hwords := varWords_lt obj (formatInstVars (getReceiverFormat classTable m obj))
  cases p <;> simp only [AtPrim.extent] at he <;> split at he <;> try split at he
  all_goals cases he <;> assumption

theorem uint32_of_lt {idx : Int} (h0 : 0 ≤ idx) (h : idx < 2 ^ 32) : (uint32 idx : Int) = idx := by
  unfold uint32
  omega

def SizesFit (m : Memory) : Prop := ∀ o obj,m o = some obj → obj.payload.length < 2 ^ 32

theorem at_correct_iff {alloc : Allocator} (hsizes : SizesFit m)
    (hobj : isHeap o = true → (m o).isSome) (hidx : inSmallInt idx) :
    Sound ((IndexedCall.at p o idx).run classTable m alloc nilOop)
        ((IndexedCall.at p o idx).Correct classTable m) ↔
      (IndexedCall.at p o idx).Guarded classTable m alloc := by
  cases hheap : isHeap o with
  | false =>
    obtain ⟨n,hn⟩ := @at_immediate m o classTable p [smallIntOop idx] hheap
    rw [IndexedCall.run,hn]
    simp [IndexedCall.Guarded,hheap]
  | true =>
    obtain ⟨obj,hobj⟩ := isSome_iff_exists.mp (hobj hheap)
    simp only [IndexedCall.run,IndexedCall.Guarded,at_sound hheap hobj hidx,AtPrim.Guarded]
    constructor
    · intro h obj' _ hobj' e he h1 hle
      cases hobj.symm.trans hobj'
      obtain ⟨x,hx,_,_,e',_,hobj',hext,hwithin,_⟩ := h e he h1 hle
      cases hobj.symm.trans hobj'
      cases he.symm.trans (touched_of_extent hext)
      have hlt := extent_count_lt (hsizes o obj hobj) hext
      have hlen := (List.getElem?_eq_some_iff.mp hx).1
      have hidx := hwithin.2.2
      exact ⟨by omega,hext,by omega⟩
    · intro h e he h1 hle
      obtain ⟨hlt,hext,hlen⟩ := h obj hheap hobj e he h1 hle
      have hval := uint32_of_lt (by omega) hlt
      have hin : e.first + (idx - 1).toNat < (e.items obj).length := by omega
      have hget := getElem?_eq_getElem hin
      exact ⟨_,hget,rfl,obj,e,_,hobj,hext,⟨size_of_extent hheap hobj hext,h1,by omega⟩,hget,rfl⟩

theorem decode_lt {v : Oop} (hallowed : p.admits classTable m obj v)
    (he : p.extent classTable m obj = some e) (hbytes : e.ofBytes = true) : p.decode e v < 256 := by
  cases p with
  | array =>
    simp only [AtPrim.extent] at he
    split at he <;> cases he
    cases hbytes
  | string =>
    have h : charVal v < 256 := Nat.lt_succ_of_le hallowed.2.2
    simpa [hbytes] using h
  | byte =>
    obtain ⟨_,_,h0,h1⟩ := hallowed
    have h : (smallIntVal v).toNat < 256 := by omega
    simpa [hbytes] using h
  | basic =>
    have hfmt : formatIsBytes (getReceiverFormat classTable m obj) = true := by
      simp only [AtPrim.extent] at he
      split at he <;> try cases he
      split at he <;> cases he
      · simp_all
      · cases hbytes
    obtain ⟨_,h0,h1⟩ := hallowed.2 hfmt
    have h : (smallIntVal v).toNat < 256 := by omega
    simpa [hbytes] using h

theorem atPut_correct_iff {alloc : Allocator} {v : Oop} (hsizes : SizesFit m)
    (hobj : isHeap o = true → (m o).isSome) (hidx : inSmallInt idx) :
    Sound ((IndexedCall.atPut p o idx v).run classTable m alloc nilOop)
        ((IndexedCall.atPut p o idx v).Correct classTable m) ↔
      (IndexedCall.atPut p o idx v).Guarded classTable m alloc := by
  cases hheap : isHeap o with
  | false =>
    obtain ⟨n,hn⟩ := @atPut_immediate m o classTable p [smallIntOop idx,v] hheap
    rw [IndexedCall.run,hn]
    simp [IndexedCall.Guarded,hheap]
  | true =>
    obtain ⟨obj,hobj⟩ := isSome_iff_exists.mp (hobj hheap)
    simp only [IndexedCall.run,IndexedCall.Guarded,atPut_sound hheap hobj hidx,AtPrim.Guarded]
    constructor
    · intro h obj' _ hobj' hallowed e he h1 hle
      cases hobj.symm.trans hobj'
      obtain ⟨hin,_,_,e',_,hobj',hext,hwithin,_⟩ := h hallowed e he h1 hle
      cases hobj.symm.trans hobj'
      cases he.symm.trans (touched_of_extent hext)
      have hlt := extent_count_lt (hsizes o obj hobj) hext
      have hidx := hwithin.2.2
      exact ⟨by omega,hext,by omega⟩
    · intro h hallowed e he h1 hle
      obtain ⟨hlt,hext,hlen⟩ := h obj hheap hobj hallowed e he h1 hle
      have hval := uint32_of_lt (by omega) hlt
      have hin : e.first + (idx - 1).toNat < (e.items obj).length := by omega
      exact ⟨hin,rfl,obj,e,_,hobj,hext,⟨size_of_extent hheap hobj hext,h1,by omega⟩,hin,
        put_replaced (decode_lt hallowed hext),rfl⟩

/-! ### Moves -/

theorem splice_some {dst src : List β} :
    splice dst i src j n = some items ↔ (i + n ≤ dst.length ∧ j + n ≤ src.length) ∧
      dst.take i ++ (src.drop j).take n ++ dst.drop (i + n) = items := by
  simp [splice]

theorem splice_length {dst src : List β} (h : splice dst i src j n = some items) :
    items.length = dst.length := by
  obtain ⟨⟨hi,hj⟩,rfl⟩ := splice_some.mp h
  simp
  omega

theorem splice_mem {dst src : List β} (h : splice dst i src j n = some items) {b : β}
    (hb : b ∈ items) : b ∈ dst ∨ b ∈ src := by
  obtain ⟨_,rfl⟩ := splice_some.mp h
  rcases mem_append.mp hb with hb | hb
  · rcases mem_append.mp hb with hb | hb
    · exact .inl (mem_of_mem_take hb)
    · exact .inr (mem_of_mem_drop (mem_of_mem_take hb))
  · exact .inl (mem_of_mem_drop hb)

theorem splice_getElem? {dst src : List β} (h : splice dst i src j n = some items) (k : Nat) :
    items[k]? = if i ≤ k ∧ k < i + n then src[j + (k - i)]? else dst[k]? := by
  obtain ⟨⟨hi,hj⟩,rfl⟩ := splice_some.mp h
  have htake : (dst.take i).length = i := by simp; omega
  have hmid : (dst.take i ++ (src.drop j).take n).length = i + n := by simp; omega
  split
  · rename_i hk
    rw [getElem?_append_left (by omega),getElem?_append_right (by omega),htake,
      getElem?_take_of_lt (by omega),getElem?_drop]
  · rename_i hk
    rcases Nat.lt_or_ge k i with hlt | hge
    · rw [getElem?_append_left (by omega),getElem?_append_left (by omega),getElem?_take_of_lt hlt]
    · rw [getElem?_append_right (by omega),hmid,getElem?_drop]
      congr 1
      omega

variable {dst src : Oop} {dstObj srcObj : Obj} {start stop repStart : Int}

theorem replace_sound {q : Oop × Memory → Prop} (hdst : isHeap dst = true)
    (hdstObj : m dst = some dstObj) (hsrc : isHeap src = true) (hsrcObj : m src = some srcObj)
    (hstart : inSmallInt start) (hstop : inSmallInt stop) (hrep : inSmallInt repStart) :
    Sound (primReplace classTable m
        [dst,smallIntOop start,smallIntOop stop,src,smallIntOop repStart]) q ↔
      (dstObj.isImmutable = false → 1 ≤ start → start - 1 ≤ stop → 1 ≤ repStart →
        (stop = start - 1 → q (dst,m)) ∧
        (start ≤ stop → getReceiverFormat classTable m dstObj ≠ 0 →
          getReceiverFormat classTable m srcObj ≠ 0 →
          (moveExtent classTable m dstObj).ofBytes = (moveExtent classTable m srcObj).ofBytes →
          uint32 stop ≤ (moveExtent classTable m dstObj).count →
          uint32 (repStart + (stop - start)) ≤ (moveExtent classTable m srcObj).count →
          ∃ items,splice ((moveExtent classTable m dstObj).items dstObj)
              ((moveExtent classTable m dstObj).first + (start - 1).toNat)
              ((moveExtent classTable m srcObj).items srcObj)
              ((moveExtent classTable m srcObj).first + (repStart - 1).toNat)
              (stop - start + 1).toNat = some items ∧
            q (dst,m.put dst (some ((moveExtent classTable m dstObj).put dstObj items))))) := by
  have hstart := smallIntVal_inSmallInt hstart
  have hstop := smallIntVal_inSmallInt hstop
  have hrep := smallIntVal_inSmallInt hrep
  have hcount : repStart + (stop - start + 1) - 1 = repStart + (stop - start) := by omega
  simp only [primReplace,getD_cons_zero,getD_cons_succ,isImmediate,hdst,hsrc,hdstObj,
    isSmallInt_smallIntOop,hstart,hstop,hrep,Bool.not_true,Bool.false_eq_true,if_false,Bool.or_self,
    sound_bind,sound_heapObject,some.injEq,exists_eq_left',sound_ite,Bool.not_eq_true,hcount]
  refine forall_congr' fun _ => ?_
  by_cases hrange : start < 1 ∨ stop < start - 1 ∨ repStart < 1
  · exact ⟨fun _ h1 h2 h3 => by omega,fun _ h => absurd hrange h⟩
  have hrange' : 1 ≤ start ∧ start - 1 ≤ stop ∧ 1 ≤ repStart := by omega
  simp only [hrange,hrange',not_false_eq_true,forall_const]
  by_cases hempty : stop - start + 1 = 0
  · rw [if_pos hempty]
    exact ⟨fun h => ⟨fun _ => h,fun hle => by omega⟩,fun h => h.1 (by omega)⟩
  have hne : ¬ stop = start - 1 ∧ start ≤ stop := by omega
  simp only [hempty,hne,if_false,sound_bind,sound_heapObject,hsrcObj,some.injEq,
    exists_eq_left',forall_const,false_implies,true_and,sound_ite,not_or,ne_eq,and_imp]
  refine forall_congr' fun _ => forall_congr' fun _ => ?_
  cases hd : formatIsBytes (getReceiverFormat classTable m dstObj) <;>
    cases hs : formatIsBytes (getReceiverFormat classTable m srcObj) <;>
    simp [moveExtent,hd,hs]

theorem moveExtent_size (hheap : isHeap o = true) (hobj : m o = some obj) :
    AtPrim.array.size classTable m [o] = .ok (smallIntOop (moveExtent classTable m obj).count,m) := by
  by_cases hbytes : formatIsBytes (getReceiverFormat classTable m obj) = true
  · have hfmt : getReceiverFormat classTable m obj ≠ 0 := by
      intro h
      rw [h] at hbytes
      exact absurd hbytes (by decide)
    simp [primArraySize,moveExtent,hheap,hobj,hbytes,hfmt]
  · simp [primArraySize,moveExtent,hheap,hobj,hbytes]

theorem moveExtent_count_lt (hsize : obj.payload.length < 2 ^ 32) :
    (moveExtent classTable m obj).count < 2 ^ 32 := by
  unfold moveExtent
  split
  · exact byteCount_lt obj _
  · exact hsize

theorem moved_of_splice {items : List Nat} {f : Extent} (he : moveExtent classTable m dstObj = e)
    (hf : moveExtent classTable m srcObj = f) (hkind : e.ofBytes = f.ofBytes) (hstart : 1 ≤ start)
    (hstop : start ≤ stop) (hrep : 1 ≤ repStart) (h : splice (e.items dstObj) (e.first + (start -
      1).toNat) (f.items srcObj) (f.first + (repStart - 1).toNat) (stop - start + 1).toNat = some
      items) :
    Moved classTable m dstObj srcObj (e.put dstObj items) start stop repStart := by
  have hitems : e.items (e.put dstObj items) = items := items_put (splice_length h) fun hb b hmem =>
      (splice_mem h hmem).elim (items_lt hb b) (items_lt (hkind ▸ hb) b)
  refine ⟨put_header e items,put_size (splice_length h),fun k => ?_⟩
  rw [he,hf,hitems,splice_getElem? h k]
  split
  · rename_i hk
    rw [if_pos (by omega)]
    congr 1
    omega
  · rename_i hk
    rw [if_neg (by omega)]

theorem replace_correct_iff {alloc : Allocator} (hsizes : SizesFit m)
    (hdst : isHeap dst = true → (m dst).isSome) (hsrc : isHeap src = true → (m src).isSome)
    (hstart : inSmallInt start) (hstop : inSmallInt stop) (hrep : inSmallInt repStart) :
    Sound ((IndexedCall.replace dst start stop src repStart).run classTable m alloc nilOop)
        ((IndexedCall.replace dst start stop src repStart).Correct classTable m) ↔
      (IndexedCall.replace dst start stop src repStart).Guarded classTable m alloc := by
  cases hdheap : isHeap dst with
  | false => simp [IndexedCall.run,IndexedCall.Guarded,primReplace,hdheap]
  | true =>
  obtain ⟨dstObj,hdstObj⟩ := isSome_iff_exists.mp (hdst hdheap)
  cases hsheap : isHeap src with
  | false =>
    simp [IndexedCall.run,IndexedCall.Guarded,primReplace,hdheap,hsheap,hdstObj]
  | true =>
  obtain ⟨srcObj,hsrcObj⟩ := isSome_iff_exists.mp (hsrc hsheap)
  simp only [IndexedCall.run,IndexedCall.Guarded,MoveGuarded,
    replace_sound hdheap hdstObj hsheap hsrcObj hstart hstop hrep]
  constructor
  · intro h dstObj' srcObj' _ _ hdstObj' hsrcObj' himm hd hs hkind h1 h2 h3 hle hle'
    cases hdstObj.symm.trans hdstObj'
    cases hsrcObj.symm.trans hsrcObj'
    obtain ⟨items,hsplice,_,hcorrect⟩ := (h himm h1 (by omega) h3).2 h2 hd hs hkind hle hle'
    rcases hcorrect with ⟨hempty,_⟩ | ⟨_,_,_,hdstObj',hsrcObj',_,_,_,hstop',_,hrep',_⟩
    · omega
    cases hdstObj.symm.trans hdstObj'
    cases hsrcObj.symm.trans hsrcObj'
    have hin := (splice_some.mp hsplice).1
    have hlt := @moveExtent_count_lt m dstObj classTable (hsizes _ _ hdstObj)
    have hlt' := @moveExtent_count_lt m srcObj classTable (hsizes _ _ hsrcObj)
    refine ⟨⟨by omega,by omega⟩,by omega,by omega⟩
  · intro h himm h1 h2 h3
    refine ⟨fun hempty => ⟨rfl,.inl ⟨hempty,rfl⟩⟩,fun hle hd hs hkind hcount hcount' => ?_⟩
    obtain ⟨⟨hlt,hlen⟩,hlt',hlen'⟩ :=
      h dstObj srcObj hdheap hsheap hdstObj hsrcObj himm hd hs hkind h1 hle h3 hcount hcount'
    have hval := uint32_of_lt (by omega) hlt
    have hval' := uint32_of_lt (by omega) hlt'
    have hsplice := splice_some.mpr ⟨(⟨by omega,by omega⟩ :
      (moveExtent classTable m dstObj).first + (start - 1).toNat + (stop - start + 1).toNat ≤
          ((moveExtent classTable m dstObj).items dstObj).length ∧
        (moveExtent classTable m srcObj).first + (repStart - 1).toNat + (stop - start + 1).toNat ≤
          ((moveExtent classTable m srcObj).items srcObj).length),rfl⟩
    exact ⟨_,hsplice,rfl,.inr ⟨dstObj,srcObj,_,hdstObj,hsrcObj,moveExtent_size hdheap hdstObj,
      moveExtent_size hsheap hsrcObj,h1,by omega,h3,by omega,
      moved_of_splice rfl rfl hkind h1 hle h3 hsplice,rfl⟩⟩

/-! ### New objects -/

/-- What an allocation gives: a new object of the class, and class objects that read as before. -/
structure Allocator.Spec (classTable : List Oop) (alloc : Allocator) (m : Memory) : Prop where
  heap : ∀ c n o m',alloc m c n = some (o,m') → isHeap o = true
  object : ∀ c n o m',alloc m c n = some (o,m') → ∃ obj,m' o = some obj ∧ obj.classIndex = c
  formats : ∀ c n o m',alloc m c n = some (o,m') → ∀ x,
    classFormats classTable (m'.put o x) c = classFormats classTable m c

theorem classTableIndexOf_get (h : classTableIndexOf classTable cls ≠ 0) :
    classTable.getD (classTableIndexOf classTable cls) 0 = cls ∧ cls ≠ 0 := by
  unfold classTableIndexOf at h ⊢
  split
  · rename_i hzero
    exact absurd (if_pos hzero) h
  · rename_i hcls
    rw [if_neg hcls] at h
    cases hfind : (List.range classTable.length).find?
        (fun i => decide (i ≠ 0 ∧ classTable.getD i 0 = cls)) with
    | none => exact absurd (by rw [hfind]; rfl) h
    | some i =>
      have hi := find?_some hfind
      exact ⟨(of_decide_eq_true hi).2,hcls⟩

theorem initIndexed_size (fmt : Oop) (requested : Int) (nilOop : Oop) (obj : Obj) :
    (if formatIsBytes fmt then byteCount (initIndexed fmt requested nilOop obj) (formatInstVars fmt)
      else varWords (initIndexed fmt requested nilOop obj) (formatInstVars fmt)) =
      uint32 requested := by
  have hinst : formatInstVars fmt < 256 := by unfold formatInstVars; omega
  have hreq : uint32 requested < 2 ^ 32 := by unfold uint32; omega
  cases hbytes : formatIsBytes fmt with
  | false =>
    simp only [initIndexed,newTotalWords,newVarWords,hbytes,Bool.false_eq_true,if_false,varWords,
      length_replicate]
    omega
  | true =>
    simp only [initIndexed,newVarWords,hbytes,if_true,byteCount,varWords,bytePadding,
      length_append,length_replicate]
    omega

theorem newObject_reports {alloc : Allocator} {fmt : Oop} {requested : Int} {m' : Memory}
    (halloc : alloc.Spec classTable m)
    (hnew : alloc m (classTableIndexOf classTable cls) n = some (o,m'))
    (hindex : classTableIndexOf classTable cls ≠ 0) (hfmt : m.slot cls classSlotFormat = some fmt)
    (hindexable : formatIsIndexable fmt = true)
    (hclass : obj.classIndex = classTableIndexOf classTable cls) :
    primBasicSize classTable (m'.put o (some (initIndexed fmt requested nilOop obj))) [o] =
      .ok (smallIntOop (uint32 requested),m'.put o (some (initIndexed fmt requested nilOop obj))) := by
  have hclass : (initIndexed fmt requested nilOop obj).classIndex =
      classTableIndexOf classTable cls := by
    rw [← hclass]
    unfold initIndexed
    split <;> rfl
  have hsize := initIndexed_size fmt requested nilOop obj
  generalize initIndexed fmt requested nilOop obj = new at hclass hsize
  have hformat : getReceiverFormat classTable (m'.put o (some new)) new = fmt := by
    have hget := classTableIndexOf_get hindex
    rw [getReceiverFormat,hclass,halloc.formats _ _ _ _ hnew,classFormats,hget.1,if_neg hget.2,hfmt]
    rfl
  have hzero : fmt ≠ 0 := by
    intro h
    rw [h] at hindexable
    exact absurd hindexable (by decide)
  rw [← hsize]
  cases hbytes : formatIsBytes fmt <;>
    simp [primBasicSize,halloc.heap _ _ _ _ hnew,hformat,hindexable,hzero,hbytes]

theorem basicNew_correct_iff {alloc : Allocator} {requested : Int}
    (halloc : alloc.Spec classTable m)
    (hcls : isHeap cls = true → (m.slot cls classSlotFormat).isSome) (hreq : inSmallInt requested) :
    Sound ((IndexedCall.basicNew cls requested).run classTable m alloc nilOop)
        ((IndexedCall.basicNew cls requested).Correct classTable m) ↔
      (IndexedCall.basicNew cls requested).Guarded classTable m alloc := by
  have hval := smallIntVal_inSmallInt hreq
  cases hheap : isHeap cls with
  | false => simp [IndexedCall.run,IndexedCall.Guarded,primBasicNewSize,hheap]
  | true =>
  obtain ⟨fmt,hfmt⟩ := isSome_iff_exists.mp (hcls hheap)
  simp only [IndexedCall.run,IndexedCall.Guarded,primBasicNewSize,getD_cons_zero,
    getD_cons_succ,isImmediate,hheap,isSmallInt_smallIntOop,hval,hfmt,Bool.not_true,
    Bool.false_eq_true,if_false,sound_bind,sound_inObject,sound_ite,some.injEq,
    exists_eq_left',Bool.not_eq_true',Bool.not_eq_false,Int.not_lt]
  cases hnew : alloc m (classTableIndexOf classTable cls) (newTotalWords fmt requested) with
  | none =>
    simp only [sound_failWith,implies_true,true_iff]
    rintro fmt' o m' _ _ rfl _ _ _ h
    exact absurd (hnew.symm.trans h) (by simp)
  | some r =>
  obtain ⟨o,m'⟩ := r
  obtain ⟨obj,hobj,hclass⟩ := halloc.object _ _ _ _ hnew
  simp only [sound_heapObject,sound_bind,sound_pure,hobj,some.injEq,exists_eq_left',
    IndexedCall.Correct]
  constructor
  · intro h fmt' o' m'' _ h0 hfmt' hinst hindexable hindex _
    cases hfmt'
    obtain ⟨k,hsize,hk⟩ := h h0 hinst hindexable hindex
    rw [newObject_reports halloc hnew hindex hfmt hindexable hclass] at hsize
    have heq : smallIntVal (smallIntOop (uint32 requested)) = smallIntVal (smallIntOop k) := by
      rw [(Prod.mk.inj (Except.ok.inj hsize)).1]
    have hlt : uint32 requested < 2 ^ 32 := by unfold uint32; omega
    rw [hk,hval,smallIntVal_inSmallInt (by unfold inSmallInt; omega)] at heq
    omega
  · intro h h0 hinst hindexable hindex
    have hlt := h fmt o m' trivial h0 rfl hinst hindexable hindex hnew
    exact ⟨uint32 requested,newObject_reports halloc hnew hindex hfmt hindexable hclass,
      uint32_of_lt h0 hlt⟩

end

/-- The arguments: SmallIntegers, and objects that exist; the receiver of `basicNew:` is a class. -/
def IndexedCall.Valid (m : Memory) : IndexedCall → Prop
  | .at _ o idx | .atPut _ o idx _ => (isHeap o = true → (m o).isSome) ∧ inSmallInt idx
  | .replace dst start stop src repStart =>
      (isHeap dst = true → (m dst).isSome) ∧ (isHeap src = true → (m src).isSome) ∧
        inSmallInt start ∧ inSmallInt stop ∧ inSmallInt repStart
  | .basicNew cls requested =>
      (isHeap cls = true → (m.slot cls classSlotFormat).isSome) ∧ inSmallInt requested

/-- A call that succeeds stays within the reported size exactly if no index or count that gets past the
checks has more than 32 bits. -/
theorem indexed_access_iff {classTable : List Oop} {m : Memory} {alloc : Allocator} {nilOop : Oop}
    {call : IndexedCall} (hsizes : SizesFit m) (halloc : alloc.Spec classTable m)
    (hvalid : call.Valid m) :
    (call.run classTable m alloc nilOop).Sound (call.Correct classTable m) ↔
      call.Guarded classTable m alloc := by
  match call,hvalid with
  | .at p o idx,⟨hobj,hidx⟩ => exact at_correct_iff hsizes hobj hidx
  | .atPut p o idx v,⟨hobj,hidx⟩ => exact atPut_correct_iff hsizes hobj hidx
  | .replace dst start stop src repStart,⟨hdst,hsrc,hstart,hstop,hrep⟩ =>
    exact replace_correct_iff hsizes hdst hsrc hstart hstop hrep
  | .basicNew cls requested,⟨hcls,hreq⟩ => exact basicNew_correct_iff halloc hcls hreq

/-! An Array of one element at 32, its class at 16 and room for one more object at 64. -/

def arrayTable : List Oop := [0,16]

def arrayMemory : Memory := fun o =>
  if o = 16 then some ⟨2,0,0,0,[0,0,smallIntOop 256,0]⟩
  else if o = 32 then some ⟨1,0,0,0,[smallIntOop 7]⟩
  else none

def arrayAlloc : Allocator := fun m c n => some (64,m.put 64 (some (newObj c n)))

theorem arrayMemory_sizes : SizesFit arrayMemory := by
  intro o obj h
  simp only [arrayMemory] at h
  split at h
  · cases h; decide
  · split at h <;> cases h
    decide

theorem arrayAlloc_spec : arrayAlloc.Spec arrayTable arrayMemory where
  heap c n o m' h := by cases h; rfl
  object c n o m' h := by cases h; exact ⟨newObj c n,by simp,rfl⟩
  formats c n o m' h x := by
    cases h
    match c with
    | 0 => rfl
    | 1 => rfl
    | c + 2 => simp [classFormats,arrayTable]

theorem array_element_read :
    ((IndexedCall.at .array 32 1).run arrayTable arrayMemory arrayAlloc 0).Sound
      ((IndexedCall.at .array 32 1).Correct arrayTable arrayMemory) := by
  have hvalid : (IndexedCall.at .array 32 1).Valid arrayMemory := ⟨fun _ => rfl,by decide⟩
  refine (indexed_access_iff arrayMemory_sizes arrayAlloc_spec hvalid).mpr ?_
  intro obj _ hobj e he _ _
  cases hobj
  cases he
  exact ⟨by decide,rfl,by decide⟩

/-- The index `2 ^ 32 + 1` gets past the check of an Array of one element. -/
theorem array_at_outside : (IndexedCall.at .array 32 (2 ^ 32 + 1)).Valid arrayMemory ∧
      (IndexedCall.at .array 32 (2 ^ 32 + 1)).run arrayTable arrayMemory arrayAlloc 0 =
        .error .undefined ∧
      ¬ ((IndexedCall.at .array 32 (2 ^ 32 + 1)).run arrayTable arrayMemory arrayAlloc 0).Sound
        ((IndexedCall.at .array 32 (2 ^ 32 + 1)).Correct arrayTable arrayMemory) :=
  ⟨⟨fun _ => rfl,by decide⟩,rfl,id⟩

end SmalltalkA
