import Mathlib

/-! Tagged object pointers. An `Oop` is the 64-bit word of `oop.h`; the low two bits are the tag, of
which SmallIntegers use only the lowest one. -/

set_option autoImplicit false

namespace SmalltalkA

abbrev Oop := Nat

def wordSpan : Nat := 2 ^ 64

def isSmallInt (o : Oop) : Bool := o % 2 == 1

def isChar (o : Oop) : Bool := o % 4 == 2

def isHeap (o : Oop) : Bool := o % 4 == 0

def isImmediate (o : Oop) : Bool := !isHeap o

/-- `STA_SMALLINT_OOP`: shift left by one and set the tag, modulo the word. -/
def smallIntOop (n : Int) : Oop := ((2 * n + 1) % (wordSpan : Int)).toNat

/-- `STA_SMALLINT_VAL`: the arithmetic shift right of the signed word. -/
def smallIntVal (o : Oop) : Int :=
  if o < 2 ^ 63 then (o : Int) / 2 else ((o : Int) - (wordSpan : Int)) / 2

def charOop (cp : Nat) : Oop := (cp % 2 ^ 32) * 4 + 2

/-! Reserved class indices (`class_table.h`) that the modelled code names. -/

def clsSmallInteger : Nat := 1
def clsCharacter : Nat := 6
def clsSymbol : Nat := 7
def clsString : Nat := 8
def clsArray : Nat := 9
def clsCompiledMethod : Nat := 12
def clsBlockClosure : Nat := 13
def clsBlockDescriptor : Nat := 20
def clsMessage : Nat := 21
def clsBlockCannotReturn : Nat := 30
def clsFuture : Nat := 32
def clsFutureFailure : Nat := 33

end SmalltalkA
