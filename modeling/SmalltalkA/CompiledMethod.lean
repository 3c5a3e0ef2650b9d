import SmalltalkA.Opcode

/-! CompiledMethod header word and layout (`compiled_method.h`). -/

set_option autoImplicit false

namespace SmalltalkA

/-- The payload of a CompiledMethod: header word, literal frame, raw bytecodes. -/
structure CompiledMethod where
  header : Oop
  literals : List Oop
  bytecodes : List Nat
  deriving DecidableEq,Repr

/-- `STA_METHOD_HEADER`: fields at bits 1, 9, 17, 25, 33 and 34, SmallInteger tag. -/
def methodHeader (nArgs nTemps nLits primIdx : Nat) (hasPrim largeFr : Bool) : Oop :=
  (nArgs % 256) * 2 ^ 1 + (nTemps % 256) * 2 ^ 9 + (nLits % 256) * 2 ^ 17 +
    (primIdx % 256) * 2 ^ 25 + hasPrim.toNat * 2 ^ 33 + largeFr.toNat * 2 ^ 34 + 1

def methodNumArgs (h : Oop) : Nat := h / 2 ^ 1 % 256
def methodNumTemps (h : Oop) : Nat := h / 2 ^ 9 % 256
def methodNumLiterals (h : Oop) : Nat := h / 2 ^ 17 % 256
def methodPrimIndex (h : Oop) : Nat := h / 2 ^ 25 % 256
def methodHasPrim (h : Oop) : Bool := h / 2 ^ 33 % 2 == 1
def methodLargeFrame (h : Oop) : Bool := h / 2 ^ 34 % 2 == 1

theorem methodLargeFrame_header (a t l p : Nat) (hp lf : Bool) :
    methodLargeFrame (methodHeader a t l p hp lf) = lf := by
  have ha := Nat.mod_lt a (by decide : 0 < 256)
  have ht := Nat.mod_lt t (by decide : 0 < 256)
  have hl := Nat.mod_lt l (by decide : 0 < 256)
  have hi := Nat.mod_lt p (by decide : 0 < 256)
  have hb := Bool.toNat_le hp
  have hq : methodHeader a t l p hp lf / 2 ^ 34 = lf.toNat := by
    unfold methodHeader
    omega
  rw [methodLargeFrame,hq]
  cases lf <;> rfl

end SmalltalkA
