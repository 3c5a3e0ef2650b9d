import SmalltalkA.Opcode

/-! Method syntax trees as the parser builds them (`ast.h`), without source lines, which no modelled
function reads. -/

set_option autoImplicit false

namespace SmalltalkA

inductive Node where
  | method (selector : String) (args temps : List String) (body : List Node)
  | ret (expr : Node)
  | assign (name : String) (value : Node)
  | send (receiver : Node) (selector : String) (args : List Node)
  | superSend (receiver : Node) (selector : String) (args : List Node)
  | cascade (receiver : Node) (messages : List (String × List Node))
  | var (name : String)
  | literalInt (value : Int)
  | literalFloat
  | literalString (text : String)
  | literalSymbol (name : String)
  | literalChar (value : Nat)
  | literalArray (elements : List Node)
  | literalBool (value : Bool)
  | literalNil
  | block (args temps : List String) (body : List Node)
  | self

def Node.isReturn : Node → Bool
  | .ret _ => true
  | _ => false

def Node.isAssign : Node → Bool
  | .assign _ _ => true
  | _ => false

/-- `is_block_literal`. -/
def Node.isBlock : Node → Bool
  | .block _ _ _ => true
  | _ => false

end SmalltalkA
