import SmalltalkA.Compiler.Ast
import SmalltalkA.Compiler.Scanner

/-! The recursive descent parser (`parser.c`). Its state is the tokens from the current one on; its
first error ends the parse, since `had_error` is never reset. Fuel bounds the nesting and the rounds
of each loop. -/

set_option autoImplicit false

namespace SmalltalkA

inductive ParseFailure where
  /-- `parser_error`: the current token's line and the message. -/
  | message (line : Nat) (text : String)
  | outOfFuel
  deriving DecidableEq,Repr

abbrev Parsing := Except ParseFailure

abbrev Parse (α : Type) := List Token → Parsing (α × List Token)

def peekType : List Token → TokenType
  | [] => .eof
  | t :: _ => t.type

def parserError {α : Type} (toks : List Token) (text : String) : Parsing (α × List Token) :=
  .error (.message ((toks.head?.map Token.line).getD 0) text)

def tokenStr (t : Token) : String := String.ofList t.text

/-- `consume`. -/
def consume (type : TokenType) (text : String) : Parse Token
  | t :: rest => if t.type = type then .ok (t,rest) else parserError (t :: rest) text
  | [] => parserError [] text

/-! ### Literals -/

def decimal (digits : List Char) : Nat := digits.foldl (fun n c => 10 * n + (c.toNat - 48)) 0

/-- `strtoll` on the text of an integer token. -/
def strtoll (text : List Char) : Int :=
  let value : Int :=
    match text with
    | '-' :: digits => -(decimal digits : Int)
    | digits => decimal digits
  max (-(2 ^ 63)) (min (2 ^ 63 - 1) value)

def unescape : List Char → List Char
  | '\'' :: '\'' :: cs => '\'' :: unescape cs
  | c :: cs => c :: unescape cs
  | [] => []

def unquote (text : List Char) : List Char := unescape (text.drop 1).dropLast

def symbolName (text : List Char) : List Char :=
  if 2 ≤ text.length ∧ text.head? = some '\'' then unquote text else text

/-- `parse_literal` on the tokens that are literals by themselves. -/
def leafLiteral (t : Token) : Option Node :=
  match t.type with
  | .integer => some (.literalInt (strtoll t.text))
  | .float => some .literalFloat
  | .string => some (.literalString (String.ofList (unquote t.text)))
  | .symbolLiteral => some (.literalSymbol (String.ofList (symbolName (t.text.drop 1))))
  | .charLiteral => some (.literalChar ((t.text.getD 1 '\x00').toNat))
  | _ => none

def wordLiteral (t : Token) : Node :=
  if tokenStr t = "nil" then .literalNil
  else if tokenStr t = "true" then .literalBool true
  else if tokenStr t = "false" then .literalBool false
  else .literalSymbol (tokenStr t)

/-- What `consume` or the loop reports about a token that is no element. -/
def itemError (nested : Bool) (type : TokenType) : String :=
  if nested then "expected ')' in nested literal array"
  else if type = .eof then "expected ')' after literal array"
  else "unexpected token in literal array"

/-- The elements of a literal array and its closing parenthesis (`parse_literal_array`); in a
`nested` array, which only parentheses open, literals are the only elements. -/
def parseItems : Nat → Bool → Parse (List Node)
  | 0,_,_ => .error .outOfFuel
  | _ + 1,nested,[] => parserError [] (itemError nested .eof)
  | fuel + 1,nested,t :: rest =>
    if t.type = .rparen then .ok ([],rest)
    else
      match leafLiteral t with
      | some n => do
        let (ns,rest) ← parseItems fuel nested rest
        return (n :: ns,rest)
      | none =>
        if t.type = .hashParen then do
          let (inner,rest) ← parseItems fuel false rest
          let (ns,rest) ← parseItems fuel nested rest
          return (.literalArray inner :: ns,rest)
        else if nested then parserError (t :: rest) (itemError nested t.type)
        else if t.type = .identifier then do
          let (ns,rest) ← parseItems fuel nested rest
          return (wordLiteral t :: ns,rest)
        else if t.type = .lparen then do
          let (inner,rest) ← parseItems fuel true rest
          let (ns,rest) ← parseItems fuel nested rest
          return (.literalArray inner :: ns,rest)
        else if t.type = .binarySelector then do
          let (ns,rest) ← parseItems fuel nested rest
          return (.literalSymbol (tokenStr t) :: ns,rest)
        else parserError (t :: rest) (itemError nested t.type)

/-! ### Expressions

`expr` stands for `parse_expression` one level down, `fuel` for the rounds of a loop. -/

def takeNames : List Token → List String × List Token
  | t :: rest =>
    if t.type = .identifier then
      let (names,rest) := takeNames rest
      (tokenStr t :: names,rest)
    else ([],t :: rest)
  | [] => ([],[])

/-- Temporaries between bars, if any (`parse_temps`, and in `parse_block`). -/
def parseTemps (text : String) (toks : List Token) : Parsing (List String × List Token) :=
  match toks with
  | t :: rest =>
    if t.type = .vbar then do
      let (names,rest) := takeNames rest
      let (_,rest) ← consume .vbar text rest
      return (names,rest)
    else .ok ([],t :: rest)
  | [] => .ok ([],[])

/-- `:x :y` of a block. -/
def takeBlockArgs : Nat → Parse (List String)
  | 0,_ => .error .outOfFuel
  | fuel + 1,toks =>
    match toks with
    | t :: rest =>
      if t.type = .colon then do
        let (u,rest) ← consume .identifier "expected block argument name" rest
        let (names,rest) ← takeBlockArgs fuel rest
        return (tokenStr u :: names,rest)
      else .ok ([],t :: rest)
    | [] => .ok ([],[])

def parseBlockArgs (fuel : Nat) (toks : List Token) : Parsing (List String × List Token) :=
  if peekType toks = .colon then do
    let (names,rest) ← takeBlockArgs fuel toks
    let (_,rest) ← consume .vbar "expected '|' after block arguments" rest
    return (names,rest)
  else .ok ([],toks)

/-- `parse_statement`. -/
def parseStatement (expr : Parse Node) (toks : List Token) : Parsing (Node × List Token) :=
  match toks with
  | t :: rest =>
    if t.type = .ret then do
      let (n,rest) ← expr rest
      return (.ret n,rest)
    else expr (t :: rest)
  | [] => expr []

/-- Statements with periods between them, up to a token that cannot go on. -/
def parseStatements (expr : Parse Node) (inBlock : Bool) : Nat → Parse (List Node)
  | 0,_ => .error .outOfFuel
  | fuel + 1,toks =>
    if peekType toks = .eof ∨ inBlock = true ∧ peekType toks = .rbracket then .ok ([],toks)
    else do
      let (n,rest) ← parseStatement expr toks
      match rest with
      | t :: rest =>
        if t.type = .period then do
          let (ns,rest) ← parseStatements expr inBlock fuel rest
          return (n :: ns,rest)
        else .ok ([n],t :: rest)
      | [] => .ok ([n],[])

/-- `parse_block`, after its bracket. -/
def parseBlock (fuel : Nat) (expr : Parse Node) (toks : List Token) : Parsing (Node × List Token) := do
  let (args,rest) ← parseBlockArgs fuel toks
  let (temps,rest) ← parseTemps "expected '|' after block temporaries" rest
  let (body,rest) ← parseStatements expr true fuel rest
  let (_,rest) ← consume .rbracket "expected ']' after block body" rest
  return (.block args temps body,rest)

def isPseudoVariable (name : String) : Bool :=
  ["self","super","nil","true","false","thisContext"].contains name

def wordNode (t : Token) : Node :=
  if tokenStr t = "self" then .self
  else if tokenStr t = "nil" then .literalNil
  else if tokenStr t = "true" then .literalBool true
  else if tokenStr t = "false" then .literalBool false
  else .var (tokenStr t)

/-- `parse_primary`. -/
def parsePrimary (fuel : Nat) (expr : Parse Node) : Parse Node
  | [] => parserError [] "expected expression"
  | t :: rest =>
    if t.type = .identifier then .ok (wordNode t,rest)
    else
      match leafLiteral t with
      | some n => .ok (n,rest)
      | none =>
        if t.type = .hashParen then do
          let (ns,rest) ← parseItems fuel false rest
          return (.literalArray ns,rest)
        else if t.type = .lbracket then parseBlock fuel expr rest
        else if t.type = .lparen then do
          let (n,rest) ← expr rest
          let (_,rest) ← consume .rparen "expected ')' after expression" rest
          return (n,rest)
        else parserError (t :: rest) "expected expression"

def Node.isSuper : Node → Bool
  | .var name => name == "super"
  | _ => false

/-- A send; a message to the variable `super` is a super send. -/
def mkSend (receiver : Node) (selector : String) (args : List Node) : Node :=
  if receiver.isSuper then .superSend receiver selector args else .send receiver selector args

def Token.isUnary (t : Token) : Bool :=
  t.type == .identifier && !isPseudoVariable (tokenStr t)

/-- The loop of `parse_unary_expr`. -/
def unarySends : Node → List Token → Node × List Token
  | receiver,t :: rest =>
    if t.isUnary then unarySends (mkSend receiver (tokenStr t) []) rest else (receiver,t :: rest)
  | receiver,[] => (receiver,[])

/-- `parse_unary_expr`. -/
def parseUnaryExpr (fuel : Nat) (expr : Parse Node) (toks : List Token) : Parsing (Node × List Token) := do
  let (receiver,rest) ← parsePrimary fuel expr toks
  return unarySends receiver rest

def Token.isBinary (t : Token) : Bool := t.type == .binarySelector || t.type == .vbar

/-- The loop of `parse_binary_expr`. -/
def binarySends (unary : Parse Node) : Nat → Node → Parse Node
  | 0,_,_ => .error .outOfFuel
  | _ + 1,left,[] => .ok (left,[])
  | fuel + 1,left,t :: rest =>
    if t.isBinary then do
      let (right,rest) ← unary rest
      binarySends unary fuel (mkSend left (tokenStr t) [right]) rest
    else .ok (left,t :: rest)

/-- `parse_binary_expr`. -/
def parseBinaryExpr (fuel : Nat) (expr : Parse Node) (toks : List Token) : Parsing (Node × List Token) := do
  let (left,rest) ← parseUnaryExpr fuel expr toks
  binarySends (parseUnaryExpr fuel expr) fuel left rest

/-- Keywords with their arguments, and the selector put together from them. -/
def keywordParts (binary : Parse Node) : Nat → Parse (List Char × List Node)
  | 0,_ => .error .outOfFuel
  | _ + 1,[] => .ok (([],[]),[])
  | fuel + 1,t :: rest =>
    if t.type = .keyword then do
      let (arg,rest) ← binary rest
      let ((selector,args),rest) ← keywordParts binary fuel rest
      return ((t.text ++ selector,arg :: args),rest)
    else .ok (([],[]),t :: rest)

/-- `parse_keyword_expr`. -/
def parseKeywordExpr (fuel : Nat) (expr : Parse Node) (toks : List Token) : Parsing (Node × List Token) := do
  let (receiver,rest) ← parseBinaryExpr fuel expr toks
  if peekType rest = .keyword then
    let ((selector,args),rest) ← keywordParts (parseBinaryExpr fuel expr) fuel rest
    return (mkSend receiver (String.ofList selector) args,rest)
  else return (receiver,rest)

def cascadeMessage (fuel : Nat) (expr : Parse Node) (toks : List Token) :
    Parsing ((String × List Node) × List Token) :=
  match toks with
  | t :: rest =>
    if t.type = .identifier then .ok ((tokenStr t,[]),rest)
    else if t.type = .binarySelector then do
      let (arg,rest) ← parseUnaryExpr fuel expr rest
      return ((tokenStr t,[arg]),rest)
    else if t.type = .keyword then do
      let ((selector,args),rest) ← keywordParts (parseBinaryExpr fuel expr) fuel (t :: rest)
      return ((String.ofList selector,args),rest)
    else parserError (t :: rest) "expected message after cascade ';'"
  | [] => parserError [] "expected message after cascade ';'"

def cascadeMessages (fuel : Nat) (expr : Parse Node) :
    Nat → Parse (List (String × List Node))
  | 0,_ => .error .outOfFuel
  | _ + 1,[] => .ok ([],[])
  | rounds + 1,t :: rest =>
    if t.type = .semicolon then do
      let (m,rest) ← cascadeMessage fuel expr rest
      let (ms,rest) ← cascadeMessages fuel expr rounds rest
      return (m :: ms,rest)
    else .ok ([],t :: rest)

def Node.cascadeHead : Node → Option (Node × String × List Node)
  | .send receiver selector args => some (receiver,selector,args)
  | .superSend receiver selector args => some (receiver,selector,args)
  | _ => none

/-- `parse_cascade_or_expr`. -/
def parseCascadeOrExpr (fuel : Nat) (expr : Parse Node) (toks : List Token) :
    Parsing (Node × List Token) := do
  let (n,rest) ← parseKeywordExpr fuel expr toks
  if peekType rest = .semicolon then
    match n.cascadeHead with
    | some (receiver,selector,args) =>
      let (ms,rest) ← cascadeMessages fuel expr fuel rest
      return (.cascade receiver ((selector,args) :: ms),rest)
    | none => parserError rest "cascade (;) requires a message send before it"
  else return (n,rest)

/-- One level of `parse_expression`: an identifier before `:=` starts an assignment. -/
def expressionBody (fuel : Nat) (expr : Parse Node) (toks : List Token) : Parsing (Node × List Token) :=
  match toks with
  | t :: u :: rest =>
    if t.type = .identifier ∧ u.type = .assign then do
      let (value,rest) ← expr rest
      return (.assign (tokenStr t) value,rest)
    else parseCascadeOrExpr fuel expr (t :: u :: rest)
  | toks => parseCascadeOrExpr fuel expr toks

/-- `parse_expression`. -/
def parseExpression : Nat → Parse Node
  | 0,_ => .error .outOfFuel
  | fuel + 1,toks => expressionBody fuel (parseExpression fuel) toks

/-! ### Methods -/

def headerParts : Nat → Parse (List Char × List String)
  | 0,_ => .error .outOfFuel
  | _ + 1,[] => .ok (([],[]),[])
  | fuel + 1,t :: rest =>
    if t.type = .keyword then do
      let (u,rest) ← consume .identifier "expected argument name after keyword" rest
      let ((selector,args),rest) ← headerParts fuel rest
      return ((t.text ++ selector,tokenStr u :: args),rest)
    else .ok (([],[]),t :: rest)

/-- `parse_method_header`: the selector and the argument names. -/
def parseMethodHeader (fuel : Nat) : Parse (String × List String)
  | [] => parserError [] "expected method header"
  | t :: rest =>
    if t.type = .keyword then do
      let ((selector,args),rest) ← headerParts fuel (t :: rest)
      return ((String.ofList selector,args),rest)
    else if t.isBinary then do
      let (u,rest) ← consume .identifier "expected argument name after binary selector" rest
      return ((tokenStr t,[tokenStr u]),rest)
    else if t.type = .identifier then .ok ((tokenStr t,[]),rest)
    else parserError (t :: rest) "expected method header"

/-- `sta_parse_method` on the tokens of a source, with the tokens left when it returns. -/
def parseMethod (fuel : Nat) (toks : List Token) : Parsing (Node × List Token) := do
  let ((selector,args),rest) ← parseMethodHeader fuel toks
  let (temps,rest) ← parseTemps "expected '|' after temporary variables" rest
  let (body,rest) ← parseStatements (parseExpression fuel) false fuel rest
  return (.method selector args temps body,rest)

/-- `sta_parse_method`. -/
def staParseMethod (source : List Char) : Parsing (Node × List Token) :=
  parseMethod ((tokens source).length + 1) (tokens source)

end SmalltalkA
