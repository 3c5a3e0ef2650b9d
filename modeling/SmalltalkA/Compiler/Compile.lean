import SmalltalkA.Compiler.Assembly
import SmalltalkA.Compiler.Codegen

/-! The abstract generator: the same translation into structured assembly, where the length of the
code a jump passes is known and nothing is patched. It keeps the tables likewise. -/

set_option autoImplicit false

namespace SmalltalkA

variable {σ : Type}

/-- Assembly for a node placed at an offset. -/
abbrev Compile (σ : Type) := Nat → Tables σ → List AInstr × Tables σ

namespace Compile

def nothing : Compile σ := fun _ t => ([],t)

def andThen (c d : Compile σ) : Compile σ := fun pos t =>
  let r := c pos t
  let s := d (pos + codeSize r.1) r.2
  (r.1 ++ s.1,s.2)

def op (o : Opcode) (operand : Nat) : Compile σ := fun _ t => ([.op o operand],t)

def when (b : Bool) (o : Opcode) : Compile σ := if b then op o 0 else nothing

def ref (r : Ref σ) : Compile σ := fun _ t =>
  match r t with
  | (some (o,operand),t) => ([.op o operand],t)
  | (none,t) => ([],t)

def tables (f : Tables σ → Tables σ) : Compile σ := fun _ t => ([],f t)

def withTemps (f : Nat → Compile σ) : Compile σ := fun pos t => f t.tempNames.length pos t

/-- The jump passes `body`. -/
def skip (o : Opcode) (body : Compile σ) : Compile σ := fun pos t =>
  let r := body (pos + 2) t
  (.jump o (codeSize r.1) :: r.1,r.2)

/-- The first jump passes `body` and the second one, which passes `other`. -/
def branch (o : Opcode) (body other : Compile σ) : Compile σ := fun pos t =>
  let r := body (pos + 2) t
  let s := other (pos + 2 + codeSize r.1 + 2) r.2
  let jumpEnd := AInstr.jump .jump (codeSize s.1)
  (.jump o (codeSize (r.1 ++ [jumpEnd])) :: r.1 ++ jumpEnd :: s.1,s.2)

/-- The exit jump passes the body and the loop end, which repeats everything from the condition on.
-/
def loop (exit : Opcode) (cond body : Compile σ) : Compile σ := fun pos t =>
  let r := cond pos t
  let s := body (pos + codeSize r.1 + 2) r.2
  let again := AInstr.back (codeSize r.1 + 2 + codeSize s.1)
  (r.1 ++ .jump exit (codeSize (s.1 ++ [again])) :: s.1 ++ [again],s.2)

def block (env : CodegenEnv σ) (args temps : List String) (stmts : List Node)
    (body : Compile σ) : Compile σ := fun pos t =>
  let copy := AInstr.op (copyOp t) (lbAddUnique t.literals 0).1
  let bodyStart := pos + copy.size
  let r := andThen body (op .returnTop 0) bodyStart (openBlock args temps stmts t)
  (copy :: r.1,closeBlock env t args.length bodyStart (bodyStart + codeSize r.1) r.2)

end Compile

open Compile

structure Compiler (σ : Type) where
  node : Bool → Compile σ
  inlineBody : Option (Bool → Compile σ)

def compileBlockBodyInline (temps : List String) (isEmpty : Bool) (body : Bool → Compile σ)
    (forValue : Bool) : Compile σ :=
  if isEmpty then when forValue .pushNil
  else withTemps fun saved =>
    ((tables (cgAddTemps temps)).andThen (body forValue)).andThen (tables (cgRestoreTemps saved))

def compileInlinedIf (o : Opcode) (receiver : Compiler σ) (body : Bool → Compile σ)
    (forValue : Bool) : Compile σ :=
  (receiver.node true).andThen
    (if forValue then branch o (body true) (op .pushNil 0) else skip o (body false))

def tryCompileInlinedIf (sel : String) (receiver : Compiler σ) (args : List (Compiler σ))
    (forValue : Bool) : Option (Compile σ) :=
  match args.map Compiler.inlineBody with
  | [some body] =>
    if sel = "ifTrue:" then some (compileInlinedIf .jumpFalse receiver body forValue)
    else if sel = "ifFalse:" then some (compileInlinedIf .jumpTrue receiver body forValue)
    else none
  | [some body₀,some body₁] =>
    if sel = "ifTrue:ifFalse:" then
      some ((receiver.node true).andThen (branch .jumpFalse (body₀ forValue) (body₁ forValue)))
    else if sel = "ifFalse:ifTrue:" then
      some ((receiver.node true).andThen (branch .jumpFalse (body₁ forValue) (body₀ forValue)))
    else none
  | _ => none

def compileInlinedLoop (exit : Opcode) (cond : Bool → Compile σ) (body : Compile σ)
    (forValue : Bool) : Compile σ :=
  (loop exit (cond true) body).andThen (when forValue .pushNil)

def tryCompileInlinedLoop (sel : String) (receiver : Compiler σ) (args : List (Compiler σ))
    (forValue : Bool) : Option (Compile σ) :=
  match receiver.inlineBody,args.map Compiler.inlineBody with
  | some cond,[some body] =>
    if sel = "whileTrue:" then some (compileInlinedLoop .jumpFalse cond (body false) forValue)
    else if sel = "whileFalse:" then
      some (compileInlinedLoop .jumpTrue cond (body false) forValue)
    else none
  | some cond,[] =>
    if sel = "whileTrue" then some (compileInlinedLoop .jumpFalse cond nothing forValue)
    else if sel = "whileFalse" then some (compileInlinedLoop .jumpTrue cond nothing forValue)
    else none
  | _,_ => none

def compileInlinedLogic (o push : Opcode) (receiver : Compiler σ) (body : Bool → Compile σ)
    (forValue : Bool) : Compile σ :=
  ((receiver.node true).andThen (branch o (body true) (op push 0))).andThen
    (when (!forValue) .pop)

def tryCompileInlinedLogic (sel : String) (receiver : Compiler σ) (args : List (Compiler σ))
    (forValue : Bool) : Option (Compile σ) :=
  match args.map Compiler.inlineBody with
  | [some body] =>
    if sel = "and:" then some (compileInlinedLogic .jumpFalse .pushFalse receiver body forValue)
    else if sel = "or:" then some (compileInlinedLogic .jumpTrue .pushTrue receiver body forValue)
    else none
  | _ => none

def compileTimesRepeatLoop (env : CodegenEnv σ) (countIdx iIdx : Nat) (body : Bool → Compile σ)
    (forValue : Bool) : Compile σ :=
  ((((op .popStoreTemp countIdx).andThen (op .pushOne 0)).andThen (op .popStoreTemp iIdx)).andThen
    (loop .jumpFalse
      (((op .pushTemp iIdx).andThen (op .pushTemp countIdx)).andThen
        (ref (selectorRef env .send "<=")))
      (((((body false).andThen (op .pushTemp iIdx)).andThen (op .pushOne 0)).andThen
        (ref (selectorRef env .send "+"))).andThen (op .popStoreTemp iIdx)))).andThen
    (when forValue .pushNil)

def compileTimesRepeatTail (env : CodegenEnv σ) (body : Bool → Compile σ) (forValue : Bool)
    (countIdx : Nat) : Compile σ :=
  (((tables (cgAddTemp ⟨"__tr_count",true⟩)).andThen
    (tables (cgAddTemp ⟨"__tr_i",true⟩))).andThen
    (compileTimesRepeatLoop env (countIdx % 65536) ((countIdx + 1) % 65536) body forValue)).andThen
  (tables fun t => cgRestoreTemps (t.tempNames.length - 2) t)

def compileInlinedTimesRepeat (env : CodegenEnv σ) (receiver : Compiler σ)
    (body : Bool → Compile σ) (forValue : Bool) : Compile σ :=
  (receiver.node true).andThen (withTemps (compileTimesRepeatTail env body forValue))

def tryCompileInlinedTimesRepeat (env : CodegenEnv σ) (sel : String) (receiver : Compiler σ)
    (args : List (Compiler σ)) (forValue : Bool) : Option (Compile σ) :=
  match args.map Compiler.inlineBody with
  | [some body] =>
    if sel = "timesRepeat:" then some (compileInlinedTimesRepeat env receiver body forValue)
    else none
  | _ => none

def compileArgs : List (Compiler σ) → Compile σ
  | [] => nothing
  | arg :: args => (arg.node true).andThen (compileArgs args)

def compileNormalSend (env : CodegenEnv σ) (o : Opcode) (sel : String) (receiver : Compile σ)
    (args : List (Compiler σ)) (forValue : Bool) : Compile σ :=
  ((receiver.andThen (compileArgs args)).andThen (ref (selectorRef env o sel))).andThen
    (when (!forValue) .pop)

def compileSend (env : CodegenEnv σ) (sel : String) (receiver : Compiler σ)
    (args : List (Compiler σ)) (forValue : Bool) : Compile σ :=
  ((tryCompileInlinedIf sel receiver args forValue).orElse fun _ =>
    (tryCompileInlinedLoop sel receiver args forValue).orElse fun _ =>
    (tryCompileInlinedLogic sel receiver args forValue).orElse fun _ =>
    tryCompileInlinedTimesRepeat env sel receiver args forValue).getD
  (compileNormalSend env .send sel (receiver.node true) args forValue)

def compileCascadeMessages (env : CodegenEnv σ) :
    List (String × List (Compiler σ)) → Compile σ
  | [] => nothing
  | [(sel,args)] => (compileArgs args).andThen (ref (selectorRef env .send sel))
  | (sel,args) :: messages =>
    ((((op .dup 0).andThen (compileArgs args)).andThen (ref (selectorRef env .send sel))).andThen
      (op .pop 0)).andThen (compileCascadeMessages env messages)

def compileCascade (env : CodegenEnv σ) (receiver : Compiler σ)
    (messages : List (String × List (Compiler σ))) (forValue : Bool) : Compile σ :=
  ((receiver.node true).andThen (compileCascadeMessages env messages)).andThen
    (when (!forValue) .pop)

def compileReturn (expr : Node) (value : Compiler σ) : Compile σ := fun pos t =>
  if 0 < t.blockDepth then (value.node true).andThen (op .nonLocalReturn 0) pos t
  else
    match expr with
    | .literalNil => op .returnNil 0 pos t
    | .literalBool b => op (if b then .returnTrue else .returnFalse) 0 pos t
    | .self => op .returnSelf 0 pos t
    | _ => (value.node true).andThen (op .returnTop 0) pos t

def compileValue (c : Compile σ) : Bool → Compile σ := fun forValue =>
  if forValue then c else nothing

def compileStatement (stmt : Node) (c : Compiler σ) (isLast forValue : Bool)
    (rest : Compile σ) : Compile σ :=
  if isLast then c.node (forValue || stmt.isReturn)
  else if stmt.isReturn then c.node true
  else if stmt.isAssign then (c.node false).andThen rest
  else ((c.node true).andThen (op .pop 0)).andThen rest

mutual

def compiler (env : CodegenEnv σ) : Node → Compiler σ
  | .self => ⟨compileValue (op .pushReceiver 0),none⟩
  | .literalNil => ⟨compileValue (op .pushNil 0),none⟩
  | .literalBool b => ⟨compileValue (op (if b then .pushTrue else .pushFalse) 0),none⟩
  | .literalInt value => ⟨compileValue (ref (literalIntRef value)),none⟩
  | .literalFloat => ⟨compileValue (tables (cgError "float literals not yet supported")),none⟩
  | .literalString text => ⟨compileValue (ref (literalStringRef env text)),none⟩
  | .literalSymbol name => ⟨compileValue (ref (literalSymbolRef env name)),none⟩
  | .literalChar value => ⟨compileValue (ref (literalRef (charOop (value % 256)))),none⟩
  | .literalArray elements => ⟨compileValue (ref (literalArrayRef env elements)),none⟩
  | .var name => ⟨compileValue (ref (variableRef env name)),none⟩
  | .assign name value =>
    ⟨fun forValue => ((compiler env value).node true).andThen
      (ref (assignmentRef env name forValue)),none⟩
  | .send receiver sel args =>
    ⟨compileSend env sel (compiler env receiver) (compilers env args),none⟩
  | .superSend _ sel args =>
    ⟨compileNormalSend env .sendSuper sel (op .pushReceiver 0) (compilers env args),none⟩
  | .cascade receiver messages =>
    ⟨compileCascade env (compiler env receiver) (compileMessages env messages),none⟩
  | .ret expr => ⟨fun _ => compileReturn expr (compiler env expr),none⟩
  | .block args temps body =>
    ⟨compileValue (block env args temps body (compileStatements env body true)),
      some (compileBlockBodyInline temps body.isEmpty (compileStatements env body))⟩
  | .method _ _ _ _ =>
    ⟨fun _ => tables (cgError "unexpected NODE_METHOD in expression position"),none⟩

def compilers (env : CodegenEnv σ) : List Node → List (Compiler σ)
  | [] => []
  | n :: ns => compiler env n :: compilers env ns

def compileMessages (env : CodegenEnv σ) :
    List (String × List Node) → List (String × List (Compiler σ))
  | [] => []
  | (sel,args) :: messages => (sel,compilers env args) :: compileMessages env messages

def compileStatements (env : CodegenEnv σ) : List Node → Bool → Compile σ
  | [],forValue => when forValue .pushNil
  | stmt :: stmts,forValue =>
    compileStatement stmt (compiler env stmt) stmts.isEmpty forValue
      (compileStatements env stmts forValue)

end

def compileMethodBody (env : CodegenEnv σ) (body : List Node) : Compile σ :=
  if body.isEmpty then op .returnSelf 0
  else if lastIsReturn body then compileStatements env body false
  else (compileStatements env body true).andThen ((op .pop 0).andThen (op .returnSelf 0))

def compileMethod (env : CodegenEnv σ) (args temps : List String) (body : List Node) (vm : σ) :
    List AInstr :=
  (compileMethodBody env body 0
    (cgInit env args temps (analyzeCaptures args temps body) vm).tab).1

end SmalltalkA
