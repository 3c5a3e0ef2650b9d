import SmalltalkA.Compiler.Compile
import SmalltalkA.Selector

/-! Structured code: what the generator emits for a syntax tree before offsets and literal indices
are chosen. Every instruction has with it what its literal operand was emitted for. -/

set_option autoImplicit false

namespace SmalltalkA

open List Option

variable {σ : Type}

/-- What an operand was emitted for, where the instruction does not say it. -/
inductive Operand where
  | plain
  /-- the selector of a send, and how many arguments were pushed for it -/
  | selector (sel : String) (argCount : Nat)
  /-- the descriptor of a block whose body has that many bytes -/
  | body (size : Nat)
  deriving DecidableEq,Repr

structure Cell where
  instr : AInstr
  operand : Operand
  deriving DecidableEq,Repr

def Cell.size (c : Cell) : Nat := c.instr.size

def plain (a : AInstr) : Cell := ⟨a,.plain⟩

@[simp] theorem plain_size (a : AInstr) : (plain a).size = a.size := rfl

abbrev cellSize (cells : List Cell) : Nat := Layout.extent Cell.size cells

theorem codeSize_map (cells : List Cell) : codeSize (cells.map Cell.instr) = cellSize cells := by
  induction cells with
  | nil => rfl
  | cons c cs ih => simp [codeSize,cellSize,Layout.extent,Cell.size,ih]

inductive Code (σ : Type) where
  | nothing
  | op (o : Opcode) (operand : Nat)
  | ref (r : Ref σ)
  | send (o : Opcode) (sel : String) (argCount : Nat)
  | tables (f : Tables σ → Tables σ)
  | withTemps (f : Nat → Code σ)
  /-- code that depends on being inside a real block -/
  | inBlock (f : Bool → Code σ)
  | seq (c d : Code σ)
  | skip (o : Opcode) (body : Code σ)
  | branch (o : Opcode) (body other : Code σ)
  | loop (exit : Opcode) (cond body : Code σ)
  | block (args temps : List String) (stmts : List Node) (body : Code σ)

namespace Code

/-- `bb_emit` and its kin for structured code placed at an offset. -/
def emit (env : CodegenEnv σ) : Code σ → Nat → Tables σ → List Cell × Tables σ
  | .nothing,_,t => ([],t)
  | .op o operand,_,t => ([plain (.op o operand)],t)
  | .ref r,_,t =>
    match r t with
    | (some (o,operand),t) => ([plain (.op o operand)],t)
    | (none,t) => ([],t)
  | .send o sel argCount,_,t =>
    let (idx,t) := cgInternSelector env sel t
    ([⟨.op o idx,.selector sel argCount⟩],t)
  | .tables f,_,t => ([],f t)
  | .withTemps f,pos,t => (f t.tempNames.length).emit env pos t
  | .inBlock f,pos,t => (f (decide (0 < t.blockDepth))).emit env pos t
  | .seq c d,pos,t =>
    let r := c.emit env pos t
    let s := d.emit env (pos + cellSize r.1) r.2
    (r.1 ++ s.1,s.2)
  | .skip o body,pos,t =>
    let r := body.emit env (pos + 2) t
    (plain (.jump o (cellSize r.1)) :: r.1,r.2)
  | .branch o body other,pos,t =>
    let r := body.emit env (pos + 2) t
    let s := other.emit env (pos + 2 + cellSize r.1 + 2) r.2
    let jumpEnd := plain (.jump .jump (cellSize s.1))
    (plain (.jump o (cellSize (r.1 ++ [jumpEnd]))) :: r.1 ++ jumpEnd :: s.1,s.2)
  | .loop exit cond body,pos,t =>
    let r := cond.emit env pos t
    let s := body.emit env (pos + cellSize r.1 + 2) r.2
    let again := plain (.back (cellSize r.1 + 2 + cellSize s.1))
    (r.1 ++ plain (.jump exit (cellSize (s.1 ++ [again]))) :: s.1 ++ [again],s.2)
  | .block args temps stmts body,pos,t =>
    let copy := AInstr.op (copyOp t) (lbAddUnique t.literals 0).1
    let bodyStart := pos + copy.size
    let r := body.emit env bodyStart (openBlock args temps stmts t)
    let code := r.1 ++ [plain (.op .returnTop 0)]
    (⟨copy,.body (cellSize code)⟩ :: code,
      closeBlock env t args.length bodyStart (bodyStart + cellSize code) r.2)

def compile (env : CodegenEnv σ) (c : Code σ) : Compile σ := fun pos t =>
  ((c.emit env pos t).1.map Cell.instr,(c.emit env pos t).2)

variable (env : CodegenEnv σ)

@[simp] theorem compile_nothing : (nothing : Code σ).compile env = Compile.nothing := rfl

@[simp] theorem compile_op (o : Opcode) (k : Nat) :
    (op o k : Code σ).compile env = Compile.op o k := rfl

@[simp] theorem compile_ref (r : Ref σ) : (ref r).compile env = Compile.ref r := by
  funext pos t
  simp only [compile,emit,Compile.ref]
  cases hr : r t with
  | mk o t' => cases o <;> rfl

@[simp] theorem compile_send (o : Opcode) (sel : String) (n : Nat) :
    (send o sel n : Code σ).compile env = Compile.ref (selectorRef env o sel) := rfl

@[simp] theorem compile_tables (f : Tables σ → Tables σ) :
    (tables f).compile env = Compile.tables f := rfl

@[simp] theorem compile_withTemps (f : Nat → Code σ) :
    (withTemps f).compile env = Compile.withTemps fun k => (f k).compile env := rfl

@[simp] theorem compile_seq (c d : Code σ) :
    (seq c d).compile env = (c.compile env).andThen (d.compile env) := by
  funext pos t
  simp [compile,emit,Compile.andThen,codeSize_map]

@[simp] theorem compile_skip (o : Opcode) (body : Code σ) :
    (skip o body).compile env = Compile.skip o (body.compile env) := by
  funext pos t
  simp [compile,emit,Compile.skip,codeSize_map,plain]

@[simp] theorem compile_branch (o : Opcode) (body other : Code σ) :
    (branch o body other).compile env =
      Compile.branch o (body.compile env) (other.compile env) := by
  funext pos t
  simp [compile,emit,Compile.branch,codeSize_map,plain,Layout.extent,Cell.size]

@[simp] theorem compile_loop (exit : Opcode) (cond body : Code σ) :
    (loop exit cond body).compile env =
      Compile.loop exit (cond.compile env) (body.compile env) := by
  funext pos t
  simp [compile,emit,Compile.loop,codeSize_map,plain,Layout.extent,Cell.size]

@[simp] theorem compile_block (args temps : List String) (stmts : List Node) (body : Code σ) :
    (block args temps stmts body).compile env =
      Compile.block env args temps stmts (body.compile env) := by
  funext pos t
  simp [compile,emit,Compile.block,Compile.andThen,Compile.op,codeSize_map,plain,Layout.extent,
    Cell.size]

def when (b : Bool) (o : Opcode) : Code σ := if b then op o 0 else nothing

@[simp] theorem compile_when (b : Bool) (o : Opcode) :
    (when b o : Code σ).compile env = Compile.when b o := by
  cases b <;> rfl

end Code

/-! ## Code of a syntax tree

The functions follow those of the abstract generator one by one. -/

structure Coder (σ : Type) where
  node : Bool → Code σ
  inlineBody : Option (Bool → Code σ)

open Code in
def codeBlockBodyInline (temps : List String) (isEmpty : Bool) (body : Bool → Code σ)
    (forValue : Bool) : Code σ :=
  if isEmpty then when forValue .pushNil
  else withTemps fun saved =>
    ((tables (cgAddTemps temps)).seq (body forValue)).seq (tables (cgRestoreTemps saved))

open Code in
def codeInlinedIf (o : Opcode) (receiver : Coder σ) (body : Bool → Code σ) (forValue : Bool) :
    Code σ :=
  (receiver.node true).seq
    (if forValue then branch o (body true) (op .pushNil 0) else skip o (body false))

def tryCodeInlinedIf (sel : String) (receiver : Coder σ) (args : List (Coder σ))
    (forValue : Bool) : Option (Code σ) :=
  match args.map Coder.inlineBody with
  | [some body] =>
    if sel = "ifTrue:" then some (codeInlinedIf .jumpFalse receiver body forValue)
    else if sel = "ifFalse:" then some (codeInlinedIf .jumpTrue receiver body forValue)
    else none
  | [some body₀,some body₁] =>
    if sel = "ifTrue:ifFalse:" then
      some ((receiver.node true).seq (.branch .jumpFalse (body₀ forValue) (body₁ forValue)))
    else if sel = "ifFalse:ifTrue:" then
      some ((receiver.node true).seq (.branch .jumpFalse (body₁ forValue) (body₀ forValue)))
    else none
  | _ => none

def codeInlinedLoop (exit : Opcode) (cond : Bool → Code σ) (body : Code σ) (forValue : Bool) :
    Code σ :=
  (Code.loop exit (cond true) body).seq (Code.when forValue .pushNil)

def tryCodeInlinedLoop (sel : String) (receiver : Coder σ) (args : List (Coder σ))
    (forValue : Bool) : Option (Code σ) :=
  match receiver.inlineBody,args.map Coder.inlineBody with
  | some cond,[some body] =>
    if sel = "whileTrue:" then some (codeInlinedLoop .jumpFalse cond (body false) forValue)
    else if sel = "whileFalse:" then some (codeInlinedLoop .jumpTrue cond (body false) forValue)
    else none
  | some cond,[] =>
    if sel = "whileTrue" then some (codeInlinedLoop .jumpFalse cond .nothing forValue)
    else if sel = "whileFalse" then some (codeInlinedLoop .jumpTrue cond .nothing forValue)
    else none
  | _,_ => none

def codeInlinedLogic (o push : Opcode) (receiver : Coder σ) (body : Bool → Code σ)
    (forValue : Bool) : Code σ :=
  ((receiver.node true).seq (.branch o (body true) (.op push 0))).seq (Code.when (!forValue) .pop)

def tryCodeInlinedLogic (sel : String) (receiver : Coder σ) (args : List (Coder σ))
    (forValue : Bool) : Option (Code σ) :=
  match args.map Coder.inlineBody with
  | [some body] =>
    if sel = "and:" then some (codeInlinedLogic .jumpFalse .pushFalse receiver body forValue)
    else if sel = "or:" then some (codeInlinedLogic .jumpTrue .pushTrue receiver body forValue)
    else none
  | _ => none

open Code in
def codeTimesRepeatLoop (countIdx iIdx : Nat) (body : Bool → Code σ) (forValue : Bool) : Code σ :=
  ((((op .popStoreTemp countIdx).seq (op .pushOne 0)).seq (op .popStoreTemp iIdx)).seq
    (loop .jumpFalse
      (((op .pushTemp iIdx).seq (op .pushTemp countIdx)).seq (send .send "<=" 1))
      (((((body false).seq (op .pushTemp iIdx)).seq (op .pushOne 0)).seq (send .send "+" 1)).seq
        (op .popStoreTemp iIdx)))).seq
    (when forValue .pushNil)

open Code in
def codeTimesRepeatTail (body : Bool → Code σ) (forValue : Bool) (countIdx : Nat) : Code σ :=
  (((tables (cgAddTemp ⟨"__tr_count",true⟩)).seq (tables (cgAddTemp ⟨"__tr_i",true⟩))).seq
    (codeTimesRepeatLoop (countIdx % 65536) ((countIdx + 1) % 65536) body forValue)).seq
  (tables fun t => cgRestoreTemps (t.tempNames.length - 2) t)

def codeInlinedTimesRepeat (receiver : Coder σ) (body : Bool → Code σ) (forValue : Bool) :
    Code σ :=
  (receiver.node true).seq (.withTemps (codeTimesRepeatTail body forValue))

def tryCodeInlinedTimesRepeat (sel : String) (receiver : Coder σ) (args : List (Coder σ))
    (forValue : Bool) : Option (Code σ) :=
  match args.map Coder.inlineBody with
  | [some body] =>
    if sel = "timesRepeat:" then some (codeInlinedTimesRepeat receiver body forValue) else none
  | _ => none

def codeArgs : List (Coder σ) → Code σ
  | [] => .nothing
  | arg :: args => (arg.node true).seq (codeArgs args)

def codeNormalSend (o : Opcode) (sel : String) (receiver : Code σ) (args : List (Coder σ))
    (forValue : Bool) : Code σ :=
  ((receiver.seq (codeArgs args)).seq (.send o sel args.length)).seq (Code.when (!forValue) .pop)

def codeSend (sel : String) (receiver : Coder σ) (args : List (Coder σ)) (forValue : Bool) :
    Code σ :=
  ((tryCodeInlinedIf sel receiver args forValue).orElse fun _ =>
    (tryCodeInlinedLoop sel receiver args forValue).orElse fun _ =>
    (tryCodeInlinedLogic sel receiver args forValue).orElse fun _ =>
    tryCodeInlinedTimesRepeat sel receiver args forValue).getD
  (codeNormalSend .send sel (receiver.node true) args forValue)

open Code in
def codeCascadeMessages : List (String × List (Coder σ)) → Code σ
  | [] => nothing
  | [(sel,args)] => (codeArgs args).seq (send .send sel args.length)
  | (sel,args) :: messages =>
    ((((op .dup 0).seq (codeArgs args)).seq (send .send sel args.length)).seq (op .pop 0)).seq
      (codeCascadeMessages messages)

def codeCascade (receiver : Coder σ) (messages : List (String × List (Coder σ)))
    (forValue : Bool) : Code σ :=
  ((receiver.node true).seq (codeCascadeMessages messages)).seq (Code.when (!forValue) .pop)

open Code in
def codeReturn (expr : Node) (value : Coder σ) : Code σ :=
  inBlock fun nested =>
    if nested then (value.node true).seq (op .nonLocalReturn 0)
    else
      match expr with
      | .literalNil => op .returnNil 0
      | .literalBool b => op (if b then .returnTrue else .returnFalse) 0
      | .self => op .returnSelf 0
      | _ => (value.node true).seq (op .returnTop 0)

def codeValue (c : Code σ) : Bool → Code σ := fun forValue => if forValue then c else .nothing

def codeStatement (stmt : Node) (c : Coder σ) (isLast forValue : Bool) (rest : Code σ) : Code σ :=
  if isLast then c.node (forValue || stmt.isReturn)
  else if stmt.isReturn then c.node true
  else if stmt.isAssign then (c.node false).seq rest
  else ((c.node true).seq (.op .pop 0)).seq rest

open Code in
mutual

def coder (env : CodegenEnv σ) : Node → Coder σ
  | .self => ⟨codeValue (op .pushReceiver 0),none⟩
  | .literalNil => ⟨codeValue (op .pushNil 0),none⟩
  | .literalBool b => ⟨codeValue (op (if b then .pushTrue else .pushFalse) 0),none⟩
  | .literalInt value => ⟨codeValue (ref (literalIntRef value)),none⟩
  | .literalFloat => ⟨codeValue (tables (cgError "float literals not yet supported")),none⟩
  | .literalString text => ⟨codeValue (ref (literalStringRef env text)),none⟩
  | .literalSymbol name => ⟨codeValue (ref (literalSymbolRef env name)),none⟩
  | .literalChar value => ⟨codeValue (ref (literalRef (charOop (value % 256)))),none⟩
  | .literalArray elements => ⟨codeValue (ref (literalArrayRef env elements)),none⟩
  | .var name => ⟨codeValue (ref (variableRef env name)),none⟩
  | .assign name value =>
    ⟨fun forValue => ((coder env value).node true).seq (ref (assignmentRef env name forValue)),
      none⟩
  | .send receiver sel args => ⟨codeSend sel (coder env receiver) (coders env args),none⟩
  | .superSend _ sel args =>
    ⟨codeNormalSend .sendSuper sel (op .pushReceiver 0) (coders env args),none⟩
  | .cascade receiver messages =>
    ⟨codeCascade (coder env receiver) (codeMessages env messages),none⟩
  | .ret expr => ⟨fun _ => codeReturn expr (coder env expr),none⟩
  | .block args temps body =>
    ⟨codeValue (block args temps body (codeStatements env body true)),
      some (codeBlockBodyInline temps body.isEmpty (codeStatements env body))⟩
  | .method _ _ _ _ =>
    ⟨fun _ => tables (cgError "unexpected NODE_METHOD in expression position"),none⟩

def coders (env : CodegenEnv σ) : List Node → List (Coder σ)
  | [] => []
  | n :: ns => coder env n :: coders env ns

def codeMessages (env : CodegenEnv σ) :
    List (String × List Node) → List (String × List (Coder σ))
  | [] => []
  | (sel,args) :: messages => (sel,coders env args) :: codeMessages env messages

def codeStatements (env : CodegenEnv σ) : List Node → Bool → Code σ
  | [],forValue => when forValue .pushNil
  | stmt :: stmts,forValue =>
    codeStatement stmt (coder env stmt) stmts.isEmpty forValue (codeStatements env stmts forValue)

end

open Code in
def codeMethodBody (env : CodegenEnv σ) (body : List Node) : Code σ :=
  if body.isEmpty then op .returnSelf 0
  else if lastIsReturn body then codeStatements env body false
  else (codeStatements env body true).seq ((op .pop 0).seq (op .returnSelf 0))

def methodCells (env : CodegenEnv σ) (args temps : List String) (body : List Node) (vm : σ) :
    List Cell :=
  ((codeMethodBody env body).emit env 0
    (cgInit env args temps (analyzeCaptures args temps body) vm).tab).1

/-! ## Without the notes -/

section

variable (env : CodegenEnv σ)

def Coder.compiler (d : Coder σ) : Compiler σ :=
  ⟨fun v => (d.node v).compile env,d.inlineBody.map fun body v => (body v).compile env⟩

theorem codeBlockBodyInline_compile (temps : List String) (isEmpty : Bool)
    (body : Bool → Code σ) (v : Bool) :
    (codeBlockBodyInline temps isEmpty body v).compile env =
      compileBlockBodyInline temps isEmpty (fun v => (body v).compile env) v := by
  cases isEmpty <;> simp [codeBlockBodyInline,compileBlockBodyInline]

theorem codeInlinedIf_compile (o : Opcode) (receiver : Coder σ) (body : Bool → Code σ) (v : Bool) :
    (codeInlinedIf o receiver body v).compile env =
      compileInlinedIf o (receiver.compiler env) (fun v => (body v).compile env) v := by
  cases v <;> simp [codeInlinedIf,compileInlinedIf,Coder.compiler]

theorem codeInlinedLoop_compile (exit : Opcode) (cond : Bool → Code σ) (body : Code σ) (v : Bool) :
    (codeInlinedLoop exit cond body v).compile env =
      compileInlinedLoop exit (fun v => (cond v).compile env) (body.compile env) v := by
  simp [codeInlinedLoop,compileInlinedLoop]

theorem codeInlinedLogic_compile (o push : Opcode) (receiver : Coder σ) (body : Bool → Code σ)
    (v : Bool) :
    (codeInlinedLogic o push receiver body v).compile env =
      compileInlinedLogic o push (receiver.compiler env) (fun v => (body v).compile env) v := by
  simp [codeInlinedLogic,compileInlinedLogic,Coder.compiler]

theorem codeInlinedTimesRepeat_compile (receiver : Coder σ) (body : Bool → Code σ) (v : Bool) :
    (codeInlinedTimesRepeat receiver body v).compile env =
      compileInlinedTimesRepeat env (receiver.compiler env) (fun v => (body v).compile env) v := by
  have htail : ∀ k,(codeTimesRepeatTail body v k).compile env =
      compileTimesRepeatTail env (fun v => (body v).compile env) v k := by
    intro k
    simp [codeTimesRepeatTail,compileTimesRepeatTail,codeTimesRepeatLoop,compileTimesRepeatLoop]
  simp only [codeInlinedTimesRepeat,compileInlinedTimesRepeat,Coder.compiler,Code.compile_seq,
    Code.compile_withTemps,htail]

theorem inlineBodies_compiler (args : List (Coder σ)) :
    (args.map (Coder.compiler env)).map Compiler.inlineBody =
      (args.map Coder.inlineBody).map (Option.map fun body v => (body v).compile env) := by
  simp [Coder.compiler]

section

variable (sel : String) (receiver : Coder σ) (args : List (Coder σ)) (v : Bool)

include sel receiver args v

theorem tryCodeInlinedIf_compile :
    (tryCodeInlinedIf sel receiver args v).map (Code.compile env) =
      tryCompileInlinedIf sel (receiver.compiler env) (args.map (Coder.compiler env)) v := by
  unfold tryCodeInlinedIf tryCompileInlinedIf
  rw [inlineBodies_compiler]
  rcases args.map Coder.inlineBody with _ | ⟨_ | body₀,_ | ⟨_ | body₁,_ | ⟨b,bs⟩⟩⟩ <;> try rfl
  · simp only [map_cons,map_nil,map_some]
    (repeat' split) <;> simp [codeInlinedIf_compile]
  · simp only [map_cons,map_nil,map_some]
    (repeat' split) <;> simp [Coder.compiler]

theorem tryCodeInlinedLoop_compile :
    (tryCodeInlinedLoop sel receiver args v).map (Code.compile env) =
      tryCompileInlinedLoop sel (receiver.compiler env) (args.map (Coder.compiler env)) v := by
  unfold tryCodeInlinedLoop tryCompileInlinedLoop
  rw [inlineBodies_compiler]
  simp only [Coder.compiler]
  rcases receiver.inlineBody with _ | cond
  · rfl
  · rcases args.map Coder.inlineBody with _ | ⟨_ | body,_ | ⟨b,bs⟩⟩ <;> try rfl
    · simp only [map_nil,map_some]
      (repeat' split) <;> simp [codeInlinedLoop_compile]
    · simp only [map_cons,map_nil,map_some]
      (repeat' split) <;> simp [codeInlinedLoop_compile]

theorem tryCodeInlinedLogic_compile :
    (tryCodeInlinedLogic sel receiver args v).map (Code.compile env) =
      tryCompileInlinedLogic sel (receiver.compiler env) (args.map (Coder.compiler env)) v := by
  unfold tryCodeInlinedLogic tryCompileInlinedLogic
  rw [inlineBodies_compiler]
  rcases args.map Coder.inlineBody with _ | ⟨_ | body,_ | ⟨b,bs⟩⟩ <;> try rfl
  simp only [map_cons,map_nil,map_some]
  (repeat' split) <;> simp [codeInlinedLogic_compile]

theorem tryCodeInlinedTimesRepeat_compile :
    (tryCodeInlinedTimesRepeat sel receiver args v).map (Code.compile env) =
      tryCompileInlinedTimesRepeat env sel (receiver.compiler env)
        (args.map (Coder.compiler env)) v := by
  unfold tryCodeInlinedTimesRepeat tryCompileInlinedTimesRepeat
  rw [inlineBodies_compiler]
  rcases args.map Coder.inlineBody with _ | ⟨_ | body,_ | ⟨b,bs⟩⟩ <;> try rfl
  simp only [map_cons,map_nil,map_some]
  (repeat' split) <;> simp [codeInlinedTimesRepeat_compile]

end

theorem codeArgs_compile (args : List (Coder σ)) :
    (codeArgs args).compile env = compileArgs (args.map (Coder.compiler env)) := by
  induction args with
  | nil => rfl
  | cons a as ih => simp [codeArgs,compileArgs,ih,Coder.compiler]

theorem codeNormalSend_compile (o : Opcode) (sel : String) (receiver : Code σ)
    (args : List (Coder σ)) (v : Bool) :
    (codeNormalSend o sel receiver args v).compile env =
      compileNormalSend env o sel (receiver.compile env) (args.map (Coder.compiler env)) v := by
  simp [codeNormalSend,compileNormalSend,codeArgs_compile]

theorem codeSend_compile (sel : String) (receiver : Coder σ) (args : List (Coder σ)) (v : Bool) :
    (codeSend sel receiver args v).compile env =
      compileSend env sel (receiver.compiler env) (args.map (Coder.compiler env)) v := by
  unfold codeSend compileSend
  rw [← tryCodeInlinedIf_compile,← tryCodeInlinedLoop_compile,← tryCodeInlinedLogic_compile,
    ← tryCodeInlinedTimesRepeat_compile]
  cases tryCodeInlinedIf sel receiver args v with
  | some c => rfl
  | none =>
  cases tryCodeInlinedLoop sel receiver args v with
  | some c => rfl
  | none =>
  cases tryCodeInlinedLogic sel receiver args v with
  | some c => rfl
  | none =>
  cases tryCodeInlinedTimesRepeat sel receiver args v with
  | some c => rfl
  | none => exact codeNormalSend_compile env _ _ _ _ _

theorem codeCascadeMessages_compile (messages : List (String × List (Coder σ))) :
    (codeCascadeMessages messages).compile env =
      compileCascadeMessages env (messages.map fun m => (m.1,m.2.map (Coder.compiler env))) := by
  fun_induction codeCascadeMessages messages with
  | case1 => rfl
  | case2 sel args => simp [compileCascadeMessages,codeArgs_compile]
  | case3 sel args messages hne ih =>
    cases messages with
    | nil => exact absurd rfl hne
    | cons m ms => simp [compileCascadeMessages,codeArgs_compile,ih]

theorem codeReturn_compile (expr : Node) (value : Coder σ) :
    (codeReturn expr value).compile env = compileReturn expr (value.compiler env) := by
  funext pos t
  have hseq : ∀ o,((value.node true).seq (.op o 0)).compile env pos t =
      (((value.compiler env).node true).andThen (Compile.op o 0)) pos t := by
    intro o
    rw [Code.compile_seq]
    rfl
  unfold compileReturn codeReturn
  show ((if decide (0 < t.blockDepth) = true then _ else _ : Code σ).compile env pos t) = _
  by_cases h : 0 < t.blockDepth
  · simp only [h,decide_true,if_true]
    exact hseq _
  · simp only [h,decide_false,Bool.false_eq_true,if_false]
    cases expr <;> first | rfl | exact hseq _

theorem codeStatement_compile (stmt : Node) (c : Coder σ) (isLast v : Bool) (rest : Code σ) :
    (codeStatement stmt c isLast v rest).compile env =
      compileStatement stmt (c.compiler env) isLast v (rest.compile env) := by
  unfold codeStatement compileStatement
  (repeat' split) <;> simp [Coder.compiler]

theorem codeValue_compile (c : Code σ) (v : Bool) :
    (codeValue c v).compile env = compileValue (c.compile env) v := by
  cases v <;> rfl

theorem Coder.compiler_eq {d : Coder σ} {c : Compiler σ}
    (hnode : ∀ v,(d.node v).compile env = c.node v)
    (hbody : d.inlineBody.map (fun body v => (body v).compile env) = c.inlineBody) :
    d.compiler env = c := by
  cases c
  simp only [Coder.compiler,Compiler.mk.injEq]
  exact ⟨funext hnode,hbody⟩

mutual

theorem coder_compiler : (n : Node) → (coder env n).compiler env = compiler env n
  | .self | .literalNil | .literalBool _ => Coder.compiler_eq env (codeValue_compile env _) rfl
  | .literalInt _ | .literalString _ | .literalSymbol _ | .literalChar _ | .literalArray _
  | .var _ => Coder.compiler_eq env (fun v => by
      rw [coder,compiler,codeValue_compile,Code.compile_ref]) rfl
  | .literalFloat => Coder.compiler_eq env (codeValue_compile env _) rfl
  | .assign name value => Coder.compiler_eq env (fun v => by
      have h := coder_compiler value
      simp [coder,compiler,← h,Coder.compiler]) rfl
  | .send receiver sel args => Coder.compiler_eq env (fun v => by
      rw [coder,compiler,codeSend_compile,coder_compiler receiver,coders_compiler args]) rfl
  | .superSend _ sel args => Coder.compiler_eq env (fun v => by
      rw [coder,compiler,codeNormalSend_compile,coders_compiler args]
      rfl) rfl
  | .cascade receiver messages => Coder.compiler_eq env (fun v => by
      have h := coder_compiler receiver
      have hm := codeMessages_compiler messages
      simp [coder,compiler,codeCascade,compileCascade,codeCascadeMessages_compile,hm,← h,
        Coder.compiler]) rfl
  | .ret expr => Coder.compiler_eq env (fun v => by
      rw [coder,compiler,codeReturn_compile,coder_compiler expr]) rfl
  | .block args temps body => Coder.compiler_eq env (fun v => by
        rw [coder,compiler,codeValue_compile,Code.compile_block,codeStatements_compile body])
      (by
        simp only [coder,compiler,map_some,codeBlockBodyInline_compile,codeStatements_compile body])
  | .method _ _ _ _ => rfl

theorem coders_compiler : (ns : List Node) →
    (coders env ns).map (Coder.compiler env) = compilers env ns
  | [] => rfl
  | n :: ns => by rw [coders,compilers,map_cons,coder_compiler n,coders_compiler ns]

theorem codeMessages_compiler : (messages : List (String × List Node)) →
    (codeMessages env messages).map (fun m => (m.1,m.2.map (Coder.compiler env))) =
      compileMessages env messages
  | [] => rfl
  | (sel,args) :: messages => by
    rw [codeMessages,compileMessages,map_cons,coders_compiler args,codeMessages_compiler messages]

theorem codeStatements_compile : (stmts : List Node) → (v : Bool) →
    (codeStatements env stmts v).compile env = compileStatements env stmts v
  | [],v => by rw [codeStatements,compileStatements,Code.compile_when]
  | stmt :: stmts,v => by
    rw [codeStatements,compileStatements,codeStatement_compile,coder_compiler stmt,
      codeStatements_compile stmts]

end

theorem codeMethodBody_compile (body : List Node) :
    (codeMethodBody env body).compile env = compileMethodBody env body := by
  unfold codeMethodBody compileMethodBody
  (repeat' split) <;> simp [codeStatements_compile]

theorem methodCells_instr (args temps : List String) (body : List Node) (vm : σ) :
    (methodCells env args temps body vm).map Cell.instr = compileMethod env args temps body vm := by
  rw [methodCells,compileMethod,← codeMethodBody_compile]
  rfl

end

end SmalltalkA
