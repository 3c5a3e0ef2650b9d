import SmalltalkA.Compiler.ByteBuf
import SmalltalkA.Compiler.Capture
import SmalltalkA.CompiledMethod

/-! The bytecode generator (`codegen.c`). An emitter is a state transformer on `Codegen`; a node
becomes what its parent may do with it. -/

set_option autoImplicit false

namespace SmalltalkA

variable {σ : Type}

/-- The services of the VM that the generator calls, over a VM state `σ`; 0 is the failure value. -/
structure CodegenEnv (σ : Type) where
  classOop : Oop
  instvarNames : List String
  symbolIntern : String → σ → Oop × σ
  immutableAlloc : Nat → Nat → σ → Oop × σ
  heapAlloc : Nat → Nat → σ → Oop × σ
  storeSlots : Oop → List Oop → σ → σ
  storeString : Oop → String → σ → σ
  storeMethod : Oop → CompiledMethod → σ → σ
  lookupGlobal : Oop → σ → Oop
  systemDict : Oop
  nilOop : Oop
  trueOop : Oop
  falseOop : Oop
  codeLimit : Nat
  codeLimit_le : codeLimit ≤ 2 ^ 31

/-- An entry of `temp_names`; `hidden` marks the two counters of `timesRepeat:`, which no program
text declares. -/
structure TempEntry where
  name : String
  hidden : Bool

/-- A block literal with the declared variables that have a slot outside it. -/
structure BlockSite where
  args : List String
  temps : List String
  body : List Node
  scope : List String

/-- One call of `emit_block`, with the copy instruction chosen. -/
structure ClosureSite extends BlockSite where
  op : Opcode

/-- `Codegen` without the code buffer, with the context's error and a record of the blocks compiled
as closures. -/
structure Tables (σ : Type) where
  literals : List Oop
  tempNames : List TempEntry
  peakTempCount : Nat
  numArgs : Nat
  numMethodTemps : Nat
  needsContext : Bool
  blockDepth : Nat
  error : Option String
  closures : List ClosureSite
  vm : σ

def Tables.scope (t : Tables σ) : List String :=
  (t.tempNames.filter fun e => !e.hidden).map TempEntry.name

structure Codegen (σ : Type) where
  code : ByteBuf
  tab : Tables σ

abbrev Emit (σ : Type) := Codegen σ → Codegen σ

/-- The first error wins; `error_msg` holds 255 characters. -/
def cgError (msg : String) (t : Tables σ) : Tables σ :=
  if t.error.isSome then t else { t with error := some (String.ofList (msg.toList.take 255)) }

def cgAddTemp (e : TempEntry) (t : Tables σ) : Tables σ :=
  { t with
    tempNames := t.tempNames ++ [e]
    peakTempCount := max t.peakTempCount (t.tempNames.length + 1) }

def cgAddTemps : List String → Tables σ → Tables σ
  | [],t => t
  | name :: names,t => cgAddTemps names (cgAddTemp ⟨name,false⟩ t)

def cgRestoreTemps (saved : Nat) (t : Tables σ) : Tables σ :=
  { t with tempNames := t.tempNames.take saved }

def cgFindTemp (t : Tables σ) (name : String) : Option Nat :=
  t.tempNames.findIdx? (fun e => e.name == name)

def cgFindInstvar (env : CodegenEnv σ) (name : String) : Option Nat :=
  env.instvarNames.findIdx? (· == name)

def cgAddLiteral (oop : Oop) (t : Tables σ) : Nat × Tables σ :=
  let (idx,lits) := lbAdd t.literals oop
  (idx,{ t with literals := lits })

def cgInternSelector (env : CodegenEnv σ) (sel : String) (t : Tables σ) : Nat × Tables σ :=
  let (sym,vm) := env.symbolIntern sel t.vm
  let t := { t with vm := vm }
  if sym = 0 then (65535,cgError "failed to intern selector" t)
  else
    let (idx,t) := cgAddLiteral sym t
    if idx = 65535 then (idx,cgError "out of memory adding literal" t) else (idx,t)

/-- `cg_lookup_global`: intern the name, then search the system dictionary. -/
def cgLookupGlobal (env : CodegenEnv σ) (name : String) (t : Tables σ) : Oop × Tables σ :=
  if env.systemDict = 0 then (0,t)
  else
    let (sym,vm) := env.symbolIntern name t.vm
    let t := { t with vm := vm }
    if sym = 0 then (0,t) else (env.lookupGlobal sym t.vm,t)

def isGlobalName (name : String) : Bool :=
  match name.toList with
  | c :: _ => decide ('A' ≤ c) && decide (c ≤ 'Z')
  | [] => false

/-- What a push, store or send will use as opcode and operand; `none` goes with an error already
recorded. -/
abbrev Ref (σ : Type) := Tables σ → Option (Opcode × Nat) × Tables σ

def literalRef (oop : Oop) : Ref σ := fun t =>
  let (idx,t) := cgAddLiteral oop t
  (some (.pushLit,idx),t)

/-- `emit_literal_int`. -/
def literalIntRef (value : Int) : Ref σ := fun t =>
  if value = -1 then (some (.pushMinusOne,0),t)
  else if value = 0 then (some (.pushZero,0),t)
  else if value = 1 then (some (.pushOne,0),t)
  else if value = 2 then (some (.pushTwo,0),t)
  else if 0 ≤ value ∧ value ≤ 65535 then (some (.pushSmallint,value.toNat),t)
  else literalRef (smallIntOop value) t

def literalStringRef (env : CodegenEnv σ) (text : String) : Ref σ := fun t =>
  let (str,vm) := env.immutableAlloc clsString ((text.utf8ByteSize + 7) / 8) t.vm
  let t := { t with vm := vm }
  if str = 0 then (none,cgError "failed to allocate string literal" t)
  else literalRef str { t with vm := env.storeString str text t.vm }

def literalSymbolRef (env : CodegenEnv σ) (name : String) : Ref σ := fun t =>
  let (sym,vm) := env.symbolIntern name t.vm
  let t := { t with vm := vm }
  if sym = 0 then (none,cgError "failed to intern symbol" t) else literalRef sym t

/-- One element of a literal array: strings become symbols, and what the switch does not list
becomes nil. -/
def arrayElement (env : CodegenEnv σ) (e : Node) (vm : σ) : Oop × σ :=
  match e with
  | .literalInt value => (smallIntOop value,vm)
  | .literalBool b => (if b then env.trueOop else env.falseOop,vm)
  | .literalNil => (env.nilOop,vm)
  | .literalSymbol name => env.symbolIntern name vm
  | .literalString text => env.symbolIntern text vm
  | .literalChar value => (charOop (value % 256),vm)
  | _ => (env.nilOop,vm)

def arrayElements (env : CodegenEnv σ) : List Node → σ → List Oop × σ
  | [],vm => ([],vm)
  | e :: es,vm =>
    let (oop,vm) := arrayElement env e vm
    let (oops,vm) := arrayElements env es vm
    (oop :: oops,vm)

def literalArrayRef (env : CodegenEnv σ) (elements : List Node) : Ref σ := fun t =>
  let (arr,vm) := env.heapAlloc clsArray elements.length t.vm
  let t := { t with vm := vm }
  if arr = 0 then (none,cgError "failed to allocate literal array" t)
  else
    let (oops,vm) := arrayElements env elements t.vm
    literalRef arr { t with vm := env.storeSlots arr oops vm }

/-- `emit_variable` and `emit_assignment` look a name up in temps, instance variables and globals,
each with its own opcode. -/
def lookupRef (env : CodegenEnv σ) (name undeclared : String) (temp instvar global : Opcode) :
    Ref σ := fun t =>
  match cgFindTemp t name with
  | some idx => (some (temp,idx % 65536),t)
  | none =>
    match cgFindInstvar env name with
    | some idx => (some (instvar,idx % 65536),t)
    | none =>
      if isGlobalName name then
        let (assoc,t) := cgLookupGlobal env name t
        if assoc = 0 then (none,cgError undeclared t)
        else
          let (idx,t) := cgAddLiteral assoc t
          (some (global,idx),t)
      else (none,cgError undeclared t)

def variableRef (env : CodegenEnv σ) (name : String) : Ref σ :=
  lookupRef env name ("undeclared variable '" ++ name ++ "'") .pushTemp .pushInstvar .pushGlobal

def assignmentRef (env : CodegenEnv σ) (name : String) (forValue : Bool) : Ref σ :=
  let undeclared := "cannot assign to undeclared variable '" ++ name ++ "'"
  if forValue then lookupRef env name undeclared .storeTemp .storeInstvar .storeGlobal
  else lookupRef env name undeclared .popStoreTemp .popStoreInstvar .popStoreGlobal

/-- An interning error is recorded, and the send still emitted. -/
def selectorRef (env : CodegenEnv σ) (op : Opcode) (sel : String) : Ref σ := fun t =>
  let (idx,t) := cgInternSelector env sel t
  (some (op,idx),t)

def emitOp (op : Opcode) : Emit σ := fun cg =>
  { cg with code := bbEmit cg.code op 0 }

def emitWide (op : Opcode) (operand : Nat) : Emit σ := fun cg =>
  { cg with code := bbEmitWide cg.code op operand }

def emitRef (r : Ref σ) : Emit σ := fun cg =>
  match r cg.tab with
  | (some (op,operand),t) => { code := bbEmitWide cg.code op operand,tab := t }
  | (none,t) => { cg with tab := t }

def patchJump (jumpPc : Nat) : Emit σ := fun cg =>
  { cg with code := bbPatchJump cg.code jumpPc cg.code.count }

def onTables (f : Tables σ → Tables σ) : Emit σ := fun cg => { cg with tab := f cg.tab }

/-- `OP_JUMP_BACK` to `loopTop`: the offset counts a two-byte instruction. -/
def emitJumpBack (loopTop : Nat) : Emit σ := fun cg =>
  let backPc := (cg.code.count + 2) % 2 ^ 32
  let backOffset := (backPc + 2 ^ 32 - loopTop) % 2 ^ 32
  emitWide .jumpBack (backOffset % 65536) cg

/-! Three ways of placing and patching jumps serve all the inlined forms. -/

/-- A jump over `body`. -/
def emitSkip (op : Opcode) (body : Emit σ) : Emit σ := fun cg =>
  let jumpPc := cg.code.count
  let cg := emitOp op cg
  let cg := body cg
  patchJump jumpPc cg

/-- A jump to `other`, past `body` and the jump that ends it. -/
def emitBranch (op : Opcode) (body other : Emit σ) : Emit σ := fun cg =>
  let jumpPc := cg.code.count
  let cg := emitOp op cg
  let cg := body cg
  let jumpEndPc := cg.code.count
  let cg := emitOp .jump cg
  let cg := patchJump jumpPc cg
  let cg := other cg
  patchJump jumpEndPc cg

def emitLoop (exit : Opcode) (cond body : Emit σ) : Emit σ := fun cg =>
  let loopTop := cg.code.count
  let cg := cond cg
  let jumpExitPc := cg.code.count
  let cg := emitOp exit cg
  let cg := body cg
  let cg := emitJumpBack loopTop cg
  patchJump jumpExitPc cg

def emitWhen (b : Bool) (op : Opcode) : Emit σ := fun cg => if b then emitOp op cg else cg

/-- What a parent may do with a child: emit it, or emit a block literal's body in place. -/
structure Emitter (σ : Type) where
  node : Bool → Emit σ
  inlineBody : Option (Bool → Emit σ)

/-- `emit_block_body_inline`: block arguments get no slot, block temps do. -/
def emitBlockBodyInline (temps : List String) (isEmpty : Bool) (body : Bool → Emit σ)
    (forValue : Bool) : Emit σ := fun cg =>
  if isEmpty then emitWhen forValue .pushNil cg
  else
    let savedTempCount := cg.tab.tempNames.length
    let cg := onTables (cgAddTemps temps) cg
    let cg := body forValue cg
    onTables (cgRestoreTemps savedTempCount) cg

/-- `ifTrue:` and `ifFalse:` differ in the jump that skips the body. -/
def emitInlinedIf (skip : Opcode) (receiver : Emitter σ) (body : Bool → Emit σ)
    (forValue : Bool) : Emit σ := fun cg =>
  let cg := receiver.node true cg
  if forValue then emitBranch skip (body true) (emitOp .pushNil) cg
  else emitSkip skip (body false) cg

def tryEmitInlinedIf (sel : String) (receiver : Emitter σ) (args : List (Emitter σ))
    (forValue : Bool) : Option (Emit σ) :=
  match args.map Emitter.inlineBody with
  | [some body] =>
    if sel = "ifTrue:" then some (emitInlinedIf .jumpFalse receiver body forValue)
    else if sel = "ifFalse:" then some (emitInlinedIf .jumpTrue receiver body forValue)
    else none
  | [some body₀,some body₁] =>
    -- both selectors put the true branch first
    if sel = "ifTrue:ifFalse:" then
      some fun cg => emitBranch .jumpFalse (body₀ forValue) (body₁ forValue) (receiver.node true cg)
    else if sel = "ifFalse:ifTrue:" then
      some fun cg => emitBranch .jumpFalse (body₁ forValue) (body₀ forValue) (receiver.node true cg)
    else none
  | _ => none

def emitInlinedLoop (exit : Opcode) (cond : Bool → Emit σ) (body : Emit σ)
    (forValue : Bool) : Emit σ := fun cg =>
  emitWhen forValue .pushNil (emitLoop exit (cond true) body cg)

def tryEmitInlinedLoop (sel : String) (receiver : Emitter σ) (args : List (Emitter σ))
    (forValue : Bool) : Option (Emit σ) :=
  match receiver.inlineBody,args.map Emitter.inlineBody with
  | some cond,[some body] =>
    if sel = "whileTrue:" then some (emitInlinedLoop .jumpFalse cond (body false) forValue)
    else if sel = "whileFalse:" then some (emitInlinedLoop .jumpTrue cond (body false) forValue)
    else none
  | some cond,[] =>
    if sel = "whileTrue" then some (emitInlinedLoop .jumpFalse cond id forValue)
    else if sel = "whileFalse" then some (emitInlinedLoop .jumpTrue cond id forValue)
    else none
  | _,_ => none

def emitInlinedLogic (skip push : Opcode) (receiver : Emitter σ) (body : Bool → Emit σ)
    (forValue : Bool) : Emit σ := fun cg =>
  let cg := receiver.node true cg
  let cg := emitBranch skip (body true) (emitOp push) cg
  emitWhen (!forValue) .pop cg

def tryEmitInlinedLogic (sel : String) (receiver : Emitter σ) (args : List (Emitter σ))
    (forValue : Bool) : Option (Emit σ) :=
  match args.map Emitter.inlineBody with
  | [some body] =>
    if sel = "and:" then some (emitInlinedLogic .jumpFalse .pushFalse receiver body forValue)
    else if sel = "or:" then some (emitInlinedLogic .jumpTrue .pushTrue receiver body forValue)
    else none
  | _ => none

/-- `timesRepeat:` after its receiver, with the slots of its two counters. -/
def emitTimesRepeatLoop (env : CodegenEnv σ) (countIdx iIdx : Nat) (body : Bool → Emit σ)
    (forValue : Bool) : Emit σ := fun cg =>
  let cg := emitWide .popStoreTemp countIdx cg
  let cg := emitOp .pushOne cg
  let cg := emitWide .popStoreTemp iIdx cg
  let cg := emitLoop .jumpFalse
    (fun cg =>
      let cg := emitWide .pushTemp iIdx cg
      let cg := emitWide .pushTemp countIdx cg
      emitRef (selectorRef env .send "<=") cg)
    (fun cg =>
      let cg := body false cg
      let cg := emitWide .pushTemp iIdx cg
      let cg := emitOp .pushOne cg
      let cg := emitRef (selectorRef env .send "+") cg
      emitWide .popStoreTemp iIdx cg) cg
  emitWhen forValue .pushNil cg

def emitTimesRepeatTail (env : CodegenEnv σ) (body : Bool → Emit σ) (forValue : Bool)
    (countIdx : Nat) : Emit σ := fun cg =>
  let cg := onTables (cgAddTemp ⟨"__tr_count",true⟩) cg
  let cg := onTables (cgAddTemp ⟨"__tr_i",true⟩) cg
  let cg := emitTimesRepeatLoop env (countIdx % 65536) ((countIdx + 1) % 65536) body forValue cg
  onTables (fun t => cgRestoreTemps (t.tempNames.length - 2) t) cg

def emitInlinedTimesRepeat (env : CodegenEnv σ) (receiver : Emitter σ) (body : Bool → Emit σ)
    (forValue : Bool) : Emit σ := fun cg =>
  let cg := receiver.node true cg
  emitTimesRepeatTail env body forValue cg.tab.tempNames.length cg

def tryEmitInlinedTimesRepeat (env : CodegenEnv σ) (sel : String) (receiver : Emitter σ)
    (args : List (Emitter σ)) (forValue : Bool) : Option (Emit σ) :=
  match args.map Emitter.inlineBody with
  | [some body] =>
    if sel = "timesRepeat:" then some (emitInlinedTimesRepeat env receiver body forValue)
    else none
  | _ => none

def emitArgs : List (Emitter σ) → Emit σ
  | [] => id
  | arg :: args => fun cg => emitArgs args (arg.node true cg)

def emitNormalSend (env : CodegenEnv σ) (op : Opcode) (sel : String) (receiver : Emit σ)
    (args : List (Emitter σ)) (forValue : Bool) : Emit σ := fun cg =>
  let cg := receiver cg
  let cg := emitArgs args cg
  let cg := emitRef (selectorRef env op sel) cg
  emitWhen (!forValue) .pop cg

/-- `emit_send` for `NODE_SEND`: the inlinable forms in turn, else a real send. -/
def emitSend (env : CodegenEnv σ) (sel : String) (receiver : Emitter σ)
    (args : List (Emitter σ)) (forValue : Bool) : Emit σ :=
  ((tryEmitInlinedIf sel receiver args forValue).orElse fun _ =>
    (tryEmitInlinedLoop sel receiver args forValue).orElse fun _ =>
    (tryEmitInlinedLogic sel receiver args forValue).orElse fun _ =>
    tryEmitInlinedTimesRepeat env sel receiver args forValue).getD
  (emitNormalSend env .send sel (receiver.node true) args forValue)

def emitCascadeMessages (env : CodegenEnv σ) : List (String × List (Emitter σ)) → Emit σ
  | [] => id
  | [(sel,args)] => fun cg => emitRef (selectorRef env .send sel) (emitArgs args cg)
  | (sel,args) :: messages => fun cg =>
    let cg := emitOp .dup cg
    let cg := emitArgs args cg
    let cg := emitRef (selectorRef env .send sel) cg
    let cg := emitOp .pop cg
    emitCascadeMessages env messages cg

def emitCascade (env : CodegenEnv σ) (receiver : Emitter σ)
    (messages : List (String × List (Emitter σ))) (forValue : Bool) : Emit σ := fun cg =>
  let cg := receiver.node true cg
  let cg := emitCascadeMessages env messages cg
  emitWhen (!forValue) .pop cg

def descriptorSlots (t : Tables σ) (bodyStart bodyLength numArgs savedTempCount : Nat) :
    List Oop :=
  [smallIntOop bodyStart,smallIntOop bodyLength,smallIntOop numArgs,
    smallIntOop savedTempCount] ++
  (if t.needsContext then [smallIntOop (t.numArgs + t.numMethodTemps : Nat)] else [])

def storeDescriptor (env : CodegenEnv σ) (descIdx : Nat) (slots : List Oop) (t : Tables σ) :
    Tables σ :=
  let (bd,vm) := env.heapAlloc clsBlockDescriptor slots.length t.vm
  let t := { t with vm := vm }
  if bd = 0 then cgError "failed to allocate block descriptor" t
  else { t with vm := env.storeSlots bd slots t.vm,literals := t.literals.set descIdx bd }

def copyOp (t : Tables σ) : Opcode := if t.needsContext then .closureCopy else .blockCopy

/-- The start of `emit_block`: a placeholder literal, the block's own scope. -/
def openBlock (args temps : List String) (stmts : List Node) (t : Tables σ) : Tables σ :=
  let site := ⟨⟨args,temps,stmts,t.scope⟩,copyOp t⟩
  cgAddTemps (args ++ temps)
    { t with
      literals := (lbAddUnique t.literals 0).2
      blockDepth := t.blockDepth + 1
      closures := t.closures ++ [site] }

/-- The end of `emit_block`: the enclosing scope again, and the descriptor. -/
def closeBlock (env : CodegenEnv σ) (before : Tables σ) (numArgs bodyStart bodyEnd : Nat)
    (t : Tables σ) : Tables σ :=
  let savedTempCount := before.tempNames.length
  let t := { cgRestoreTemps savedTempCount t with blockDepth := before.blockDepth }
  storeDescriptor env (lbAddUnique before.literals 0).1
    (descriptorSlots t bodyStart (bodyEnd - bodyStart) numArgs savedTempCount) t

/-- `emit_block`: the body follows the copy instruction, and the descriptor says where it is. -/
def emitBlock (env : CodegenEnv σ) (args temps : List String) (stmts : List Node)
    (body : Emit σ) : Emit σ := fun cg =>
  let before := cg.tab
  let cg := emitWide (copyOp before) (lbAddUnique before.literals 0).1 cg
  let cg := onTables (openBlock args temps stmts) cg
  let bodyStart := cg.code.count
  let cg := body cg
  let cg := emitOp .returnTop cg
  onTables (closeBlock env before args.length bodyStart cg.code.count) cg

/-- `emit_return`: inside a real block every `^` is a non-local return. -/
def emitReturn (expr : Node) (value : Emitter σ) : Emit σ := fun cg =>
  if 0 < cg.tab.blockDepth then emitOp .nonLocalReturn (value.node true cg)
  else
    match expr with
    | .literalNil => emitOp .returnNil cg
    | .literalBool b => emitOp (if b then .returnTrue else .returnFalse) cg
    | .self => emitOp .returnSelf cg
    | _ => emitOp .returnTop (value.node true cg)

/-- `emit_node` does nothing once an error is recorded. -/
def guarded (e : Bool → Emit σ) (inlineBody : Option (Bool → Emit σ)) : Emitter σ :=
  ⟨fun forValue cg => if cg.tab.error.isSome then cg else e forValue cg,inlineBody⟩

def emitValue (e : Emit σ) : Bool → Emit σ := fun forValue cg => if forValue then e cg else cg

/-- One statement of `emit_statements`, with what follows it. -/
def emitStatement (stmt : Node) (e : Emitter σ) (isLast forValue : Bool) (rest : Emit σ) :
    Emit σ := fun cg =>
  if isLast then e.node (forValue || stmt.isReturn) cg
  else if stmt.isReturn then e.node true cg
  else if stmt.isAssign then rest (e.node false cg)
  else rest (emitOp .pop (e.node true cg))

mutual

def emitter (env : CodegenEnv σ) : Node → Emitter σ
  | .self => guarded (emitValue (emitOp .pushReceiver)) none
  | .literalNil => guarded (emitValue (emitOp .pushNil)) none
  | .literalBool b => guarded (emitValue (emitOp (if b then .pushTrue else .pushFalse))) none
  | .literalInt value => guarded (emitValue (emitRef (literalIntRef value))) none
  | .literalFloat =>
    guarded (emitValue (onTables (cgError "float literals not yet supported"))) none
  | .literalString text => guarded (emitValue (emitRef (literalStringRef env text))) none
  | .literalSymbol name => guarded (emitValue (emitRef (literalSymbolRef env name))) none
  | .literalChar value =>
    guarded (emitValue (emitRef (literalRef (charOop (value % 256))))) none
  | .literalArray elements => guarded (emitValue (emitRef (literalArrayRef env elements))) none
  | .var name => guarded (emitValue (emitRef (variableRef env name))) none
  | .assign name value =>
    guarded (fun forValue cg =>
      emitRef (assignmentRef env name forValue) ((emitter env value).node true cg)) none
  | .send receiver sel args =>
    guarded (emitSend env sel (emitter env receiver) (emitters env args)) none
  | .superSend _ sel args =>
    guarded (emitNormalSend env .sendSuper sel (emitOp .pushReceiver) (emitters env args)) none
  | .cascade receiver messages =>
    guarded (emitCascade env (emitter env receiver) (emitMessages env messages)) none
  | .ret expr => guarded (fun _ => emitReturn expr (emitter env expr)) none
  | .block args temps body =>
    guarded (emitValue (emitBlock env args temps body (emitStatements env body true)))
      (some (emitBlockBodyInline temps body.isEmpty (emitStatements env body)))
  | .method _ _ _ _ =>
    guarded (fun _ => onTables (cgError "unexpected NODE_METHOD in expression position")) none

def emitters (env : CodegenEnv σ) : List Node → List (Emitter σ)
  | [] => []
  | n :: ns => emitter env n :: emitters env ns

def emitMessages (env : CodegenEnv σ) :
    List (String × List Node) → List (String × List (Emitter σ))
  | [] => []
  | (sel,args) :: messages => (sel,emitters env args) :: emitMessages env messages

def emitStatements (env : CodegenEnv σ) : List Node → Bool → Emit σ
  | [],forValue => emitWhen forValue .pushNil
  | stmt :: stmts,forValue =>
    emitStatement stmt (emitter env stmt) stmts.isEmpty forValue (emitStatements env stmts forValue)

end

/-- `cg_init` and the temp indices: arguments first, then declared temps. -/
def cgInit (env : CodegenEnv σ) (args temps : List String) (ca : CaptureAnalysis) (vm : σ) :
    Codegen σ where
  code := ⟨[],false,env.codeLimit,env.codeLimit_le,Nat.zero_le _⟩
  tab := cgAddTemps (args ++ temps)
    { literals := [],tempNames := [],peakTempCount := 0,numArgs := args.length,
      numMethodTemps := temps.length,needsContext := ca.hasCaptures || ca.hasNlr,
      blockDepth := 0,error := none,closures := [],vm := vm }

def lastIsReturn : List Node → Bool
  | [] => false
  | [stmt] => stmt.isReturn
  | _ :: stmts => lastIsReturn stmts

def emitMethodBody (env : CodegenEnv σ) (body : List Node) : Emit σ := fun cg =>
  if body.isEmpty then emitOp .returnSelf cg
  else if lastIsReturn body then emitStatements env body false cg
  else
    let cg := emitStatements env body true cg
    if cg.tab.error.isSome then cg else emitOp .returnSelf (emitOp .pop cg)

/-- `sta_codegen` up to the point where the code is complete. -/
def codegenRun (env : CodegenEnv σ) (args temps : List String) (body : List Node) (vm : σ) :
    Codegen σ :=
  emitMethodBody env body (cgInit env args temps (analyzeCaptures args temps body) vm)

/-- `sta_codegen`: the new method's oop and contents. -/
def staCodegen (env : CodegenEnv σ) (ast : Node) (vm : σ) :
    Except String (Oop × CompiledMethod × σ) :=
  match ast with
  | .method _ args temps body =>
    let cg := codegenRun env args temps body vm
    let t := if cg.code.oom then cgError "out of memory emitting bytecodes" cg.tab else cg.tab
    match t.error with
    | some msg => .error msg
    | none =>
      let literals := (lbAddUnique t.literals env.classOop).2
      let nLits := literals.length % 256
      let method : CompiledMethod :=
        ⟨methodHeader args.length t.peakTempCount nLits 0 false t.needsContext,
          literals.take nLits,cg.code.bytes⟩
      let (oop,vm) := env.immutableAlloc clsCompiledMethod
        (1 + nLits + (cg.code.count + 7) / 8) t.vm
      if oop = 0 then .error "failed to allocate CompiledMethod"
      else .ok (oop,method,env.storeMethod oop method vm)
  | _ => .error "codegen requires a NODE_METHOD root"

theorem codeLimit_page : 4096 ≤ 2 ^ 31 := by decide

def freshEnv : CodegenEnv Nat where
  classOop := 8
  instvarNames := []
  symbolIntern _ n := (16 * (n + 1),n + 1)
  immutableAlloc _ _ n := (16 * (n + 1),n + 1)
  heapAlloc _ _ n := (16 * (n + 1),n + 1)
  storeSlots _ _ n := n
  storeString _ _ n := n
  storeMethod _ _ n := n
  lookupGlobal _ _ := 0
  systemDict := 0
  nilOop := 16
  trueOop := 32
  falseOop := 48
  codeLimit := 4096
  codeLimit_le := codeLimit_page

end SmalltalkA
