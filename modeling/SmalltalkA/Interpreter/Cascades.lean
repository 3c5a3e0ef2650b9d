import SmalltalkA.Compiler.Parser
import SmalltalkA.Interpreter.Fragments
import SmalltalkA.Interpreter.Tables

/-! Cascades against the separate sends they stand for: `parse_cascade_or_expr`, `emit_cascade` and
the run of their code. -/

set_option autoImplicit false

namespace SmalltalkA

open Runs List

/-! ## Messages of plain sends -/

/-- The next message of a plain send, with the type of its first token: a unary selector, an
operator or keywords. -/
def plainMessage (fuel : Nat) (expr : Parse Node) (toks : List Token) :
    Parsing ((TokenType × String × List Node) × List Token) :=
  match toks with
  | t :: rest =>
    if t.isUnary then .ok ((t.type,tokenStr t,[]),rest)
    else if t.isBinary then do
      let (arg,rest) ← parseUnaryExpr fuel expr rest
      return ((t.type,tokenStr t,[arg]),rest)
    else if t.type = .keyword then do
      let ((selector,args),rest) ← keywordParts (parseBinaryExpr fuel expr) fuel (t :: rest)
      return ((t.type,String.ofList selector,args),rest)
    else parserError (t :: rest) "expected message"
  | [] => parserError [] "expected message"

def plainMessages (fuel : Nat) (expr : Parse Node) :
    Nat → Parse (List (TokenType × String × List Node))
  | 0,_ => .error .outOfFuel
  | _ + 1,[] => .ok ([],[])
  | rounds + 1,t :: rest =>
    if t.type = .semicolon then do
      let (m,rest) ← plainMessage fuel expr rest
      let (ms,rest) ← plainMessages fuel expr rounds rest
      return (m :: ms,rest)
    else .ok ([],t :: rest)

variable {toks : List Token}

/-! ## Parsing -/

section

variable {fuel : Nat} {expr : Parse Node}

theorem cascadeMessage_iff {toks rest : List Token} {type : TokenType} {m : String × List Node}
    (h : plainMessage fuel expr toks = .ok ((type,m),rest)) :
    (type ≠ .vbar → cascadeMessage fuel expr toks = .ok (m,rest)) ∧
      (type = .vbar → ∃ e,cascadeMessage fuel expr toks = .error e) := by
  cases toks with
  | nil => simp [plainMessage,parserError] at h
  | cons t toks =>
    simp only [plainMessage] at h
    by_cases hunary : t.isUnary = true
    · rw [if_pos hunary] at h
      cases h
      have htype : t.type = .identifier := by
        simp only [Token.isUnary,Bool.and_eq_true,beq_iff_eq] at hunary
        exact hunary.1
      simp [cascadeMessage,htype]
    rw [if_neg hunary] at h
    by_cases hbinary : t.isBinary = true
    · rw [if_pos hbinary] at h
      obtain ⟨⟨arg,toks'⟩,harg,h⟩ := bind_ok h
      cases h
      have htype : t.type = .binarySelector ∨ t.type = .vbar := by
        simpa [Token.isBinary] using hbinary
      rcases htype with htype | htype
      · simp [cascadeMessage,htype,harg,bind,Except.bind,pure,Except.pure]
      · simp [cascadeMessage,htype,parserError]
    rw [if_neg hbinary] at h
    by_cases hkeyword : t.type = .keyword
    · rw [if_pos hkeyword] at h
      obtain ⟨⟨⟨selector,args⟩,toks'⟩,hparts,h⟩ := bind_ok h
      cases h
      simp [cascadeMessage,hkeyword,hparts,bind,Except.bind,pure,Except.pure]
    · rw [if_neg hkeyword] at h
      simp [parserError] at h

theorem cascadeMessages_iff {rounds : Nat} {toks rest : List Token}
    {ms : List (TokenType × String × List Node)}
    (h : plainMessages fuel expr rounds toks = .ok (ms,rest)) :
    cascadeMessages fuel expr rounds toks = .ok (ms.map Prod.snd,rest) ↔ ∀ m ∈ ms,m.1 ≠ .vbar := by
  induction rounds generalizing toks ms with
  | zero => simp [plainMessages] at h
  | succ rounds ih =>
    cases toks with
    | nil =>
      cases h
      simp [cascadeMessages]
    | cons t toks =>
      simp only [plainMessages] at h
      by_cases hsemi : t.type = .semicolon
      · rw [if_pos hsemi] at h
        obtain ⟨⟨⟨type,m⟩,toks'⟩,hm,h⟩ := bind_ok h
        obtain ⟨⟨ms',rest'⟩,hms,h⟩ := bind_ok h
        cases h
        have hone := cascadeMessage_iff hm
        have hrest := ih hms
        simp only [cascadeMessages,if_pos hsemi]
        by_cases hbar : type = .vbar
        · obtain ⟨e,he⟩ := hone.2 hbar
          simp [he,hbar,bind,Except.bind]
        · rw [forall_mem_cons,← hrest]
          simp only [hone.1 hbar,bind,Except.bind]
          cases cascadeMessages fuel expr rounds toks' with
          | error e => simp
          | ok r => simp [pure,Except.pure,hbar,Prod.ext_iff]
      · rw [if_neg hsemi] at h
        cases h
        simp [cascadeMessages,hsemi]

end

/-! ## Code -/

section

variable {σ : Type} (cenv : CodegenEnv σ)

def sendOp (receiver : Node) : Opcode := if receiver.isSuper then .sendSuper else .send

/-- The receiver as `emit_send` pushes it. -/
def emitReceiver (receiver : Node) : Emit σ :=
  if receiver.isSuper then emitOp .pushReceiver else (emitter cenv receiver).node true

def emitMessage (o : Opcode) (m : String × List (Emitter σ)) : Emit σ := fun cg =>
  emitRef (selectorRef cenv o m.1) (emitArgs m.2 cg)

/-- Messages in turn to the object on top of the stack, of which a copy is kept until the last. -/
def emitInTurn (o : Opcode) : List (String × List (Emitter σ)) → Emit σ
  | [] => id
  | [m] => emitMessage cenv o m
  | m :: ms => fun cg => emitInTurn o ms (emitOp .pop (emitMessage cenv o m (emitOp .dup cg)))

def emitSeparately (receiver : Node) (messages : List (String × List Node)) (forValue : Bool) :
    Emit σ := fun cg =>
  emitWhen (!forValue) .pop
    (emitInTurn cenv (sendOp receiver) (emitMessages cenv messages) (emitReceiver cenv receiver cg))

theorem emitInTurn_send (ms : List (String × List (Emitter σ))) :
    emitInTurn cenv .send ms = emitCascadeMessages cenv ms := by
  induction ms with
  | nil => rfl
  | cons m ms ih =>
    cases ms with
    | nil => rfl
    | cons m' ms =>
      funext cg
      rw [emitInTurn,ih]
      · rfl
      · simp

def compileReceiver (receiver : Node) : Compile σ :=
  if receiver.isSuper then .op .pushReceiver 0 else (compiler cenv receiver).node true

def compileMessage (o : Opcode) (m : String × List (Compiler σ)) : Compile σ :=
  (compileArgs m.2).andThen (.ref (selectorRef cenv o m.1))

def compileInTurn (o : Opcode) : List (String × List (Compiler σ)) → Compile σ
  | [] => .nothing
  | [m] => compileMessage cenv o m
  | m :: ms =>
    (((Compile.op .dup 0).andThen (compileMessage cenv o m)).andThen (.op .pop 0)).andThen
      (compileInTurn o ms)

def compileSeparately (receiver : Node) (messages : List (String × List Node)) (forValue : Bool) :
    Compile σ :=
  ((compileReceiver cenv receiver).andThen
    (compileInTurn cenv (sendOp receiver) (compileMessages cenv messages))).andThen
      (.when (!forValue) .pop)

omit cenv in
theorem kept_size (pos : Nat) (c d : List AInstr) :
    pos + codeSize ([AInstr.op .dup 0] ++ (c ++ ([.op .pop 0] ++ d))) =
      pos + 2 + codeSize c + 2 + codeSize d := by
  have happend : ∀ a b : List AInstr,codeSize (a ++ b) = codeSize a + codeSize b :=
    Layout.extent_append _
  have hdup : codeSize [AInstr.op .dup 0] = 2 := rfl
  have hpop : codeSize [AInstr.op .pop 0] = 2 := rfl
  rw [happend,happend,happend,hdup,hpop]
  omega

theorem compileInTurn_more (o : Opcode) (m m' : String × List (Compiler σ))
    (ms : List (String × List (Compiler σ))) (pos : Nat) (t : Tables σ) :
    let c := compileMessage cenv o m (pos + 2) t
    (compileInTurn cenv o (m :: m' :: ms) pos t).1 = [.op .dup 0] ++ (c.1 ++ ([.op .pop 0] ++
        (compileInTurn cenv o (m' :: ms) (pos + 2 + codeSize c.1 + 2) c.2).1)) := by
  have hdup : codeSize [AInstr.op .dup 0] = 2 := rfl
  have hpos : ∀ c : List AInstr,pos + codeSize ([AInstr.op .dup 0] ++ c ++ [.op .pop 0]) =
      pos + 2 + codeSize c + 2 := by
    intro c
    rw [append_assoc]
    exact kept_size pos c []
  rw [compileInTurn]
  · simp only [Compile.andThen,Compile.op,hdup,hpos]
    simp only [append_assoc]
  · simp

theorem sendOp_plain (receiver : Node) : (sendOp receiver).isPlain = true := by
  unfold sendOp
  split <;> rfl

theorem receiver_refines (receiver : Node) :
    Refines (emitReceiver cenv receiver) (compileReceiver cenv receiver) := by
  unfold emitReceiver compileReceiver
  split
  · exact Refines.op rfl
  · exact (emitter_refines cenv receiver).node true

theorem inTurn_refines {o : Opcode} (ho : o.isPlain = true)
    {es : List (String × List (Emitter σ))} {cs : List (String × List (Compiler σ))}
    (h : MessagesRefine es cs) : Refines (emitInTurn cenv o es) (compileInTurn cenv o cs) := by
  induction h with
  | nil => exact Refines.nothing
  | @cons e c es cs hm hms ih =>
    obtain ⟨sel,args⟩ := e
    obtain ⟨sel',args'⟩ := c
    obtain ⟨rfl,ha⟩ := hm
    have hmessage : Refines (emitMessage cenv o (sel,args)) (compileMessage cenv o (sel,args')) :=
      (Refines.arguments ha).andThen (Refines.ref (selectorRef_ok cenv ho sel))
    cases hms with
    | nil => exact hmessage
    | cons _ _ =>
      exact (((Refines.op (o := .dup) rfl).andThen hmessage).andThen
        (Refines.op (o := .pop) rfl)).andThen ih

theorem separately_refines (receiver : Node) (messages : List (String × List Node)) (v : Bool) :
    Refines (emitSeparately cenv receiver messages v)
      (compileSeparately cenv receiver messages v) :=
  ((receiver_refines cenv receiver).andThen (inTurn_refines cenv (sendOp_plain receiver)
    (messages_refine cenv messages))).andThen (Refines.when (!v) rfl)

theorem emit_cascade_plain {receiver : Node} (h : receiver.isSuper = false)
    (messages : List (String × List Node)) (v : Bool) {cg : Codegen σ}
    (hcg : cg.tab.error = none) :
    (emitter cenv (.cascade receiver messages)).node v cg =
      emitSeparately cenv receiver messages v cg := by
  simp only [emitter,guarded,hcg,Option.isSome_none,Bool.false_eq_true,if_false,emitCascade,
    emitSeparately,emitReceiver,sendOp,h,emitInTurn_send]

theorem variableRef_super (t : Tables σ) :
    (∃ o k,variableRef cenv "super" t = (some (o,k),t) ∧ (o = .pushTemp ∨ o = .pushInstvar)) ∨
      ∃ msg t',variableRef cenv "super" t = (none,cgError msg t') := by
  unfold variableRef lookupRef
  cases cgFindTemp t "super" with
  | some idx => exact .inl ⟨_,_,rfl,.inl rfl⟩
  | none =>
    cases cgFindInstvar cenv "super" with
    | some idx => exact .inl ⟨_,_,rfl,.inr rfl⟩
    | none => exact .inr ⟨_,_,rfl⟩

theorem emit_cascade_super {receiver : Node} (h : receiver.isSuper = true)
    (messages : List (String × List Node)) (v : Bool) {cg : Codegen σ}
    (hok : (emitSeparately cenv receiver messages v cg).Ok) (ha : Aligned cg.code.bytes) :
    (emitter cenv (.cascade receiver messages)).node v cg ≠
      emitSeparately cenv receiver messages v cg := by
  intro heq
  have hcg := ((separately_refines cenv receiver messages v).ok_before cg hok).1
  have hbytes := (separately_refines cenv receiver messages v).bytes_eq hok ha
  obtain rfl : receiver = .var "super" := by
    cases receiver with
    | var name => rw [show name = "super" by simpa [Node.isSuper] using h]
    | _ => cases h
  have hrest : Refines
      (fun cg => emitWhen (!v) .pop (emitCascadeMessages cenv (emitMessages cenv messages) cg)) _ :=
    (Refines.cascadeMessages cenv (messages_refine cenv messages)).andThen
      (Refines.when (o := .pop) (!v) rfl)
  have hcode : (emitter cenv (.cascade (.var "super") messages)).node v cg =
      emitWhen (!v) .pop (emitCascadeMessages cenv (emitMessages cenv messages)
        (emitRef (variableRef cenv "super") cg)) := by
    simp [emitter,guarded,hcg,emitCascade,emitValue]
  rw [hcode] at heq
  have hfirst : (emitRef (variableRef cenv "super") cg).Ok := hrest.ok_before _ (heq ▸ hok)
  have hvar := Refines.ref (variableRef_ok cenv "super")
  have hall := hrest.bytes_eq (heq ▸ hok) (hvar.aligned hfirst ha)
  rw [heq,hbytes,hvar.bytes_eq hfirst ha,append_assoc,append_cancel_left_eq] at hall
  rcases variableRef_super cenv cg.tab with ⟨o,k,href,ho⟩ | ⟨msg,t',href⟩
  · have hhead := congrArg (fun l => l.head?) hall
    simp only [compileSeparately,compileReceiver,h,if_true,Compile.andThen,Compile.op,Compile.ref,
      href,cons_append,nil_append,encode,AInstr.bytes,encodeWide] at hhead
    rcases ho with rfl | rfl <;> by_cases hk : k ≤ 255 <;> simp [hk,Opcode.code] at hhead
  · have herror := hfirst.1
    simp only [emitRef,href] at herror
    exact cgError_keeps msg t' herror

end

/-! ## Runs -/

section

variable {σ ω : Type} (cenv : CodegenEnv σ) (env : Env ω) (mode : LoopMode) (q : Place)

/-- One message to the object `r`: its arguments are evaluated above `r`, the send comes back with
`v`. Collections may have moved the objects on the stack by `move`. -/
def MessageRun (o : Opcode) (m : String × List (Compiler σ)) (pos : Nat) (t : Tables σ)
    (s : Machine ω) (r : Oop) (below : List Oop) (s' : Machine ω) (v : Oop) (move : Oop → Oop) :
    Prop :=
  ∃ (s₁ : Machine ω) (args : List Oop) (move₁ move₂ : Oop → Oop),
    q.Goes env mode s pos (r :: below) s₁ (pos + codeSize (compileArgs m.2 pos t).1)
      (args.reverse ++ (r :: below).map move₁) ∧ args.length = m.2.length ∧
    q.Goes env mode s₁ (pos + codeSize (compileArgs m.2 pos t).1)
      (args.reverse ++ (r :: below).map move₁) s'
      (pos + codeSize (compileMessage cenv o m pos t).1) (v :: (below.map move₁).map move₂) ∧
    move = move₂ ∘ move₁

/-- The messages in their order, all to the same object; `v` is the value of the last. -/
inductive InTurn (o : Opcode) : List (String × List (Compiler σ)) → Nat → Tables σ → Machine ω →
    Oop → List Oop → Machine ω → Oop → (Oop → Oop) → Prop
  | last {m pos t s r below s' v move} :
      MessageRun cenv env mode q o m pos t s r below s' v move →
      InTurn o [m] pos t s r below s' v move
  | more {m m' ms pos t s r below s₁ v₁ move₁ s' v move stop} :
      stop = pos + 2 + codeSize (compileMessage cenv o m (pos + 2) t).1 →
      MessageRun cenv env mode q o m (pos + 2) t (s.withStack (pos + 2) (r :: r :: below)) r
        (r :: below) s₁ v₁ move₁ →
      InTurn o (m' :: ms) (stop + 2) (compileMessage cenv o m (pos + 2) t).2
        (s₁.withStack (stop + 2) ((r :: below).map move₁)) (move₁ r) (below.map move₁) s' v move →
      InTurn o (m :: m' :: ms) pos t s r below s' v (move ∘ move₁)

variable {cenv env mode q} {cm : CompiledMethod} (hcm : env.methods q.method = some cm)
  (hbound : cm.bytecodes.length < 2 ^ 32)

theorem MessageRun.goes {o : Opcode} {m : String × List (Compiler σ)} {pos : Nat} {t : Tables σ}
    {s s' : Machine ω} {r v : Oop} {below : List Oop} {move : Oop → Oop}
    (h : MessageRun cenv env mode q o m pos t s r below s' v move) :
    q.Goes env mode s pos (r :: below) s' (pos + codeSize (compileMessage cenv o m pos t).1)
      (v :: below.map move) := by
  obtain ⟨s₁,args,move₁,move₂,hargs,-,hsend,rfl⟩ := h
  rw [← List.map_map]
  exact hargs.trans hsend

include hcm hbound

theorem InTurn.goes {o : Opcode} {ms : List (String × List (Compiler σ))} {pos : Nat}
    {t : Tables σ} {s s' : Machine ω} {r v : Oop} {below : List Oop} {move : Oop → Oop}
    (h : InTurn cenv env mode q o ms pos t s r below s' v move) (hs : q.At s pos (r :: below))
    (hcode : CodeAt cm pos (compileInTurn cenv o ms pos t).1) :
    q.Goes env mode s pos (r :: below) s' (pos + codeSize (compileInTurn cenv o ms pos t).1)
      (v :: below.map move) := by
  induction h with
  | last hm => exact hm.goes
  | @more m m' ms pos t s r below s₁ v₁ move₁ s' v move stop hstop hm hms ih =>
    subst hstop
    have hsplit := compileInTurn_more cenv o m m' ms pos t
    dsimp only at hsplit
    rw [hsplit] at hcode ⊢
    have hdup := Place.Goes.dup mode hcm hbound hs hcode
    have hmessage := hm.goes
    have hafter := (hcode.right).right
    have hpop := Place.Goes.pop mode hcm hbound hmessage.stop hafter.left
    have hrest := ih hpop.stop hafter.right
    rw [List.map_map] at hrest
    rw [kept_size]
    exact ((hdup.trans hmessage).trans hpop).trans hrest

end

/-! ## Cascades and separate sends -/

section

variable {σ ω : Type}

/-- The code emitted between two states of the generator is in the method, at its place. -/
def EmittedAt (cm : CompiledMethod) (cg cg' : Codegen σ) : Prop :=
  ∃ before after,cm.bytecodes = before ++ cg'.code.bytes.drop cg.code.count ++ after ∧
    before.length = cg.code.count

theorem EmittedAt.codeAt {cm : CompiledMethod} {cg cg' : Codegen σ} {asm : List AInstr}
    (h : EmittedAt cm cg cg') (hbytes : cg'.code.bytes = cg.code.bytes ++ encode asm) :
    CodeAt cm cg.code.count asm := by
  obtain ⟨before,after,hcode,hlen⟩ := h
  refine ⟨before,after,?_,hlen⟩
  rw [hcode,hbytes,ByteBuf.count,drop_left]

/-- The cascade is accepted, its code is that of its receiver and of the messages of the separate
sends, and it does what they do: the receiver is evaluated once, the messages are sent to it in
order, and the value is the last one's. -/
structure CascadePerforms (cenv : CodegenEnv σ) (env : Env ω) (mode : LoopMode) (fuel : Nat)
    (expr : Parse Node) (toks rest : List Token) (receiver : Node)
    (messages : List (String × List Node)) (forValue : Bool) (cg : Codegen σ) : Prop where
  parsed : parseCascadeOrExpr fuel expr toks = .ok (.cascade receiver messages,rest)
  compiled : (emitter cenv (.cascade receiver messages)).node forValue cg =
    emitSeparately cenv receiver messages forValue cg
  performed : ∀ (cm : CompiledMethod) (q : Place),env.methods q.method = some cm →
    cm.bytecodes.length < 2 ^ 32 →
    EmittedAt cm cg ((emitter cenv (.cascade receiver messages)).node forValue cg) →
    let pos := cg.code.count
    let stop := ((emitter cenv (.cascade receiver messages)).node forValue cg).code.count
    let c := compileReceiver cenv receiver pos cg.tab
    ∀ (s s₁ s₂ : Machine ω) (r v : Oop) (below : List Oop) (move₀ move : Oop → Oop),
      q.Goes env mode s pos below s₁ (pos + codeSize c.1) (r :: below.map move₀) →
      InTurn cenv env mode q (sendOp receiver) (compileMessages cenv messages)
        (pos + codeSize c.1) c.2 s₁ r (below.map move₀) s₂ v move →
      if forValue then q.Goes env mode s pos below s₂ stop (v :: (below.map move₀).map move)
      else q.Goes env mode s pos below (s₂.withStack stop ((below.map move₀).map move)) stop
        ((below.map move₀).map move)

/-- The code of the separate sends does what they do. -/
theorem separately_performed {cenv : CodegenEnv σ} {env : Env ω} {mode : LoopMode}
    {receiver : Node} {messages : List (String × List Node)} {forValue : Bool}
    {cm : CompiledMethod} {q : Place} (hcm : env.methods q.method = some cm)
    (hbound : cm.bytecodes.length < 2 ^ 32) {pos : Nat} {t : Tables σ}
    (hcode : CodeAt cm pos (compileSeparately cenv receiver messages forValue pos t).1)
    {s s₁ s₂ : Machine ω} {r v : Oop} {below : List Oop} {move₀ move : Oop → Oop}
    (hreceiver : q.Goes env mode s pos below s₁
      (pos + codeSize (compileReceiver cenv receiver pos t).1) (r :: below.map move₀))
    (hrun : InTurn cenv env mode q (sendOp receiver) (compileMessages cenv messages)
      (pos + codeSize (compileReceiver cenv receiver pos t).1)
      (compileReceiver cenv receiver pos t).2 s₁ r (below.map move₀) s₂ v move) :
    let stop := pos + codeSize (compileSeparately cenv receiver messages forValue pos t).1
    if forValue then q.Goes env mode s pos below s₂ stop (v :: (below.map move₀).map move)
    else q.Goes env mode s pos below (s₂.withStack stop ((below.map move₀).map move)) stop
      ((below.map move₀).map move) := by
  have hall := hreceiver.trans (hrun.goes hcm hbound hreceiver.stop hcode.left.right)
  have hsize : pos + codeSize (compileReceiver cenv receiver pos t).1 +
      codeSize (compileInTurn cenv (sendOp receiver) (compileMessages cenv messages)
        (pos + codeSize (compileReceiver cenv receiver pos t).1)
        (compileReceiver cenv receiver pos t).2).1 =
      pos + codeSize ((compileReceiver cenv receiver).andThen (compileInTurn cenv (sendOp receiver)
        (compileMessages cenv messages)) pos t).1 := by
    rw [Compile.andThen,Nat.add_assoc]
    exact congrArg (pos + ·) (Layout.extent_append _ _ _).symm
  rw [hsize] at hall
  intro stop
  cases forValue with
  | true =>
    have hstop : stop = pos + codeSize ((compileReceiver cenv receiver).andThen
        (compileInTurn cenv (sendOp receiver) (compileMessages cenv messages)) pos t).1 :=
      congrArg (fun asm => pos + codeSize asm) (append_nil _)
    rw [hstop]
    exact hall
  | false =>
    have hpop := Place.Goes.pop mode hcm hbound hall.stop hcode.right
    have hstop : stop = pos + codeSize ((compileReceiver cenv receiver).andThen
        (compileInTurn cenv (sendOp receiver) (compileMessages cenv messages)) pos t).1 + 2 :=
      (congrArg (pos + ·) (Layout.extent_append _ _ _)).trans (Nat.add_assoc _ _ _).symm
    rw [hstop]
    exact hall.trans hpop

/-- Where the separate sends are accepted, a cascade does what they do just when its receiver is not
`super` and no message after a semicolon is to the bar. -/
theorem cascade_performs_iff (cenv : CodegenEnv σ) (env : Env ω) (mode : LoopMode) {fuel : Nat}
    {expr : Parse Node} {toks tail rest : List Token} {receiver : Node} {sel : String}
    {args : List Node} {ms : List (TokenType × String × List Node)} {forValue : Bool}
    {cg : Codegen σ}
    (hfirst : parseKeywordExpr fuel expr toks = .ok (mkSend receiver sel args,tail))
    (hsemi : peekType tail = .semicolon)
    (hplain : plainMessages fuel expr fuel tail = .ok (ms,rest))
    (hok : (emitSeparately cenv receiver ((sel,args) :: ms.map Prod.snd) forValue cg).Ok)
    (ha : Aligned cg.code.bytes) :
    CascadePerforms cenv env mode fuel expr toks rest receiver ((sel,args) :: ms.map Prod.snd)
      forValue cg ↔ receiver.isSuper = false ∧ ∀ m ∈ ms,m.1 ≠ .vbar := by
  have hhead : (mkSend receiver sel args).cascadeHead = some (receiver,sel,args) := by
    unfold mkSend
    split <;> rfl
  have hparse : parseCascadeOrExpr fuel expr toks =
        .ok (.cascade receiver ((sel,args) :: ms.map Prod.snd),rest) ↔ ∀ m ∈ ms,m.1 ≠ .vbar := by
    rw [← cascadeMessages_iff hplain]
    simp only [parseCascadeOrExpr,hfirst,bind,Except.bind,hsemi,if_true,hhead]
    cases cascadeMessages fuel expr fuel tail with
    | error e => simp
    | ok r => simp [pure,Except.pure,Prod.ext_iff]
  have hcg := ((separately_refines cenv receiver _ forValue).ok_before cg hok).1
  constructor
  · intro h
    refine ⟨?_,hparse.mp h.parsed⟩
    by_contra hsuper
    exact emit_cascade_super cenv (by simpa using hsuper) _ forValue hok ha h.compiled
  · rintro ⟨hsuper,hbar⟩
    have hcompiled := emit_cascade_plain cenv hsuper ((sel,args) :: ms.map Prod.snd) forValue hcg
    refine ⟨hparse.mpr hbar,hcompiled,?_⟩
    rw [hcompiled]
    intro cm q hcm hbound hemitted pos stop c s s₁ s₂ r v below move₀ move hreceiver hrun
    have hrefines := separately_refines cenv receiver ((sel,args) :: ms.map Prod.snd) forValue
    have hperformed := separately_performed hcm hbound
      (hemitted.codeAt (hrefines.bytes_eq hok ha)) hreceiver hrun
    have hstop : stop = _ := hrefines.count_eq hok ha
    rw [hstop]
    exact hperformed

/-- `x foo; bar` with a temporary `x`. -/
theorem cascade_to_variable :
    ∃ rest,CascadePerforms freshEnv (tableEnv [] [] [] [] : Env Unit) (sourceMode true) 8
      (parseExpression 8) (tokens "x foo; bar".toList) rest (.var "x") [("foo",[]),("bar",[])] true
      (cgInit freshEnv [] ["x"] (analyzeCaptures [] ["x"] []) 0) :=
  ⟨_,(@cascade_performs_iff _ _ freshEnv (tableEnv [] [] [] [] : Env Unit) (sourceMode true) 8
    (parseExpression 8) _ _ _ (.var "x") "foo" [] [(.identifier,"bar",[])] true _
    rfl rfl rfl (by constructor <;> rfl) (fun h => absurd h (by decide))).mpr (by decide)⟩

/-- `super foo; bar` is not compiled where the separate sends are, and `x foo; | x` is not even
accepted. -/
theorem cascade_to_super :
    let cg := cgInit freshEnv [] ["x"] (analyzeCaptures [] ["x"] []) 0
    let messages : List (String × List Node) := [("foo",[]),("bar",[])]
    (∀ rest,¬ CascadePerforms freshEnv (tableEnv [] [] [] [] : Env Unit) (sourceMode true) 8
      (parseExpression 8) (tokens "super foo; bar".toList) rest (.var "super") messages true cg) ∧
    (emitSeparately freshEnv (.var "super") messages true cg).Ok ∧
    ((emitter freshEnv (.cascade (.var "super") messages)).node true cg).tab.error =
      some "undeclared variable 'super'" ∧
    (∃ e,parseCascadeOrExpr 8 (parseExpression 8) (tokens "x foo; | x".toList) = .error e) := by
  intro cg messages
  refine ⟨fun rest h => ?_,by constructor <;> rfl,rfl,⟨_,rfl⟩⟩
  have herror := congrArg (fun cg => cg.tab.error) h.compiled
  exact absurd herror (by decide)

end

end SmalltalkA
