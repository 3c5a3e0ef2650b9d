import SmalltalkA.Compiler.Grammar
import SmalltalkA.Compiler.Printing

/-! Parsing gives printed trees back. What a phrase says depends on what follows it, so each level
of expressions has its own account of the printed tokens. -/

set_option autoImplicit false

namespace SmalltalkA

open List

/-! ## What may follow -/

def TokenType.rank : TokenType → Nat
  | .binarySelector | .vbar => 1
  | .keyword => 2
  | .semicolon => 3
  | .rparen | .rbracket | .period | .eof => 4
  | _ => 0

variable {toks rest : List Token} {selector : String} {n : Node} {body : List Node}

theorem rank_not_unary (h : 1 ≤ (peekType toks).rank) : headIs Token.isUnary toks = false := by
  cases toks with
  | nil => rfl
  | cons t ts =>
    cases htype : t.type <;> simp_all [peekType,TokenType.rank,headIs,Token.isUnary]

theorem rank_not_binary (h : 2 ≤ (peekType toks).rank) : headIs Token.isBinary toks = false := by
  cases toks with
  | nil => rfl
  | cons t ts =>
    cases htype : t.type <;> simp_all [peekType,TokenType.rank,headIs,Token.isBinary]

theorem rank_not_keyword (h : 3 ≤ (peekType toks).rank) : peekType toks ≠ .keyword := by
  intro htype
  rw [htype] at h
  exact absurd h (by decide)

theorem rank_not_semicolon (h : 4 ≤ (peekType toks).rank) : peekType toks ≠ .semicolon := by
  intro htype
  rw [htype] at h
  exact absurd h (by decide)

theorem rank_not_assign (h : 1 ≤ (peekType toks).rank) : peekType toks ≠ .assign := by
  intro htype
  rw [htype] at h
  exact absurd h (by decide)

/-! ## The forms of expressions -/

section
variable (toks : List Token) (n : Node)

def PrimaryForm : Prop := ∀ rest,Derives .primary (toks ++ rest) (.node n) rest

def UnaryForm : Prop :=
  ∀ ⦃rest m rest'⦄,Derives (.unaryTail n) rest (.node m) rest' →
    Derives .unary (toks ++ rest) (.node m) rest'

def BinaryForm : Prop :=
  ∀ ⦃rest m rest'⦄,1 ≤ (peekType rest).rank → Derives (.binaryTail n) rest (.node m) rest' →
    Derives .binary (toks ++ rest) (.node m) rest'

def KeywordForm : Prop :=
  ∀ ⦃rest⦄,3 ≤ (peekType rest).rank → Derives .keyword (toks ++ rest) (.node n) rest

def ExpressionForm : Prop :=
  ∀ ⦃rest⦄,4 ≤ (peekType rest).rank → Derives .expression (toks ++ rest) (.node n) rest

def NoAssignment : Prop :=
  ∀ ⦃rest⦄,peekType rest ≠ .assign → startsAssign (toks ++ rest) = false

end

section
variable {toks : List Token} {n : Node}

theorem PrimaryForm.unaryForm (h : PrimaryForm toks n) : UnaryForm toks n :=
  fun _ _ _ htail => .unaryExpr (h _) htail

theorem UnaryForm.unary (h : UnaryForm toks n) {rest : List Token}
    (hrest : 1 ≤ (peekType rest).rank) : Derives .unary (toks ++ rest) (.node n) rest :=
  h (.unaryStop (rank_not_unary hrest))

theorem UnaryForm.binaryForm (h : UnaryForm toks n) : BinaryForm toks n :=
  fun _ _ _ hrest htail => .binaryExpr (h.unary hrest) htail

theorem BinaryForm.binary (h : BinaryForm toks n) {rest : List Token}
    (hrest : 2 ≤ (peekType rest).rank) : Derives .binary (toks ++ rest) (.node n) rest :=
  h (Nat.le_of_succ_le hrest) (.binaryStop (rank_not_binary hrest))

theorem BinaryForm.keywordForm (h : BinaryForm toks n) : KeywordForm toks n :=
  fun _ hrest => .keywordNone (h.binary (Nat.le_of_succ_le hrest)) (rank_not_keyword hrest)

theorem KeywordForm.expressionForm (h : KeywordForm toks n) (hassign : NoAssignment toks) :
    ExpressionForm toks n := by
  intro rest hrest
  have hnone := Derives.cascadeNone (h (Nat.le_of_succ_le hrest)) (rank_not_semicolon hrest)
  exact .plain (hassign (rank_not_assign (by omega))) hnone

theorem ExpressionForm.parens (h : ExpressionForm toks n) :
    PrimaryForm (markToken .lparen :: (toks ++ [markToken .rparen])) n := by
  intro rest
  have hinner : Derives .expression (toks ++ markToken .rparen :: rest) (.node n)
      (markToken .rparen :: rest) := h (Nat.le_refl 4)
  have := Derives.paren (t := markToken .lparen) rfl hinner rfl
  simpa using this

end

/-- What is printed for an expression says it at each level it belongs to. -/
structure Printed (n : Node) : Prop where
  starts : ∃ t ts,n.print = t :: ts ∧ t.type ∈ [.identifier,.lparen,.lbracket]
  assignment : n.level ≤ 4 → NoAssignment n.print
  unary : n.level ≤ 1 → UnaryForm n.print n
  binary : n.level ≤ 2 → BinaryForm n.print n
  keyword : n.level ≤ 3 → KeywordForm n.print n
  expression : ExpressionForm n.print n
  receiver : n.isSuper = false

namespace Printed
variable {n : Node}

theorem parenthesised_unaryForm (h : Printed n) : UnaryForm (parenthesised 1 n n.print) n := by
  unfold parenthesised
  split
  · next hlevel => exact h.unary hlevel
  · exact h.expression.parens.unaryForm

theorem parenthesised_binaryForm (h : Printed n) : BinaryForm (parenthesised 2 n n.print) n := by
  unfold parenthesised
  split
  · next hlevel => exact h.binary hlevel
  · exact h.expression.parens.unaryForm.binaryForm

theorem parenthesised_starts (h : Printed n) (limit : Nat) :
    ∃ t ts,parenthesised limit n n.print = t :: ts ∧ t.type ∈ [.identifier,.lparen,.lbracket] := by
  unfold parenthesised
  split
  · exact h.starts
  · exact ⟨_,_,rfl,by decide⟩

theorem parenthesised_assignment (h : Printed n) {limit : Nat} (hlimit : limit ≤ 4) :
    NoAssignment (parenthesised limit n n.print) := by
  unfold parenthesised
  split
  · next hlevel => exact h.assignment (Nat.le_trans hlevel hlimit)
  · intro rest _
    cases n.print <;> rfl

theorem ofUnary (hstarts : ∃ t ts,n.print = t :: ts ∧ t.type ∈ [.identifier,.lparen,.lbracket])
    (hassign : NoAssignment n.print) (h : UnaryForm n.print n) (hsuper : n.isSuper = false) :
    Printed n where
  starts := hstarts
  assignment := fun _ => hassign
  unary := fun _ => h
  binary := fun _ => h.binaryForm
  keyword := fun _ => h.binaryForm.keywordForm
  expression := h.binaryForm.keywordForm.expressionForm hassign
  receiver := hsuper

theorem ofBinary (hlevel : n.level = 2)
    (hstarts : ∃ t ts,n.print = t :: ts ∧ t.type ∈ [.identifier,.lparen,.lbracket])
    (hassign : NoAssignment n.print) (h : BinaryForm n.print n) (hsuper : n.isSuper = false) :
    Printed n where
  starts := hstarts
  assignment := fun _ => hassign
  unary := fun hl => absurd hl (by omega)
  binary := fun _ => h
  keyword := fun _ => h.keywordForm
  expression := h.keywordForm.expressionForm hassign
  receiver := hsuper

theorem ofKeyword (hlevel : n.level = 3)
    (hstarts : ∃ t ts,n.print = t :: ts ∧ t.type ∈ [.identifier,.lparen,.lbracket])
    (hassign : NoAssignment n.print) (h : KeywordForm n.print n) (hsuper : n.isSuper = false) :
    Printed n where
  starts := hstarts
  assignment := fun _ => hassign
  unary := fun hl => absurd hl (by omega)
  binary := fun hl => absurd hl (by omega)
  keyword := fun _ => h
  expression := h.expressionForm hassign
  receiver := hsuper

end Printed

/-! ## Sends -/

theorem tokenStr_nameToken (name : String) : tokenStr (nameToken name) = name :=
  String.ofList_toList

theorem tokenStr_operatorToken (selector : String) :
    tokenStr (operatorToken selector) = selector := String.ofList_toList

theorem operatorToken_isBinary (selector : String) : (operatorToken selector).isBinary = true := by
  unfold operatorToken Token.isBinary
  split <;> rfl

theorem operatorToken_rank (selector : String) : (operatorToken selector).type.rank = 1 := by
  unfold operatorToken
  split <;> rfl

theorem mkSend_eq {receiver : Node} (h : receiver.isSuper = false) (selector : String)
    (args : List Node) : mkSend receiver selector args = .send receiver selector args := by
  simp [mkSend,h]

section
variable {receiver : Node}

variable {selector : String}

theorem unaryForm_send (hreceiver : Printed receiver) (hname : isPseudoVariable selector = false) :
    UnaryForm (parenthesised 1 receiver receiver.print ++ [nameToken selector])
      (.send receiver selector []) := by
  intro rest m rest' htail
  rw [append_assoc]
  refine hreceiver.parenthesised_unaryForm (.unarySend ?_ ?_)
  · rw [Token.isUnary,tokenStr_nameToken,hname]
    rfl
  · rwa [tokenStr_nameToken,mkSend_eq hreceiver.receiver]

theorem binaryForm_send (hreceiver : Printed receiver) {arg : Node} (harg : Printed arg)
    (selector : String) :
    BinaryForm (parenthesised 2 receiver receiver.print ++
      operatorToken selector :: parenthesised 1 arg arg.print) (.send receiver selector [arg]) := by
  intro rest m rest' hrest htail
  rw [append_assoc]
  refine hreceiver.parenthesised_binaryForm (Nat.le_of_eq (operatorToken_rank selector).symm) ?_
  refine .binarySend (operatorToken_isBinary selector) (harg.parenthesised_unaryForm.unary hrest) ?_
  rwa [tokenStr_operatorToken,mkSend_eq hreceiver.receiver]

theorem partTokens_rank (keywords : List (List Char)) (args : List (List Token))
    {rest : List Token} (hrest : 2 ≤ (peekType rest).rank) :
    2 ≤ (peekType (partTokens keywords args ++ rest)).rank := by
  unfold partTokens
  split
  · exact Nat.le_refl 2
  · exact hrest

theorem derives_parts {keywords : List (List Char)} {args : List Node}
    (hlength : args.length = keywords.length) (hargs : ∀ a ∈ args,Printed a) {rest : List Token}
    (hrest : 3 ≤ (peekType rest).rank) :
    Derives .parts (partTokens keywords (printArgs 2 args) ++ rest)
      (.message (keywords.flatMap fun k => k ++ [':']) args) rest := by
  induction keywords generalizing args with
  | nil =>
    obtain rfl := eq_nil_of_length_eq_zero hlength
    exact .partsStop (rank_not_keyword hrest)
  | cons k ks ih =>
    cases args with
    | nil => cases hlength
    | cons a as =>
      obtain ⟨ha,has⟩ := forall_mem_cons.mp hargs
      have hparts := ih (Nat.succ.inj hlength) has
      have harg := ha.parenthesised_binaryForm.binary
        (partTokens_rank ks (printArgs 2 as) (Nat.le_of_succ_le hrest))
      have := Derives.part (t := keywordToken (k ++ [':'])) rfl harg hparts
      simpa [partTokens,printArgs,keywordToken] using this

theorem keywordForm_send (hreceiver : Printed receiver) {keywords : List (List Char)}
    (hne : keywords ≠ []) {args : List Node} (hlength : args.length = keywords.length)
    (hargs : ∀ a ∈ args,Printed a) :
    KeywordForm (parenthesised 2 receiver receiver.print ++ partTokens keywords (printArgs 2 args))
      (.send receiver (String.ofList (keywords.flatMap fun k => k ++ [':'])) args) := by
  intro rest hrest
  have hparts := derives_parts hlength hargs hrest
  have hkeyword : peekType (partTokens keywords (printArgs 2 args) ++ rest) = .keyword := by
    obtain ⟨k,ks,rfl⟩ := exists_cons_of_ne_nil hne
    cases args with
    | nil => cases hlength
    | cons a as => rfl
  have hrank : 2 ≤ (peekType (partTokens keywords (printArgs 2 args) ++ rest)).rank := by
    rw [hkeyword]
    exact Nat.le_refl 2
  have := Derives.keywordSend (hreceiver.parenthesised_binaryForm.binary hrank) hkeyword hparts
  rwa [mkSend_eq hreceiver.receiver,← append_assoc] at this

theorem NoAssignment.append {toks us : List Token} (h : NoAssignment toks)
    (hus : ∀ rest,peekType (us ++ rest) ≠ .assign) : NoAssignment (toks ++ us) := by
  intro rest _
  rw [append_assoc]
  exact h (hus rest)

theorem starts_append {toks : List Token} {types : List TokenType}
    (h : ∃ t ts,toks = t :: ts ∧ t.type ∈ types) (us : List Token) :
    ∃ t ts,toks ++ us = t :: ts ∧ t.type ∈ types := by
  obtain ⟨t,ts,rfl,ht⟩ := h
  exact ⟨t,ts ++ us,rfl,ht⟩

theorem messageTokens_not_assign {count : Nat} (h : SelectorFor selector count)
    {args : List (List Token)} (hargs : args.length = count) (rest : List Token) :
    peekType (messageTokens selector args ++ rest) ≠ .assign := by
  cases h with
  | unary h => simp [messageTokens_unary h,nameToken,peekType]
  | binary h =>
    rw [messageTokens_binary h,cons_append]
    exact rank_not_assign (Nat.le_of_eq (operatorToken_rank _).symm)
  | keyword hne h =>
    rw [messageTokens_keyword hne h]
    obtain ⟨k,ks,rfl⟩ := exists_cons_of_ne_nil hne
    cases args with
    | nil => cases hargs
    | cons a as => simp [partTokens,peekType,keywordToken]

theorem length_printArgs (limit : Nat) (args : List Node) :
    (printArgs limit args).length = args.length := by
  induction args with
  | nil => rfl
  | cons a as ih => simp [printArgs,ih]

theorem Printed.send (hreceiver : Printed receiver) {args : List Node}
    (hselector : SelectorFor selector args.length) (hname : isPseudoVariable selector = false)
    (hargs : ∀ a ∈ args,Printed a) : Printed (.send receiver selector args) := by
  have hstarts : ∃ t ts,(Node.send receiver selector args).print = t :: ts ∧
      t.type ∈ [.identifier,.lparen,.lbracket] :=
    starts_append (hreceiver.parenthesised_starts _) _
  have hlimit : receiverLevel selector ≤ 4 := by
    unfold receiverLevel
    split <;> omega
  have hassign : NoAssignment (Node.send receiver selector args).print :=
    (hreceiver.parenthesised_assignment hlimit).append
      (messageTokens_not_assign hselector (length_printArgs _ args))
  generalize hcount : args.length = count at hselector
  cases hselector with
  | unary h =>
    obtain rfl := eq_nil_of_length_eq_zero hcount
    refine .ofUnary hstarts hassign ?_ rfl
    have hform := unaryForm_send hreceiver hname
    simpa [Node.print,receiverLevel,messageKind_unary h,messageTokens_unary h] using hform
  | @binary op h =>
    obtain ⟨arg,rfl⟩ := length_eq_one_iff.mp hcount
    refine .ofBinary (by simp [Node.level,messageKind_binary h]) hstarts hassign ?_ rfl
    have hform := binaryForm_send hreceiver (hargs arg (by simp)) (String.ofList op)
    simpa [Node.print,printArgs,receiverLevel,argLevel,messageKind_binary h,
      messageTokens_binary h] using hform
  | keyword hne h =>
    refine .ofKeyword (by simp [Node.level,messageKind_keyword hne h]) hstarts hassign ?_ rfl
    have hform := keywordForm_send hreceiver hne hcount hargs
    simpa [Node.print,receiverLevel,argLevel,messageKind_keyword hne h,
      messageTokens_keyword hne h] using hform

end

/-! ## Cascades and assignments -/

theorem derives_furtherMessage {args : List Node} (hselector : SelectorFor selector args.length)
    (hbar : selector ≠ "|") (hargs : ∀ a ∈ args,Printed a) (hrest : 3 ≤ (peekType rest).rank) :
    Derives .furtherMessage (messageTokens selector (printArgs (argLevel selector) args) ++ rest)
      (.message selector.toList args) rest := by
  generalize hcount : args.length = count at hselector
  cases hselector with
  | unary h =>
    obtain rfl := eq_nil_of_length_eq_zero hcount
    rw [messageTokens_unary h]
    exact .cascadeUnary rfl
  | @binary op h =>
    obtain ⟨arg,rfl⟩ := length_eq_one_iff.mp hcount
    have harg := (hargs arg (by simp)).parenthesised_unaryForm.unary
      (Nat.le_trans (by decide) hrest)
    have := Derives.cascadeBinary (t := operatorToken (String.ofList op))
      (by simp [operatorToken,hbar]) harg
    simpa [messageTokens_binary h,printArgs,argLevel,messageKind_binary h,operatorToken] using this
  | keyword hne h =>
    have hparts := derives_parts hcount hargs hrest
    rw [messageTokens_keyword hne h,argLevel,if_pos (messageKind_keyword hne h),
      String.toList_ofList]
    refine .cascadeKeyword ?_ hparts
    obtain ⟨k,ks,rfl⟩ := exists_cons_of_ne_nil hne
    cases args with
    | nil => cases hcount
    | cons a as => rfl

theorem printMessages_rank (messages : List (String × List Node)) (hrest : 3 ≤ (peekType rest).rank)
    :
    3 ≤ (peekType (printMessages messages ++ rest)).rank := by
  cases messages with
  | nil => exact hrest
  | cons m ms => exact Nat.le_refl 3

theorem derives_cascadeTail {messages : List (String × List Node)} (hselectors : ∀ m ∈ messages,
      SelectorFor m.1 m.2.length ∧ isPseudoVariable m.1 = false ∧ m.1 ≠ "|")
    (hargs : ∀ m ∈ messages,∀ a ∈ m.2,Printed a) (hrest : 4 ≤ (peekType rest).rank) :
    Derives .cascadeTail (printMessages messages ++ rest) (.messages messages) rest := by
  induction messages with
  | nil => exact .cascadeStop (rank_not_semicolon hrest)
  | cons m ms ih =>
    obtain ⟨hm,hms⟩ := forall_mem_cons.mp hselectors
    obtain ⟨ham,hams⟩ := forall_mem_cons.mp hargs
    have hmessage := derives_furtherMessage hm.1 hm.2.2 ham
      (printMessages_rank ms (Nat.le_of_succ_le hrest))
    have := Derives.cascadeMore (t := markToken .semicolon) rfl hmessage (ih hms hams)
    simpa [printMessages] using this

theorem Printed.cascade {receiver : Node} {messages : List (String × List Node)}
    (hreceiver : Printed receiver) (hcount : 2 ≤ messages.length)
    (hselectors : ∀ m ∈ messages,SelectorFor m.1 m.2.length ∧ isPseudoVariable m.1 = false ∧
      m.1 ≠ "|")
    (hargs : ∀ m ∈ messages,∀ a ∈ m.2,Printed a) : Printed (.cascade receiver messages) := by
  match messages,hcount with
  | m :: m' :: ms,_ =>
    obtain ⟨hm,hms⟩ := forall_mem_cons.mp hselectors
    obtain ⟨ham,hams⟩ := forall_mem_cons.mp hargs
    -- the receiver with the first message is a send by itself
    have hsend := hreceiver.send hm.1 hm.2.1 ham
    have hlevel : (Node.send receiver m.1 m.2).level ≤ 3 := by
      unfold Node.level
      dsimp only
      split <;> omega
    have hprint : (Node.cascade receiver (m :: m' :: ms)).print =
        (Node.send receiver m.1 m.2).print ++ printMessages (m' :: ms) := rfl
    have hassign : NoAssignment (Node.cascade receiver (m :: m' :: ms)).print := by
      rw [hprint]
      exact (hsend.assignment (by omega)).append (fun _ => nofun)
    have hhigh : 4 ≤ (Node.cascade receiver (m :: m' :: ms)).level := Nat.le_refl 4
    refine ⟨hprint ▸ starts_append hsend.starts _,fun _ => hassign,fun h => absurd h (by omega),
      fun h => absurd h (by omega),fun h => absurd h (by omega),fun rest hrest => ?_,rfl⟩
    have htail := derives_cascadeTail hms hams hrest
    have hsemicolon : 3 ≤ (peekType (printMessages (m' :: ms) ++ rest)).rank := Nat.le_refl 3
    have hhead := hsend.keyword hlevel hsemicolon
    refine .plain (hassign (rank_not_assign (by omega))) ?_
    rw [hprint,append_assoc]
    exact .cascadeSends hhead rfl rfl htail

theorem Printed.assign {name : String} {value : Node} (hvalue : Printed value) :
    Printed (.assign name value) := by
  have hhigh : 5 ≤ (Node.assign name value).level := Nat.le_refl 5
  refine ⟨⟨_,_,rfl,mem_cons_self⟩,fun h => absurd h (by omega),fun h => absurd h (by omega),
    fun h => absurd h (by omega),fun h => absurd h (by omega),fun rest hrest => ?_,rfl⟩
  have := Derives.assign (t := nameToken name) (u := markToken .assign) rfl rfl
    (hvalue.expression hrest)
  simpa [Node.print,tokenStr_nameToken] using this

/-! ## Blocks and statements -/

theorem names_tokens (names : List String) (rest : List Token)
    (hrest : peekType rest ≠ .identifier) : Names (names.map nameToken ++ rest) names rest := by
  induction names with
  | nil => exact .nil hrest
  | cons x xs ih =>
    have := Names.cons (t := nameToken x) rfl ih
    rwa [tokenStr_nameToken] at this

theorem temps_tokens (temps : List String) (hrest : peekType rest ≠ .vbar) :
    Temps (tempTokens temps ++ rest) temps rest := by
  unfold tempTokens
  split
  · next h =>
    subst h
    exact .none hrest
  · have hnames := names_tokens temps (markToken .vbar :: rest) nofun
    have := Temps.some (t := markToken .vbar) rfl hnames rfl
    simpa using this

theorem argNames_tokens (args : List String) (rest : List Token) (hrest : peekType rest ≠ .colon) :
    ArgNames (args.flatMap (fun x => [markToken .colon,nameToken x]) ++ rest) args rest := by
  induction args with
  | nil => exact .nil hrest
  | cons x xs ih =>
    have := ArgNames.cons (t := markToken .colon) (u := nameToken x) rfl rfl ih
    rwa [tokenStr_nameToken] at this

theorem blockArgs_tokens (args : List String) (hrest : peekType rest ≠ .colon) :
    BlockArgs (argTokens args ++ rest) args rest := by
  unfold argTokens
  split
  · next h =>
    subst h
    exact .none hrest
  · next h =>
    have hnames := argNames_tokens args (markToken .vbar :: rest) nofun
    rw [append_assoc]
    refine .some ?_ hnames rfl
    obtain ⟨x,xs,rfl⟩ := exists_cons_of_ne_nil h
    rfl

/-- A printed statement, before what ends a statement. -/
structure PrintedStatement (n : Node) : Prop where
  starts : ∃ t ts,n.print = t :: ts ∧ t.type ∈ [.identifier,.lparen,.lbracket,.ret]
  statement : ∀ ⦃rest⦄,4 ≤ (peekType rest).rank →
    Derives .statement (n.print ++ rest) (.node n) rest

theorem Printed.statement (h : Printed n) : PrintedStatement n := by
  obtain ⟨t,ts,hprint,ht⟩ := h.starts
  refine ⟨⟨t,ts,hprint,by revert ht; cases t.type <;> decide⟩,
    fun rest hrest => .value ?_ (h.expression hrest)⟩
  rw [hprint]
  intro hret
  have htype : t.type = .ret := hret
  rw [htype] at ht
  exact absurd ht (by decide)

theorem Printed.ret (h : Printed n) : PrintedStatement (.ret n) := by
  refine ⟨⟨_,_,rfl,by decide⟩,fun rest hrest => ?_⟩
  have := Derives.ret (t := markToken .ret) rfl (h.expression hrest)
  simpa [Node.print] using this

theorem PrintedStatement.opens (h : PrintedStatement n) (inBlock : Bool) (rest : List Token) :
    closesBody inBlock (n.print ++ rest) = false := by
  obtain ⟨t,ts,hprint,ht⟩ := h.starts
  rw [hprint]
  cases htype : t.type <;> simp_all [closesBody,peekType]

theorem derives_statements (h : ∀ s ∈ body,PrintedStatement s) (inBlock : Bool) (rest : List Token)
    (hrest : closesBody inBlock rest = true) (hrank : 4 ≤ (peekType rest).rank)
    (hperiod : peekType rest ≠ .period) :
    Derives (.statements inBlock) (printStatements body ++ rest) (.nodes body) rest := by
  induction body with
  | nil => exact .bodyEnd hrest
  | cons s body ih =>
    obtain ⟨hs,hbody⟩ := forall_mem_cons.mp h
    cases body with
    | nil => exact .last (hs.opens inBlock rest) (hs.statement hrank) hperiod
    | cons t body =>
      have hfirst : Derives .statement
          (s.print ++ markToken .period :: (printStatements (t :: body) ++ rest)) (.node s)
          (markToken .period :: (printStatements (t :: body) ++ rest)) :=
        hs.statement (Nat.le_refl 4)
      have := Derives.more (hs.opens inBlock _) hfirst rfl (ih hbody)
      simpa [printStatements] using this

theorem printStatements_starts (h : ∀ s ∈ body,PrintedStatement s) (rest : List Token)
    (hbar : peekType rest ≠ .vbar) (hcolon : peekType rest ≠ .colon) :
    peekType (printStatements body ++ rest) ≠ .vbar ∧
      peekType (printStatements body ++ rest) ≠ .colon := by
  cases body with
  | nil => exact ⟨hbar,hcolon⟩
  | cons s body =>
    obtain ⟨t,ts,hprint,ht⟩ := (h s (by simp)).starts
    have htype : peekType (printStatements (s :: body) ++ rest) = t.type := by
      cases body <;> simp [printStatements,hprint,peekType]
    rw [htype]
    exact ⟨fun he => absurd (he ▸ ht) (by decide),fun he => absurd (he ▸ ht) (by decide)⟩

theorem tempTokens_not_colon (temps : List String) (h : peekType rest ≠ .colon) :
    peekType (tempTokens temps ++ rest) ≠ .colon := by
  unfold tempTokens
  split
  · exact h
  · nofun

theorem Printed.block {args temps : List String} {body : List Node}
    (hbody : ∀ s ∈ body,PrintedStatement s) : Printed (.block args temps body) := by
  refine .ofUnary ⟨_,_,rfl,by decide⟩ (fun rest _ => ?_) ?_ rfl
  · simp only [Node.print,cons_append]
    cases (argTokens args ++ (tempTokens temps ++ (printStatements body ++ [markToken .rbracket])) ++
      rest) <;> rfl
  · refine PrimaryForm.unaryForm fun rest => ?_
    have hstatements := derives_statements hbody true (markToken .rbracket :: rest) rfl
      (Nat.le_refl 4) (by simp [peekType,markToken])
    obtain ⟨hbar,hcolon⟩ := printStatements_starts hbody (markToken .rbracket :: rest)
      (by simp [peekType,markToken]) (by simp [peekType,markToken])
    have := Derives.block (t := markToken .lbracket) rfl
      (blockArgs_tokens args (tempTokens_not_colon temps hcolon)) (temps_tokens temps hbar)
      hstatements rfl
    simpa [Node.print] using this

/-! ## Whole methods -/

theorem wordNode_name {name : String} (h : isName name = true) :
    wordNode (nameToken name) = .var name := by
  simp only [isName,isPseudoVariable,Bool.and_eq_true,Bool.not_eq_true',contains_eq_mem,
    decide_eq_false_iff_not,mem_cons,not_or] at h
  simp [wordNode,tokenStr_nameToken,h]

theorem Source.printed {statement : Bool} (h : Source statement n) :
    PrintedStatement n ∧ (statement = false → Printed n) := by
  induction h with
  | @var name hname =>
    have hsuper : (Node.var name).isSuper = false := by
      simp only [isName,Bool.and_eq_true,Bool.not_eq_true'] at hname
      simp only [Node.isSuper,beq_eq_false_iff_ne]
      rintro rfl
      exact absurd hname.2 (by decide)
    have hword := wordNode_name hname
    have hprinted : Printed (.var name) := by
      refine .ofUnary ⟨_,_,rfl,mem_cons_self⟩ (fun rest hrest => ?_) ?_ hsuper
      · cases rest with
        | nil => rfl
        | cons t ts => simpa [Node.print,startsAssign,peekType] using fun _ => hrest
      · refine PrimaryForm.unaryForm fun rest => ?_
        have := @Derives.word (nameToken name) rest rfl
        rwa [hword] at this
    exact ⟨hprinted.statement,fun _ => hprinted⟩
  | send _ hselector hname _ ihreceiver ihargs =>
    have hprinted := (ihreceiver.2 rfl).send hselector hname fun a ha => (ihargs a ha).2 rfl
    exact ⟨hprinted.statement,fun _ => hprinted⟩
  | cascade _ hcount hselectors _ ihreceiver ihargs =>
    have hprinted := (ihreceiver.2 rfl).cascade hcount hselectors
      fun m hm a ha => (ihargs m hm a ha).2 rfl
    exact ⟨hprinted.statement,fun _ => hprinted⟩
  | @assign name value _ _ ihvalue =>
    have hprinted : Printed (.assign name value) := (ihvalue.2 rfl).assign
    exact ⟨hprinted.statement,fun _ => hprinted⟩
  | @block args temps body _ _ _ ihbody =>
    have hprinted : Printed (.block args temps body) := .block fun s hs => (ihbody s hs).1
    exact ⟨hprinted.statement,fun _ => hprinted⟩
  | ret _ ih => exact ⟨(ih.2 rfl).ret,fun h => by cases h⟩
  | expr _ ih => exact ⟨ih.1,fun h => by cases h⟩

theorem headerParts_tokens {keywords : List (List Char)} {args : List String}
    (hlength : args.length = keywords.length) (hrest : peekType rest ≠ .keyword) :
    HeaderParts (partTokens keywords (args.map fun x => [nameToken x]) ++ rest)
      (keywords.flatMap fun k => k ++ [':']) args rest := by
  induction keywords generalizing args with
  | nil =>
    obtain rfl := eq_nil_of_length_eq_zero hlength
    exact .nil hrest
  | cons k ks ih =>
    cases args with
    | nil => cases hlength
    | cons x xs =>
      have := HeaderParts.cons (t := keywordToken (k ++ [':'])) (u := nameToken x) rfl rfl
        (ih (Nat.succ.inj hlength))
      rwa [tokenStr_nameToken] at this

theorem header_tokens {args : List String} (hselector : SelectorFor selector args.length)
    (hrest : peekType rest ≠ .keyword) :
    Header (messageTokens selector (args.map fun x => [nameToken x]) ++ rest) selector args
      rest := by
  generalize hcount : args.length = count at hselector
  cases hselector with
  | @unary name h =>
    obtain rfl := eq_nil_of_length_eq_zero hcount
    rw [messageTokens_unary h]
    have := @Header.unary (nameToken (String.ofList name)) rest rfl
    rwa [tokenStr_nameToken] at this
  | @binary op h =>
    obtain ⟨x,rfl⟩ := length_eq_one_iff.mp hcount
    rw [messageTokens_binary h]
    have := @Header.binary _ (nameToken x) rest (operatorToken_isBinary (String.ofList op)) rfl
    rwa [tokenStr_operatorToken,tokenStr_nameToken] at this
  | @keyword keywords hne h =>
    rw [messageTokens_keyword hne h]
    refine .keyword ?_ (headerParts_tokens hcount hrest)
    obtain ⟨k,ks,rfl⟩ := exists_cons_of_ne_nil hne
    cases args with
    | nil => cases hcount
    | cons x xs => rfl

theorem body_not_keyword (temps : List String) (h : ∀ s ∈ body,PrintedStatement s) (e : Token)
    (he : e.type = .eof) :
    peekType (tempTokens temps ++ (printStatements body ++ [e])) ≠ .keyword := by
  unfold tempTokens
  split
  · cases body with
    | nil => simp [printStatements,peekType,he]
    | cons s body =>
      obtain ⟨t,ts,hprint,ht⟩ := (h s (by simp)).starts
      have htype : peekType ([] ++ (printStatements (s :: body) ++ [e])) = t.type := by
        cases body <;> simp [printStatements,hprint,peekType]
      rw [htype]
      exact fun heq => absurd (heq ▸ ht) (by decide)
  · simp [peekType,markToken]

theorem methodText_printed {args temps : List String} (hselector : SelectorFor selector args.length)
    (hbody : ∀ s ∈ body,PrintedStatement s) :
    MethodText (printMethod selector args temps body ++ [⟨.eof,[],1⟩])
      (.method selector args temps body) [⟨.eof,[],1⟩] := by
  have hstatements := derives_statements hbody false [⟨.eof,[],1⟩] rfl (Nat.le_refl 4) nofun
  obtain ⟨hbar,-⟩ := printStatements_starts hbody [⟨.eof,[],1⟩] nofun nofun
  have hheader := header_tokens hselector (body_not_keyword temps hbody ⟨.eof,[],1⟩ rfl)
  have := MethodText.mk hheader (temps_tokens temps hbar) hstatements
  simpa [printMethod] using this

end SmalltalkA
