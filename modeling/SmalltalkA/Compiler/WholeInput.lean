import SmalltalkA.Compiler.Grammar

/-! Which sources `sta_parse_method` reads to their end. The body loop leaves at the first token
that is no period, and the source's end inside a comment is an EOF like any other. -/

set_option autoImplicit false

namespace SmalltalkA

/-! ## The tokens a phrase takes -/

def TokenType.isWord (type : TokenType) : Bool := type != .error && type != .eof

/-- The phrase from `toks` to `rest` has taken such tokens only. -/
inductive Consumed : List Token → List Token → Prop
  | refl {toks : List Token} : Consumed toks toks
  | cons {t : Token} {toks rest : List Token} (ht : t.type.isWord = true)
      (h : Consumed toks rest) : Consumed (t :: toks) rest

variable {rest toks : List Token} {t : Token} {n : Node} {names : List String}

theorem Consumed.trans {mid : List Token} (h : Consumed toks mid) (h' : Consumed mid rest) :
    Consumed toks rest := by
  induction h with
  | refl => exact h'
  | cons ht _ ih => exact .cons ht (ih h')

theorem Consumed.ofType {type : TokenType} (ht : t.type = type) (hword : type.isWord = true)
    (h : Consumed toks rest) :
    Consumed (t :: toks) rest := .cons (ht ▸ hword) h

theorem Consumed.tail {type : TokenType} {t : Token} {toks rest : List Token}
    (h : Consumed toks (t :: rest)) (ht : t.type = type) (hword : type.isWord = true) :
    Consumed toks rest := h.trans (.ofType ht hword .refl)

theorem leafLiteral_isWord (ht : leafLiteral t = some n) : t.type.isWord = true := by
  cases htype : t.type <;> first | rfl | simp [leafLiteral,htype] at ht

theorem isUnary_isWord (ht : t.isUnary = true) : t.type.isWord = true := by
  cases htype : t.type <;> first | rfl | simp [Token.isUnary,htype] at ht

theorem isBinary_isWord (ht : t.isBinary = true) : t.type.isWord = true := by
  cases htype : t.type <;> first | rfl | simp [Token.isBinary,htype] at ht

theorem Names.consumed (h : Names toks names rest) : Consumed toks rest := by
  induction h with
  | nil => exact .refl
  | cons ht _ ih => exact .ofType ht rfl ih

theorem Temps.consumed (h : Temps toks names rest) : Consumed toks rest := by
  cases h with
  | none => exact .refl
  | some ht h hu => exact .ofType ht rfl (h.consumed.tail hu rfl)

theorem ArgNames.consumed (h : ArgNames toks names rest) : Consumed toks rest := by
  induction h with
  | nil => exact .refl
  | cons ht hu _ ih => exact .ofType ht rfl (.ofType hu rfl ih)

theorem BlockArgs.consumed (h : BlockArgs toks names rest) : Consumed toks rest := by
  cases h with
  | none => exact .refl
  | some _ h hu => exact h.consumed.tail hu rfl

theorem Derives.consumed {nt : Nonterminal} {p : Phrase} (h : Derives nt toks p rest) :
    Consumed toks rest := by
  induction h with
  | itemsClose ht | word ht | cascadeUnary ht => exact .ofType ht rfl .refl
  | itemsLeaf ht _ ih => exact Consumed.cons (leafLiteral_isWord ht) ih
  | itemsArray ht _ _ ihinner ih | itemsParen ht _ _ ihinner ih =>
    exact .ofType ht rfl (ihinner.trans ih)
  | itemsWord ht _ ih | itemsOperator ht _ ih | array ht _ ih | cascadeBinary ht _ ih
  | ret ht _ ih => exact .ofType ht rfl ih
  | leaf ht => exact Consumed.cons (leafLiteral_isWord ht) .refl
  | block ht hargs htemps _ hu ih =>
    exact .ofType ht rfl (hargs.consumed.trans (htemps.consumed.trans (ih.tail hu rfl)))
  | paren ht _ hu ih => exact .ofType ht rfl (ih.tail hu rfl)
  | unaryStop | binaryStop | partsStop | cascadeStop | bodyEnd => exact .refl
  | unarySend ht _ ih => exact Consumed.cons (isUnary_isWord ht) ih
  | unaryExpr _ _ ihleft ih => exact ihleft.trans ih
  | binarySend ht _ _ ihright ih => exact Consumed.cons (isBinary_isWord ht) (ihright.trans ih)
  | binaryExpr _ _ ihleft ih => exact ihleft.trans ih
  | part ht _ _ iharg ih => exact .ofType ht rfl (iharg.trans ih)
  | keywordNone _ _ ih | cascadeKeyword _ _ ih | cascadeNone _ _ ih | plain _ _ ih
  | value _ _ ih | last _ _ _ ih => exact ih
  | keywordSend _ _ _ ihreceiver ih => exact ihreceiver.trans ih
  | cascadeMore ht _ _ ihmessage ih => exact .ofType ht rfl (ihmessage.trans ih)
  | cascadeSends _ _ _ _ ihn ih => exact ihn.trans ih
  | assign ht hu _ ih => exact .ofType ht rfl (.ofType hu rfl ih)
  | more _ _ ht _ ihn ih => exact (ihn.tail ht rfl).trans ih

theorem HeaderParts.consumed {selector : List Char} {args : List String}
    (h : HeaderParts toks selector args rest) : Consumed toks rest := by
  induction h with
  | nil => exact .refl
  | cons ht hu _ ih => exact .ofType ht rfl (.ofType hu rfl ih)

theorem Header.consumed {selector : String} {args : List String}
    (h : Header toks selector args rest) : Consumed toks rest := by
  cases h with
  | keyword _ h => exact h.consumed
  | binary ht hu => exact Consumed.cons (isBinary_isWord ht) (.ofType hu rfl .refl)
  | unary ht => exact .ofType ht rfl .refl

theorem MethodText.consumed (h : MethodText toks n rest) : Consumed toks rest := by
  cases h with
  | mk hheader htemps hbody =>
    exact hheader.consumed.trans (htemps.consumed.trans hbody.consumed)

/-! ## Reading to the end -/

def endsInComment (source : List Char) : Bool :=
  (scanSource source).any (fun (t,s) => t.type == .eof && openComment false s.current)

/-- All tokens but the EOF have been taken; none is an error and no comment is open. -/
structure ReadToEnd (source : List Char) (rest : List Token) : Prop where
  stopped : rest.map Token.type = [.eof]
  correct : ∀ t ∈ tokens source,t.type ≠ .error
  closed : endsInComment source = false

/-- The text of a method and then something else: a token that can neither go on with the last
statement nor separate it from another one, or an unclosed comment. -/
def HasTail (source : List Char) : Prop :=
  ∃ n rest,MethodText (tokens source) n rest ∧
    (peekType rest ≠ .eof ∨ endsInComment source = true)

theorem Consumed.to_end (h : Consumed toks rest) :
    ∀ {init : List Token} {e : Token},toks = init ++ [e] → e.type = .eof →
      (∀ t ∈ init,t.type ≠ .eof) → peekType rest = .eof →
      rest = [e] ∧ ∀ t ∈ toks,t.type ≠ .error := by
  induction h with
  | refl =>
    intro init e htoks he hinit hrest
    subst htoks
    cases init with
    | nil => exact ⟨rfl,fun t ht => by rw [List.mem_singleton.mp ht,he]; decide⟩
    | cons t init => exact absurd hrest (hinit t (by simp))
  | @cons t toks rest ht _ ih =>
    intro init e htoks he hinit hrest
    cases init with
    | nil =>
      obtain ⟨rfl,-⟩ := List.cons.inj htoks
      rw [he] at ht
      cases ht
    | cons u init =>
      obtain ⟨rfl,htail⟩ := List.cons.inj htoks
      have hinit' : ∀ v ∈ init,v.type ≠ .eof := fun v hv => hinit v (List.mem_cons_of_mem _ hv)
      obtain ⟨hrest,hcorrect⟩ := ih htail he hinit' hrest
      refine ⟨hrest,List.forall_mem_cons.mpr ⟨fun herror => ?_,hcorrect⟩⟩
      rw [herror] at ht
      cases ht

theorem MethodText.readToEnd {source : List Char} (h : MethodText (tokens source) n rest)
    (hrest : peekType rest = .eof) (hclosed : endsInComment source = false) :
    ReadToEnd source rest := by
  obtain ⟨init,e,htoks,he,hinit⟩ := tokens_end source
  obtain ⟨rfl,hcorrect⟩ := h.consumed.to_end htoks he hinit hrest
  exact ⟨by simp [he],hcorrect,hclosed⟩

end SmalltalkA
