import SmalltalkA.Compiler.Parser

/-! The grammar of methods, as a relation between the tokens from some place on, what they say and
the tokens left, which do not continue the phrase. The parser accepts exactly these. -/

set_option autoImplicit false

namespace SmalltalkA

open List

def headIs (p : Token → Bool) (toks : List Token) : Bool := toks.head?.any p

def startsAssign : List Token → Bool
  | t :: u :: _ => t.type == .identifier && u.type == .assign
  | _ => false

def closesBody (inBlock : Bool) (toks : List Token) : Bool :=
  peekType toks == .eof || (inBlock && peekType toks == .rbracket)

inductive Names : List Token → List String → List Token → Prop
  | nil {toks : List Token} (h : peekType toks ≠ .identifier) : Names toks [] toks
  | cons {t : Token} {toks rest : List Token} {names : List String}
      (ht : t.type = .identifier) (h : Names toks names rest) :
      Names (t :: toks) (tokenStr t :: names) rest

inductive Temps : List Token → List String → List Token → Prop
  | none {toks : List Token} (h : peekType toks ≠ .vbar) : Temps toks [] toks
  | some {t u : Token} {toks rest : List Token} {names : List String} (ht : t.type = .vbar)
      (h : Names toks names (u :: rest)) (hu : u.type = .vbar) : Temps (t :: toks) names rest

inductive ArgNames : List Token → List String → List Token → Prop
  | nil {toks : List Token} (h : peekType toks ≠ .colon) : ArgNames toks [] toks
  | cons {t u : Token} {toks rest : List Token} {names : List String} (ht : t.type = .colon)
      (hu : u.type = .identifier) (h : ArgNames toks names rest) :
      ArgNames (t :: u :: toks) (tokenStr u :: names) rest

inductive BlockArgs : List Token → List String → List Token → Prop
  | none {toks : List Token} (h : peekType toks ≠ .colon) : BlockArgs toks [] toks
  | some {u : Token} {toks rest : List Token} {names : List String}
      (hcolon : peekType toks = .colon) (h : ArgNames toks names (u :: rest))
      (hu : u.type = .vbar) : BlockArgs toks names rest

/-- What phrases say. -/
inductive Phrase where
  | node (n : Node)
  | nodes (ns : List Node)
  | message (selector : List Char) (args : List Node)
  | messages (ms : List (String × List Node))

/-- The phrases of expressions; a tail is what follows its left side. -/
inductive Nonterminal where
  | items (nested : Bool)
  | primary
  | unaryTail (left : Node)
  | unary
  | binaryTail (left : Node)
  | binary
  | parts
  | keyword
  | furtherMessage
  | cascadeTail
  | cascade
  | expression
  | statement
  | statements (inBlock : Bool)

open Nonterminal Phrase in
inductive Derives : Nonterminal → List Token → Phrase → List Token → Prop
  | itemsClose {nested : Bool} {t : Token} {rest : List Token} (ht : t.type = .rparen) :
      Derives (items nested) (t :: rest) (nodes []) rest
  | itemsLeaf {nested : Bool} {t : Token} {toks rest : List Token} {n : Node} {ns : List Node}
      (ht : leafLiteral t = some n) (h : Derives (items nested) toks (nodes ns) rest) :
      Derives (items nested) (t :: toks) (nodes (n :: ns)) rest
  | itemsArray {nested : Bool} {t : Token} {toks mid rest : List Token} {inner ns : List Node}
      (ht : t.type = .hashParen) (hinner : Derives (items false) toks (nodes inner) mid)
      (h : Derives (items nested) mid (nodes ns) rest) :
      Derives (items nested) (t :: toks) (nodes (.literalArray inner :: ns)) rest
  | itemsWord {t : Token} {toks rest : List Token} {ns : List Node} (ht : t.type = .identifier)
      (h : Derives (items false) toks (nodes ns) rest) :
      Derives (items false) (t :: toks) (nodes (wordLiteral t :: ns)) rest
  | itemsParen {t : Token} {toks mid rest : List Token} {inner ns : List Node}
      (ht : t.type = .lparen) (hinner : Derives (items true) toks (nodes inner) mid)
      (h : Derives (items false) mid (nodes ns) rest) :
      Derives (items false) (t :: toks) (nodes (.literalArray inner :: ns)) rest
  | itemsOperator {t : Token} {toks rest : List Token} {ns : List Node}
      (ht : t.type = .binarySelector) (h : Derives (items false) toks (nodes ns) rest) :
      Derives (items false) (t :: toks) (nodes (.literalSymbol (tokenStr t) :: ns)) rest
  | word {t : Token} {rest : List Token} (ht : t.type = .identifier) :
      Derives primary (t :: rest) (node (wordNode t)) rest
  | leaf {t : Token} {rest : List Token} {n : Node} (ht : leafLiteral t = some n) :
      Derives primary (t :: rest) (node n) rest
  | array {t : Token} {toks rest : List Token} {ns : List Node} (ht : t.type = .hashParen)
      (h : Derives (items false) toks (nodes ns) rest) :
      Derives primary (t :: toks) (node (.literalArray ns)) rest
  | block {t u : Token} {toks mid mid' rest : List Token} {args temps : List String}
      {body : List Node} (ht : t.type = .lbracket) (hargs : BlockArgs toks args mid)
      (htemps : Temps mid temps mid')
      (h : Derives (statements true) mid' (nodes body) (u :: rest)) (hu : u.type = .rbracket) :
      Derives primary (t :: toks) (node (.block args temps body)) rest
  | paren {t u : Token} {toks rest : List Token} {n : Node} (ht : t.type = .lparen)
      (h : Derives expression toks (node n) (u :: rest)) (hu : u.type = .rparen) :
      Derives primary (t :: toks) (node n) rest
  | unaryStop {left : Node} {toks : List Token} (h : headIs Token.isUnary toks = false) :
      Derives (unaryTail left) toks (node left) toks
  | unarySend {left n : Node} {t : Token} {toks rest : List Token} (ht : t.isUnary = true)
      (h : Derives (unaryTail (mkSend left (tokenStr t) [])) toks (node n) rest) :
      Derives (unaryTail left) (t :: toks) (node n) rest
  | unaryExpr {left n : Node} {toks mid rest : List Token}
      (hleft : Derives primary toks (node left) mid)
      (h : Derives (unaryTail left) mid (node n) rest) : Derives unary toks (node n) rest
  | binaryStop {left : Node} {toks : List Token} (h : headIs Token.isBinary toks = false) :
      Derives (binaryTail left) toks (node left) toks
  | binarySend {left right n : Node} {t : Token} {toks mid rest : List Token}
      (ht : t.isBinary = true) (hright : Derives unary toks (node right) mid)
      (h : Derives (binaryTail (mkSend left (tokenStr t) [right])) mid (node n) rest) :
      Derives (binaryTail left) (t :: toks) (node n) rest
  | binaryExpr {left n : Node} {toks mid rest : List Token}
      (hleft : Derives unary toks (node left) mid)
      (h : Derives (binaryTail left) mid (node n) rest) : Derives binary toks (node n) rest
  | partsStop {toks : List Token} (h : peekType toks ≠ .keyword) :
      Derives parts toks (message [] []) toks
  | part {t : Token} {toks mid rest : List Token} {arg : Node} {selector : List Char}
      {args : List Node} (ht : t.type = .keyword) (harg : Derives binary toks (node arg) mid)
      (h : Derives parts mid (message selector args) rest) :
      Derives parts (t :: toks) (message (t.text ++ selector) (arg :: args)) rest
  | keywordNone {n : Node} {toks rest : List Token} (h : Derives binary toks (node n) rest)
      (hstop : peekType rest ≠ .keyword) : Derives keyword toks (node n) rest
  | keywordSend {receiver : Node} {toks mid rest : List Token} {selector : List Char}
      {args : List Node} (hreceiver : Derives binary toks (node receiver) mid)
      (hkeyword : peekType mid = .keyword) (h : Derives parts mid (message selector args) rest) :
      Derives keyword toks (node (mkSend receiver (String.ofList selector) args)) rest
  | cascadeUnary {t : Token} {rest : List Token} (ht : t.type = .identifier) :
      Derives furtherMessage (t :: rest) (message t.text []) rest
  | cascadeBinary {t : Token} {toks rest : List Token} {arg : Node}
      (ht : t.type = .binarySelector) (h : Derives unary toks (node arg) rest) :
      Derives furtherMessage (t :: toks) (message t.text [arg]) rest
  | cascadeKeyword {toks rest : List Token} {selector : List Char} {args : List Node}
      (hkeyword : peekType toks = .keyword) (h : Derives parts toks (message selector args) rest) :
      Derives furtherMessage toks (message selector args) rest
  | cascadeStop {toks : List Token} (h : peekType toks ≠ .semicolon) :
      Derives cascadeTail toks (messages []) toks
  | cascadeMore {t : Token} {toks mid rest : List Token} {selector : List Char}
      {args : List Node} {ms : List (String × List Node)} (ht : t.type = .semicolon)
      (hmessage : Derives furtherMessage toks (message selector args) mid)
      (h : Derives cascadeTail mid (messages ms) rest) :
      Derives cascadeTail (t :: toks) (messages ((String.ofList selector,args) :: ms)) rest
  | cascadeNone {n : Node} {toks rest : List Token} (h : Derives keyword toks (node n) rest)
      (hstop : peekType rest ≠ .semicolon) : Derives cascade toks (node n) rest
  | cascadeSends {n receiver : Node} {selector : String} {args : List Node}
      {toks mid rest : List Token} {ms : List (String × List Node)}
      (hn : Derives keyword toks (node n) mid)
      (hhead : n.cascadeHead = some (receiver,selector,args))
      (hsemicolon : peekType mid = .semicolon) (h : Derives cascadeTail mid (messages ms) rest) :
      Derives cascade toks (node (.cascade receiver ((selector,args) :: ms))) rest
  | assign {t u : Token} {toks rest : List Token} {n : Node} (ht : t.type = .identifier)
      (hu : u.type = .assign) (h : Derives expression toks (node n) rest) :
      Derives expression (t :: u :: toks) (node (.assign (tokenStr t) n)) rest
  | plain {toks rest : List Token} {n : Node} (hassign : startsAssign toks = false)
      (h : Derives cascade toks (node n) rest) : Derives expression toks (node n) rest
  | ret {t : Token} {toks rest : List Token} {n : Node} (ht : t.type = .ret)
      (h : Derives expression toks (node n) rest) :
      Derives statement (t :: toks) (node (.ret n)) rest
  | value {toks rest : List Token} {n : Node} (hret : peekType toks ≠ .ret)
      (h : Derives expression toks (node n) rest) : Derives statement toks (node n) rest
  | bodyEnd {inBlock : Bool} {toks : List Token} (h : closesBody inBlock toks = true) :
      Derives (statements inBlock) toks (nodes []) toks
  | last {inBlock : Bool} {toks rest : List Token} {n : Node}
      (hopen : closesBody inBlock toks = false) (h : Derives statement toks (node n) rest)
      (hstop : peekType rest ≠ .period) : Derives (statements inBlock) toks (nodes [n]) rest
  | more {inBlock : Bool} {t : Token} {toks mid rest : List Token} {n : Node} {ns : List Node}
      (hopen : closesBody inBlock toks = false) (hn : Derives statement toks (node n) (t :: mid))
      (ht : t.type = .period) (h : Derives (statements inBlock) mid (nodes ns) rest) :
      Derives (statements inBlock) toks (nodes (n :: ns)) rest

inductive HeaderParts : List Token → List Char → List String → List Token → Prop
  | nil {toks : List Token} (h : peekType toks ≠ .keyword) : HeaderParts toks [] [] toks
  | cons {t u : Token} {toks rest : List Token} {selector : List Char} {args : List String}
      (ht : t.type = .keyword) (hu : u.type = .identifier)
      (h : HeaderParts toks selector args rest) :
      HeaderParts (t :: u :: toks) (t.text ++ selector) (tokenStr u :: args) rest

inductive Header : List Token → String → List String → List Token → Prop
  | keyword {toks rest : List Token} {selector : List Char} {args : List String}
      (hkeyword : peekType toks = .keyword) (h : HeaderParts toks selector args rest) :
      Header toks (String.ofList selector) args rest
  | binary {t u : Token} {rest : List Token} (ht : t.isBinary = true)
      (hu : u.type = .identifier) : Header (t :: u :: rest) (tokenStr t) [tokenStr u] rest
  | unary {t : Token} {rest : List Token} (ht : t.type = .identifier) :
      Header (t :: rest) (tokenStr t) [] rest

/-- The tokens begin with a method, which the ones left do not go on with. -/
inductive MethodText : List Token → Node → List Token → Prop
  | mk {toks mid mid' rest : List Token} {selector : String} {args temps : List String}
      {body : List Node} (hheader : Header toks selector args mid) (htemps : Temps mid temps mid')
      (hbody : Derives (.statements false) mid' (.nodes body) rest) :
      MethodText toks (.method selector args temps body) rest

/-! ## The parser accepts phrases only -/

section

variable {ε α β : Type} {x : Except ε α} {f : α → Except ε β}

theorem of_bind_ok {b : β} (h : (x >>= f) = .ok b) : ∃ a,x = .ok a ∧ f a = .ok b := by
  cases x with
  | error e => cases h
  | ok a => exact ⟨a,rfl,h⟩

theorem ok_bind_eq {a : α} (h : x = .ok a) : (x >>= f) = f a := by
  rw [h]
  rfl

end

variable {rest toks : List Token} {t : Token} {type : TokenType} {names : List String} {fuel : Nat}
  {selector : String} {n : Node}

theorem consume_type {text : String} (h : t.type = type) :
    consume type text (t :: rest) = .ok (t,rest) := if_pos h

theorem of_consume_bind {β : Type} {text : String} {f : Token × List Token → Parsing β} {b : β}
    (h : (consume type text toks >>= f) = .ok b) :
    ∃ t rest,toks = t :: rest ∧ t.type = type ∧ f (t,rest) = .ok b := by
  obtain ⟨⟨t,rest⟩,ht,hf⟩ := of_bind_ok h
  cases toks with
  | nil => cases ht
  | cons u us =>
    by_cases hu : u.type = type
    · cases (consume_type hu).symm.trans ht
      exact ⟨t,rest,rfl,hu,hf⟩
    · rw [consume,if_neg hu] at ht
      cases ht

theorem takeNames_iff : takeNames toks = (names,rest) ↔ Names toks names rest := by
  constructor
  · intro h
    induction toks generalizing names with
    | nil =>
      cases h
      exact .nil (by simp [peekType])
    | cons t toks ih =>
      unfold takeNames at h
      split at h
      · next ht =>
        cases h
        exact .cons ht (ih rfl)
      · next ht =>
        cases h
        exact .nil ht
  · intro h
    induction h with
    | @nil toks h =>
      cases toks with
      | nil => rfl
      | cons t toks => exact if_neg h
    | cons ht _ ih => simp [takeNames,ht,ih]

theorem parseTemps_iff {text : String} {toks rest : List Token} {names : List String} :
    parseTemps text toks = .ok (names,rest) ↔ Temps toks names rest := by
  constructor
  · intro h
    cases toks with
    | nil =>
      cases h
      exact .none (by simp [peekType])
    | cons t toks =>
      simp only [parseTemps] at h
      split at h
      · next ht =>
        obtain ⟨u,rest',hrest,hu,h⟩ := of_consume_bind h
        cases h
        exact .some ht (takeNames_iff.mp (Prod.ext rfl hrest)) hu
      · next ht =>
        cases h
        exact .none ht
  · intro h
    cases h with
    | none h =>
      cases toks with
      | nil => rfl
      | cons t toks => exact if_neg h
    | some ht h hu =>
      simp only [parseTemps,ht,if_true,takeNames_iff.mpr h]
      exact ok_bind_eq (consume_type hu)

theorem takeBlockArgs_sound : ∀ {toks rest : List Token} {names : List String},
    takeBlockArgs fuel toks = .ok (names,rest) → ArgNames toks names rest := by
  induction fuel with
  | zero =>
    intro toks rest names h
    cases h
  | succ fuel ih =>
    intro toks rest names h
    cases toks with
    | nil =>
      cases h
      exact .nil (by simp [peekType])
    | cons t toks =>
      simp only [takeBlockArgs] at h
      split at h
      · next ht =>
        obtain ⟨u,mid,rfl,htype,h⟩ := of_consume_bind h
        obtain ⟨⟨ns,rest'⟩,hns,h⟩ := of_bind_ok h
        cases h
        exact .cons ht htype (ih hns)
      · next ht =>
        cases h
        exact .nil ht

theorem takeBlockArgs_complete (h : ArgNames toks names rest) :
    ∀ fuel,toks.length < fuel → takeBlockArgs fuel toks = .ok (names,rest) := by
  induction h with
  | @nil toks h =>
    intro fuel hfuel
    cases fuel with
    | zero => omega
    | succ fuel =>
      cases toks with
      | nil => rfl
      | cons t toks => exact if_neg h
  | cons ht hu _ ih =>
    intro fuel hfuel
    cases fuel with
    | zero => omega
    | succ fuel =>
      simp only [length_cons] at hfuel
      simp only [takeBlockArgs,ht,if_true]
      refine (ok_bind_eq (consume_type hu)).trans ?_
      exact ok_bind_eq (ih fuel (by omega))

theorem parseBlockArgs_sound (h : parseBlockArgs fuel toks = .ok (names,rest)) :
    BlockArgs toks names rest := by
  unfold parseBlockArgs at h
  split at h
  · next hcolon =>
    obtain ⟨⟨ns,mid⟩,hns,h⟩ := of_bind_ok h
    obtain ⟨u,rest',rfl,htype,h⟩ := of_consume_bind h
    cases h
    exact .some hcolon (takeBlockArgs_sound hns) htype
  · next hcolon =>
    cases h
    exact .none hcolon

theorem parseBlockArgs_complete (h : BlockArgs toks names rest) (hfuel : toks.length < fuel) :
    parseBlockArgs fuel toks = .ok (names,rest) := by
  unfold parseBlockArgs
  cases h with
  | none h => exact if_neg h
  | some hcolon h hu =>
    rw [if_pos hcolon]
    refine (ok_bind_eq (takeBlockArgs_complete h fuel hfuel)).trans ?_
    exact ok_bind_eq (consume_type hu)

theorem parseItems_sound : ∀ {nested : Bool} {toks rest : List Token} {ns : List Node},
      parseItems fuel nested toks = .ok (ns,rest) →
        Derives (.items nested) toks (.nodes ns) rest := by
  induction fuel with
  | zero =>
    intro nested toks rest ns h
    cases h
  | succ fuel ih =>
    intro nested toks rest ns h
    cases toks with
    | nil => cases h
    | cons t toks =>
      -- one element, then the others
      have hone : ∀ {n : Node} {toks : List Token} {r : List Node × List Token},
          (parseItems fuel nested toks >>= fun x => .ok (n :: x.1,x.2)) = .ok r →
          ∃ ns',r.1 = n :: ns' ∧ Derives (.items nested) toks (.nodes ns') r.2 := by
        intro n toks r h
        obtain ⟨⟨ns',rest'⟩,hns,h⟩ := of_bind_ok h
        cases h
        exact ⟨ns',rfl,ih hns⟩
      simp only [parseItems] at h
      split at h
      · next ht =>
        cases h
        exact .itemsClose ht
      · split at h
        · next n hn =>
          obtain ⟨ns',hns,hd⟩ := hone h
          cases hns
          exact .itemsLeaf hn hd
        · split at h
          · next ht =>
            obtain ⟨⟨inner,mid⟩,hinner,h⟩ := of_bind_ok h
            obtain ⟨ns',hns,hd⟩ := hone h
            cases hns
            exact .itemsArray ht (ih hinner) hd
          · split at h
            · cases h
            · next hnested =>
              simp only [Bool.not_eq_true] at hnested
              subst hnested
              split at h
              · next ht =>
                obtain ⟨ns',hns,hd⟩ := hone h
                cases hns
                exact .itemsWord ht hd
              · split at h
                · next ht =>
                  obtain ⟨⟨inner,mid⟩,hinner,h⟩ := of_bind_ok h
                  obtain ⟨ns',hns,hd⟩ := hone h
                  cases hns
                  exact .itemsParen ht (ih hinner) hd
                · split at h
                  · next ht =>
                    obtain ⟨ns',hns,hd⟩ := hone h
                    cases hns
                    exact .itemsOperator ht hd
                  · cases h

section Sound

def SoundFor (nt : Nonterminal) (f : Parse Node) : Prop :=
  ∀ toks n rest,f toks = .ok (n,rest) → Derives nt toks (.node n) rest

variable {fuel : Nat} {expr : Parse Node}

theorem parseStatement_sound (hexpr : SoundFor .expression expr) :
    SoundFor .statement (parseStatement expr) := by
  intro toks n rest h
  cases toks with
  | nil => exact .value (by simp [peekType]) (hexpr _ _ _ h)
  | cons t toks =>
    simp only [parseStatement] at h
    split at h
    · next ht =>
      obtain ⟨⟨n',rest'⟩,hn,h⟩ := of_bind_ok h
      cases h
      exact .ret ht (hexpr _ _ _ hn)
    · next ht => exact .value ht (hexpr _ _ _ h)

variable {toks rest : List Token} {rounds : Nat}

theorem closesBody_iff {inBlock : Bool} : closesBody inBlock toks = true ↔
      peekType toks = .eof ∨ inBlock = true ∧ peekType toks = .rbracket := by
  simp [closesBody]

theorem parseStatements_sound (hexpr : SoundFor .expression expr) {inBlock : Bool} :
    ∀ {toks rest : List Token} {ns : List Node},
      parseStatements expr inBlock rounds toks = .ok (ns,rest) →
        Derives (.statements inBlock) toks (.nodes ns) rest := by
  induction rounds with
  | zero =>
    intro toks rest ns h
    cases h
  | succ rounds ih =>
    intro toks rest ns h
    simp only [parseStatements] at h
    split at h
    · next hclose =>
      cases h
      exact .bodyEnd (closesBody_iff.mpr hclose)
    · next hopen =>
      have hopen' : closesBody inBlock toks = false :=
        Bool.eq_false_iff.mpr (fun h => hopen (closesBody_iff.mp h))
      obtain ⟨⟨n,mid⟩,hn,h⟩ := of_bind_ok h
      have hstmt := parseStatement_sound hexpr _ _ _ hn
      cases mid with
      | nil =>
        cases h
        exact .last hopen' hstmt (by simp [peekType])
      | cons t mid =>
        simp only at h
        split at h
        · next ht =>
          obtain ⟨⟨ns',rest'⟩,hns,h⟩ := of_bind_ok h
          cases h
          exact .more hopen' hstmt ht (ih hns)
        · next ht =>
          cases h
          exact .last hopen' hstmt ht

theorem parseBlock_sound (hexpr : SoundFor .expression expr) {t : Token} (ht : t.type = .lbracket)
    {n : Node} (h : parseBlock fuel expr toks = .ok (n,rest)) :
    Derives .primary (t :: toks) (.node n) rest := by
  obtain ⟨⟨args,mid⟩,hargs,h⟩ := of_bind_ok h
  obtain ⟨⟨temps,mid'⟩,htemps,h⟩ := of_bind_ok h
  obtain ⟨⟨body,mid''⟩,hbody,h⟩ := of_bind_ok h
  obtain ⟨u,rest',rfl,htype,h⟩ := of_consume_bind h
  cases h
  exact .block ht (parseBlockArgs_sound hargs) (parseTemps_iff.mp htemps)
    (parseStatements_sound hexpr hbody) htype

theorem parsePrimary_sound (hexpr : SoundFor .expression expr) :
    SoundFor .primary (parsePrimary fuel expr) := by
  intro toks n rest h
  cases toks with
  | nil => cases h
  | cons t toks =>
    simp only [parsePrimary] at h
    split at h
    · next ht =>
      cases h
      exact .word ht
    · split at h
      · next n' hn =>
        cases h
        exact .leaf hn
      · split at h
        · next ht =>
          obtain ⟨⟨ns,rest'⟩,hns,h⟩ := of_bind_ok h
          cases h
          exact .array ht (parseItems_sound hns)
        · split at h
          · next ht => exact parseBlock_sound hexpr ht h
          · split at h
            · next ht =>
              obtain ⟨⟨n',mid⟩,hn,h⟩ := of_bind_ok h
              obtain ⟨u,rest',rfl,htype,h⟩ := of_consume_bind h
              cases h
              exact .paren ht (hexpr _ _ _ hn) htype
            · cases h

theorem unarySends_iff {receiver n : Node} :
    unarySends receiver toks = (n,rest) ↔ Derives (.unaryTail receiver) toks (.node n) rest := by
  constructor
  · intro h
    induction toks generalizing receiver with
    | nil =>
      cases h
      exact .unaryStop rfl
    | cons t toks ih =>
      unfold unarySends at h
      split at h
      · next ht => exact .unarySend ht (ih h)
      · next ht =>
        cases h
        exact .unaryStop (by simpa [headIs] using ht)
  · intro h
    induction toks generalizing receiver with
    | nil =>
      cases h
      rfl
    | cons t toks ih =>
      cases h with
      | unaryStop h =>
        have ht : t.isUnary = false := by simpa [headIs] using h
        simp [unarySends,ht]
      | unarySend ht h =>
        simp only [unarySends,ht,if_true]
        exact ih h

theorem parseUnaryExpr_sound (hexpr : SoundFor .expression expr) :
    SoundFor .unary (parseUnaryExpr fuel expr) := by
  intro toks n rest h
  obtain ⟨⟨left,mid⟩,hleft,h⟩ := of_bind_ok h
  exact .unaryExpr (parsePrimary_sound hexpr _ _ _ hleft) (unarySends_iff.mp (Except.ok.inj h))

theorem binarySends_sound {unary : Parse Node} (hunary : SoundFor .unary unary) :
    ∀ {left : Node},SoundFor (.binaryTail left) (binarySends unary rounds left) := by
  induction rounds with
  | zero =>
    intro left toks n rest h
    cases h
  | succ rounds ih =>
    intro left toks n rest h
    cases toks with
    | nil =>
      cases h
      exact .binaryStop rfl
    | cons t toks =>
      simp only [binarySends] at h
      split at h
      · next ht =>
        obtain ⟨⟨right,mid⟩,hright,h⟩ := of_bind_ok h
        exact .binarySend ht (hunary _ _ _ hright) (ih _ _ _ h)
      · next ht =>
        cases h
        exact .binaryStop (by simpa [headIs] using ht)

theorem parseBinaryExpr_sound (hexpr : SoundFor .expression expr) :
    SoundFor .binary (parseBinaryExpr fuel expr) := by
  intro toks n rest h
  obtain ⟨⟨left,mid⟩,hleft,h⟩ := of_bind_ok h
  exact .binaryExpr (parseUnaryExpr_sound hexpr _ _ _ hleft)
    (binarySends_sound (parseUnaryExpr_sound hexpr) _ _ _ h)

theorem keywordParts_sound {binary : Parse Node} (hbinary : SoundFor .binary binary) :
    ∀ {toks rest : List Token} {selector : List Char} {args : List Node},
      keywordParts binary rounds toks = .ok ((selector,args),rest) →
        Derives .parts toks (.message selector args) rest := by
  induction rounds with
  | zero =>
    intro toks rest selector args h
    cases h
  | succ rounds ih =>
    intro toks rest selector args h
    cases toks with
    | nil =>
      cases h
      exact .partsStop (by simp [peekType])
    | cons t toks =>
      simp only [keywordParts] at h
      split at h
      · next ht =>
        obtain ⟨⟨arg,mid⟩,harg,h⟩ := of_bind_ok h
        obtain ⟨⟨⟨selector',args'⟩,rest'⟩,hparts,h⟩ := of_bind_ok h
        cases h
        exact .part ht (hbinary _ _ _ harg) (ih hparts)
      · next ht =>
        cases h
        exact .partsStop ht

section

variable (hexpr : SoundFor .expression expr)

include hexpr

theorem parseKeywordExpr_sound :
    SoundFor .keyword (parseKeywordExpr fuel expr) := by
  intro toks n rest h
  obtain ⟨⟨receiver,mid⟩,hreceiver,h⟩ := of_bind_ok h
  have hbinary := parseBinaryExpr_sound hexpr _ _ _ hreceiver
  simp only at h
  split at h
  · next hkeyword =>
    obtain ⟨⟨⟨selector,args⟩,rest'⟩,hparts,h⟩ := of_bind_ok h
    cases h
    exact .keywordSend hbinary hkeyword (keywordParts_sound (parseBinaryExpr_sound hexpr) hparts)
  · next hkeyword =>
    cases h
    exact .keywordNone hbinary hkeyword

theorem cascadeMessage_sound {m : String × List Node}
    (h : cascadeMessage fuel expr toks = .ok (m,rest)) :
    ∃ selector,m.1 = String.ofList selector ∧
      Derives .furtherMessage toks (.message selector m.2) rest := by
  cases toks with
  | nil => cases h
  | cons t toks =>
    simp only [cascadeMessage] at h
    split at h
    · next ht =>
      cases h
      exact ⟨t.text,rfl,.cascadeUnary ht⟩
    · split at h
      · next ht =>
        obtain ⟨⟨arg,rest'⟩,harg,h⟩ := of_bind_ok h
        cases h
        exact ⟨t.text,rfl,.cascadeBinary ht (parseUnaryExpr_sound hexpr _ _ _ harg)⟩
      · split at h
        · next ht =>
          obtain ⟨⟨⟨selector,args⟩,rest'⟩,hparts,h⟩ := of_bind_ok h
          cases h
          exact ⟨selector,rfl,
            .cascadeKeyword ht (keywordParts_sound (parseBinaryExpr_sound hexpr) hparts)⟩
        · cases h

theorem cascadeMessages_sound :
    ∀ {toks rest : List Token} {ms : List (String × List Node)},
      cascadeMessages fuel expr rounds toks = .ok (ms,rest) →
        Derives .cascadeTail toks (.messages ms) rest := by
  induction rounds with
  | zero =>
    intro toks rest ms h
    cases h
  | succ rounds ih =>
    intro toks rest ms h
    cases toks with
    | nil =>
      cases h
      exact .cascadeStop (by simp [peekType])
    | cons t toks =>
      simp only [cascadeMessages] at h
      split at h
      · next ht =>
        obtain ⟨⟨⟨name,args⟩,mid⟩,hm,h⟩ := of_bind_ok h
        obtain ⟨⟨ms',rest'⟩,hms,h⟩ := of_bind_ok h
        cases h
        obtain ⟨selector,hname,hd⟩ := cascadeMessage_sound hexpr hm
        obtain rfl : name = String.ofList selector := hname
        exact .cascadeMore ht hd (ih hms)
      · next ht =>
        cases h
        exact .cascadeStop ht

theorem parseCascadeOrExpr_sound :
    SoundFor .cascade (parseCascadeOrExpr fuel expr) := by
  intro toks n rest h
  obtain ⟨⟨n',mid⟩,hn,h⟩ := of_bind_ok h
  have hkeyword := parseKeywordExpr_sound hexpr _ _ _ hn
  simp only at h
  split at h
  · next hsemicolon =>
    split at h
    · next receiver selector args hhead =>
      obtain ⟨⟨ms,rest'⟩,hms,h⟩ := of_bind_ok h
      cases h
      exact .cascadeSends hkeyword hhead hsemicolon (cascadeMessages_sound hexpr hms)
    · cases h
  · next hsemicolon =>
    cases h
    exact .cascadeNone hkeyword hsemicolon

theorem expressionBody_sound :
    SoundFor .expression (expressionBody fuel expr) := by
  intro toks n rest h
  unfold expressionBody at h
  split at h
  · next t u toks' =>
    split at h
    · next hassign =>
      obtain ⟨⟨value,rest'⟩,hvalue,h⟩ := of_bind_ok h
      cases h
      exact .assign hassign.1 hassign.2 (hexpr _ _ _ hvalue)
    · next hassign =>
      refine .plain ?_ (parseCascadeOrExpr_sound hexpr _ _ _ h)
      rw [Bool.eq_false_iff]
      intro hstart
      simp only [startsAssign,Bool.and_eq_true,beq_iff_eq] at hstart
      exact hassign hstart
  · next hshort =>
    refine .plain ?_ (parseCascadeOrExpr_sound hexpr _ _ _ h)
    rcases toks with _ | ⟨t,_ | ⟨u,toks'⟩⟩
    · rfl
    · rfl
    · exact absurd rfl (hshort t u toks')

end

end Sound

theorem parseExpression_sound (fuel : Nat) : SoundFor .expression (parseExpression fuel) := by
  induction fuel with
  | zero =>
    intro toks n rest h
    cases h
  | succ fuel ih => exact expressionBody_sound ih

theorem headerParts_sound : ∀ {toks rest : List Token} {selector : List Char} {args : List String},
      headerParts fuel toks = .ok ((selector,args),rest) → HeaderParts toks selector args rest := by
  induction fuel with
  | zero =>
    intro toks rest selector args h
    cases h
  | succ fuel ih =>
    intro toks rest selector args h
    cases toks with
    | nil =>
      cases h
      exact .nil (by simp [peekType])
    | cons t toks =>
      simp only [headerParts] at h
      split at h
      · next ht =>
        obtain ⟨u,mid,rfl,htype,h⟩ := of_consume_bind h
        obtain ⟨⟨⟨selector',args'⟩,rest'⟩,hparts,h⟩ := of_bind_ok h
        cases h
        exact .cons ht htype (ih hparts)
      · next ht =>
        cases h
        exact .nil ht

theorem parseMethodHeader_sound {args : List String}
    (h : parseMethodHeader fuel toks = .ok ((selector,args),rest)) :
    Header toks selector args rest := by
  cases toks with
  | nil => cases h
  | cons t toks =>
    simp only [parseMethodHeader] at h
    split at h
    · next ht =>
      obtain ⟨⟨⟨selector',args'⟩,rest'⟩,hparts,h⟩ := of_bind_ok h
      cases h
      exact .keyword ht (headerParts_sound hparts)
    · split at h
      · next ht =>
        obtain ⟨u,mid,rfl,htype,h⟩ := of_consume_bind h
        cases h
        exact .binary ht htype
      · split at h
        · next ht =>
          cases h
          exact .unary ht
        · cases h

theorem parseMethod_sound (h : parseMethod fuel toks = .ok (n,rest)) : MethodText toks n rest := by
  obtain ⟨⟨⟨selector,args⟩,mid⟩,hheader,h⟩ := of_bind_ok h
  obtain ⟨⟨temps,mid'⟩,htemps,h⟩ := of_bind_ok h
  obtain ⟨⟨body,rest'⟩,hbody,h⟩ := of_bind_ok h
  cases h
  exact .mk (parseMethodHeader_sound hheader) (parseTemps_iff.mp htemps)
    (parseStatements_sound (parseExpression_sound fuel) hbody)

/-! ## The parser accepts every phrase -/

def Nonterminal.least : Nonterminal → Nat
  | .items _ | .primary | .unary | .binary | .keyword | .cascade | .expression | .statement => 1
  | _ => 0

theorem Names.length_le (h : Names toks names rest) : rest.length ≤ toks.length := by
  induction h with
  | nil => exact Nat.le_refl _
  | cons _ _ ih => exact Nat.le_succ_of_le ih

theorem Temps.length_le (h : Temps toks names rest) : rest.length ≤ toks.length := by
  cases h with
  | none => exact Nat.le_refl _
  | some _ h =>
    have := h.length_le
    simp only [length_cons] at this ⊢
    omega

theorem ArgNames.length_le (h : ArgNames toks names rest) : rest.length ≤ toks.length := by
  induction h with
  | nil => exact Nat.le_refl _
  | cons _ _ _ ih =>
    simp only [length_cons]
    omega

theorem BlockArgs.length_le (h : BlockArgs toks names rest) : rest.length ≤ toks.length := by
  cases h with
  | none => exact Nat.le_refl _
  | some _ h =>
    have := h.length_le
    simp only [length_cons] at this
    omega

theorem Derives.length_le {nt : Nonterminal} {ph : Phrase} (h : Derives nt toks ph rest) :
    rest.length + nt.least ≤ toks.length := by
  induction h with
  | block _ hargs htemps _ _ ih =>
    have h₁ := hargs.length_le
    have h₂ := htemps.length_le
    simp only [length_cons,Nonterminal.least] at ih ⊢
    omega
  | _ =>
    simp only [length_cons,Nonterminal.least] at *
    omega

theorem Derives.length_lt {nt : Nonterminal} {ph : Phrase} (h : Derives nt toks ph rest)
    (hnt : nt.least = 1) : rest.length < toks.length := by
  have := h.length_le
  omega

def Accepted : Nonterminal → List Token → Phrase → List Token → Prop
  | .items nested,toks,.nodes ns,rest =>
    ∀ k,toks.length < k → parseItems k nested toks = .ok (ns,rest)
  | .primary,toks,.node n,rest =>
    ∀ k,toks.length ≤ k → parsePrimary k (parseExpression k) toks = .ok (n,rest)
  | .unaryTail left,toks,.node n,rest => unarySends left toks = (n,rest)
  | .unary,toks,.node n,rest =>
    ∀ k,toks.length ≤ k → parseUnaryExpr k (parseExpression k) toks = .ok (n,rest)
  | .binaryTail left,toks,.node n,rest =>
    ∀ k r,toks.length ≤ k → toks.length < r →
      binarySends (parseUnaryExpr k (parseExpression k)) r left toks = .ok (n,rest)
  | .binary,toks,.node n,rest =>
    ∀ k,toks.length ≤ k → parseBinaryExpr k (parseExpression k) toks = .ok (n,rest)
  | .parts,toks,.message selector args,rest =>
    ∀ k r,toks.length ≤ k → toks.length < r →
      keywordParts (parseBinaryExpr k (parseExpression k)) r toks = .ok ((selector,args),rest)
  | .keyword,toks,.node n,rest =>
    ∀ k,toks.length ≤ k → parseKeywordExpr k (parseExpression k) toks = .ok (n,rest)
  | .furtherMessage,toks,.message selector args,rest =>
    ∀ k,toks.length < k → cascadeMessage k (parseExpression k) toks =
      .ok ((String.ofList selector,args),rest)
  | .cascadeTail,toks,.messages ms,rest =>
    ∀ k r,toks.length < k → toks.length < r →
      cascadeMessages k (parseExpression k) r toks = .ok (ms,rest)
  | .cascade,toks,.node n,rest =>
    ∀ k,toks.length ≤ k → parseCascadeOrExpr k (parseExpression k) toks = .ok (n,rest)
  | .expression,toks,.node n,rest =>
    ∀ k,toks.length < k → parseExpression k toks = .ok (n,rest)
  | .statement,toks,.node n,rest =>
    ∀ k,toks.length < k → parseStatement (parseExpression k) toks = .ok (n,rest)
  | .statements inBlock,toks,.nodes ns,rest =>
    ∀ k r,toks.length < k → toks.length < r →
      parseStatements (parseExpression k) inBlock r toks = .ok (ns,rest)
  | _,_,_,_ => True

theorem leafLiteral_eq_none (ht : t.type = type)
    (h : type ∈ [.identifier,.rparen,.hashParen,.lparen,.lbracket,.binarySelector]) :
    leafLiteral t = none := by
  unfold leafLiteral
  rw [ht]
  cases type <;> simp at h ⊢

theorem leafLiteral_type (h : leafLiteral t = some n) :
    t.type ≠ .identifier ∧ t.type ≠ .rparen := by
  refine ⟨fun ht => ?_,fun ht => ?_⟩ <;> simp [leafLiteral,ht] at h

theorem exists_cons_of_peekType (h : peekType toks = type) (hne : type ≠ .eof) :
    ∃ t rest,toks = t :: rest ∧ t.type = type := by
  cases toks with
  | nil => exact absurd h.symm hne
  | cons t rest => exact ⟨t,rest,rfl,h⟩

theorem Derives.accepted {nt : Nonterminal} {ph : Phrase} (h : Derives nt toks ph rest) :
    Accepted nt toks ph rest := by
  induction h with
  | itemsClose ht =>
    rintro (_ | k) hk
    · omega
    · exact if_pos ht
  | itemsLeaf ht _ ih =>
    rintro (_ | k) hk
    · omega
    · simp only [length_cons] at hk
      simp only [parseItems,(leafLiteral_type ht).2,if_false,ht]
      exact ok_bind_eq (ih k (by omega))
  | itemsArray ht hinner _ ihi ih =>
    rintro (_ | k) hk
    · omega
    · simp only [length_cons] at hk
      have hlen := hinner.length_lt rfl
      simp only [parseItems,ht,leafLiteral_eq_none ht (by decide),reduceCtorEq,if_false,if_true]
      refine (ok_bind_eq (ihi k (by omega))).trans ?_
      exact ok_bind_eq (ih k (by omega))
  | itemsWord ht _ ih | itemsOperator ht _ ih =>
    rintro (_ | k) hk
    · omega
    · simp only [length_cons] at hk
      simp only [parseItems,ht,leafLiteral_eq_none ht (by decide),reduceCtorEq,if_false,if_true,
        Bool.false_eq_true]
      exact ok_bind_eq (ih k (by omega))
  | itemsParen ht hinner _ ihi ih =>
    rintro (_ | k) hk
    · omega
    · simp only [length_cons] at hk
      have hlen := hinner.length_lt rfl
      simp only [parseItems,ht,leafLiteral_eq_none ht (by decide),reduceCtorEq,if_false,if_true,
        Bool.false_eq_true]
      refine (ok_bind_eq (ihi k (by omega))).trans ?_
      exact ok_bind_eq (ih k (by omega))
  | word ht | cascadeUnary ht =>
    intro k hk
    exact if_pos ht
  | leaf ht =>
    intro k hk
    simp [parsePrimary,(leafLiteral_type ht).1,ht]
  | array ht _ ih =>
    intro k hk
    simp only [length_cons] at hk
    simp only [parsePrimary,ht,leafLiteral_eq_none ht (by decide),reduceCtorEq,if_false,if_true]
    exact ok_bind_eq (ih k (by omega))
  | block ht hargs htemps _ hu ih =>
    intro k hk
    simp only [length_cons] at hk
    have h₁ := hargs.length_le
    have h₂ := htemps.length_le
    simp only [parsePrimary,ht,leafLiteral_eq_none ht (by decide),reduceCtorEq,if_false,if_true]
    refine (ok_bind_eq (parseBlockArgs_complete hargs (by omega))).trans ?_
    refine (ok_bind_eq (parseTemps_iff.mpr htemps)).trans ?_
    refine (ok_bind_eq (ih k k (by omega) (by omega))).trans ?_
    exact ok_bind_eq (consume_type hu)
  | paren ht _ hu ih =>
    intro k hk
    simp only [length_cons] at hk
    simp only [parsePrimary,ht,leafLiteral_eq_none ht (by decide),reduceCtorEq,if_false,if_true]
    refine (ok_bind_eq (ih k (by omega))).trans ?_
    exact ok_bind_eq (consume_type hu)
  | unaryStop h => exact unarySends_iff.mpr (.unaryStop h)
  | unarySend ht h => exact unarySends_iff.mpr (.unarySend ht h)
  | unaryExpr hleft h ihl ih =>
    intro k hk
    refine (ok_bind_eq (ihl k hk)).trans ?_
    exact congrArg Except.ok ih
  | @binaryStop left toks h =>
    rintro k (_ | r) hk hr
    · omega
    · cases toks with
      | nil => rfl
      | cons t toks =>
        have ht : t.isBinary = false := by simpa [headIs] using h
        simp [binarySends,ht]
  | binarySend ht hright _ ihr ih =>
    rintro k (_ | r) hk hr
    · omega
    · simp only [length_cons] at hk hr
      have hlen := hright.length_lt rfl
      simp only [binarySends,ht,if_true]
      refine (ok_bind_eq (ihr k (by omega))).trans ?_
      exact ih k r (by omega) (by omega)
  | binaryExpr hleft h ihl ih =>
    intro k hk
    have hlen := hleft.length_lt rfl
    refine (ok_bind_eq (ihl k hk)).trans ?_
    exact ih k k (by omega) (by omega)
  | @partsStop toks h | @cascadeStop toks h =>
    rintro k (_ | r) hk hr
    · omega
    · cases toks with
      | nil => rfl
      | cons t toks => exact if_neg h
  | part ht harg _ iha ih =>
    rintro k (_ | r) hk hr
    · omega
    · simp only [length_cons] at hk hr
      have hlen := harg.length_lt rfl
      simp only [keywordParts,ht,if_true]
      refine (ok_bind_eq (iha k (by omega))).trans ?_
      exact ok_bind_eq (ih k r (by omega) (by omega))
  | keywordNone _ hstop ih | cascadeNone _ hstop ih =>
    intro k hk
    refine (ok_bind_eq (ih k hk)).trans ?_
    exact if_neg hstop
  | keywordSend hreceiver hkeyword _ ihr ih =>
    intro k hk
    have hlen := hreceiver.length_lt rfl
    refine (ok_bind_eq (ihr k hk)).trans ?_
    simp only [hkeyword,if_true]
    exact ok_bind_eq (ih k k (by omega) (by omega))
  | cascadeBinary ht _ ih =>
    intro k hk
    simp only [length_cons] at hk
    simp only [cascadeMessage,ht,reduceCtorEq,if_false,if_true]
    exact ok_bind_eq (ih k (by omega))
  | cascadeKeyword hkeyword _ ih =>
    intro k hk
    obtain ⟨t,toks,rfl,ht⟩ := exists_cons_of_peekType hkeyword (by decide)
    simp only [cascadeMessage,ht,reduceCtorEq,if_false,if_true]
    exact ok_bind_eq (ih k k (by omega) hk)
  | cascadeMore ht hmessage _ ihm ih =>
    rintro k (_ | r) hk hr
    · omega
    · simp only [length_cons] at hk hr
      have hlen := hmessage.length_le
      simp only [cascadeMessages,ht,if_true]
      refine (ok_bind_eq (ihm k (by omega))).trans ?_
      exact ok_bind_eq (ih k r (by omega) (by omega))
  | cascadeSends hn hhead hsemicolon _ ihn ih =>
    intro k hk
    have hlen := hn.length_lt rfl
    refine (ok_bind_eq (ihn k hk)).trans ?_
    simp only [hsemicolon,if_true,hhead]
    exact ok_bind_eq (ih k k (by omega) (by omega))
  | assign ht hu _ ih =>
    rintro (_ | k) hk
    · omega
    · simp only [length_cons] at hk
      simp only [parseExpression,expressionBody,ht,hu,and_self,if_true]
      exact ok_bind_eq (ih k (by omega))
  | @plain toks rest n hassign _ ih =>
    rintro (_ | k) hk
    · omega
    · have hcascade := ih k (by omega)
      match toks,hassign with
      | [],_ => exact hcascade
      | [_],_ => exact hcascade
      | t :: u :: toks,hassign =>
        have hnot : ¬ (t.type = .identifier ∧ u.type = .assign) := by
          simpa [startsAssign] using hassign
        simp only [parseExpression,expressionBody,hnot,if_false]
        exact hcascade
  | ret ht _ ih =>
    intro k hk
    simp only [length_cons] at hk
    simp only [parseStatement,ht,if_true]
    exact ok_bind_eq (ih k (by omega))
  | @value toks rest n hret _ ih =>
    intro k hk
    cases toks with
    | nil => exact ih k hk
    | cons t toks =>
      have ht : ¬ t.type = .ret := hret
      simp only [parseStatement,ht,if_false]
      exact ih k hk
  | bodyEnd h =>
    rintro k (_ | r) hk hr
    · omega
    · exact if_pos (closesBody_iff.mp h)
  | @last inBlock toks rest n hopen _ hstop ih =>
    rintro k (_ | r) hk hr
    · omega
    · simp only [parseStatements]
      rw [if_neg (fun hc => Bool.false_ne_true (hopen.symm.trans (closesBody_iff.mpr hc)))]
      refine (ok_bind_eq (ih k hk)).trans ?_
      cases rest with
      | nil => rfl
      | cons t rest => exact if_neg hstop
  | more hopen hn ht _ ihn ih =>
    rintro k (_ | r) hk hr
    · omega
    · have hlen := hn.length_lt rfl
      simp only [length_cons] at hlen
      simp only [parseStatements]
      rw [if_neg (fun hc => Bool.false_ne_true (hopen.symm.trans (closesBody_iff.mpr hc)))]
      refine (ok_bind_eq (ihn k hk)).trans ?_
      simp only [ht,if_true]
      exact ok_bind_eq (ih k r (by omega) (by omega))

theorem headerParts_complete {selector : List Char} {args : List String}
    (h : HeaderParts toks selector args rest) :
    ∀ k,toks.length < k → headerParts k toks = .ok ((selector,args),rest) := by
  induction h with
  | @nil toks h =>
    rintro (_ | k) hk
    · omega
    · cases toks with
      | nil => rfl
      | cons t toks => exact if_neg h
  | cons ht hu _ ih =>
    rintro (_ | k) hk
    · omega
    · simp only [length_cons] at hk
      simp only [headerParts,ht,if_true]
      refine (ok_bind_eq (consume_type hu)).trans ?_
      exact ok_bind_eq (ih k (by omega))

theorem HeaderParts.length_le {selector : List Char} {args : List String}
    (h : HeaderParts toks selector args rest) : rest.length ≤ toks.length := by
  induction h with
  | nil => exact Nat.le_refl _
  | cons _ _ _ ih =>
    simp only [length_cons]
    omega

theorem Header.length_le {args : List String} (h : Header toks selector args rest) :
    rest.length ≤ toks.length := by
  cases h with
  | keyword _ h => exact h.length_le
  | binary =>
    simp only [length_cons]
    omega
  | unary => exact Nat.le_succ _

theorem Token.isBinary_iff : t.isBinary = true ↔ t.type = .binarySelector ∨ t.type = .vbar := by
  simp [Token.isBinary]

theorem parseMethodHeader_complete {args : List String} (h : Header toks selector args rest)
    {k : Nat} (hk : toks.length < k) :
    parseMethodHeader k toks = .ok ((selector,args),rest) := by
  cases h with
  | keyword hkeyword h =>
    obtain ⟨t,toks,rfl,ht⟩ := exists_cons_of_peekType hkeyword (by decide)
    simp only [parseMethodHeader,ht,if_true]
    exact ok_bind_eq (headerParts_complete h k hk)
  | @binary t u rest ht hu =>
    have hkeyword : ¬ t.type = .keyword := by
      rcases Token.isBinary_iff.mp ht with h | h <;> simp [h]
    simp only [parseMethodHeader,hkeyword,if_false,ht,if_true]
    exact ok_bind_eq (consume_type hu)
  | @unary t rest ht =>
    have hbinary : t.isBinary = false := by simp [Token.isBinary,ht]
    simp [parseMethodHeader,ht,hbinary]

theorem parseMethod_complete (h : MethodText toks n rest) {k : Nat} (hk : toks.length < k) :
    parseMethod k toks = .ok (n,rest) := by
  cases h with
  | mk hheader htemps hbody =>
    have h₁ := hheader.length_le
    have h₂ := htemps.length_le
    refine (ok_bind_eq (parseMethodHeader_complete hheader hk)).trans ?_
    refine (ok_bind_eq (parseTemps_iff.mpr htemps)).trans ?_
    exact ok_bind_eq (hbody.accepted k k (by omega) (by omega))

theorem staParseMethod_iff {source : List Char} :
    staParseMethod source = .ok (n,rest) ↔ MethodText (tokens source) n rest :=
  ⟨parseMethod_sound,fun h => parseMethod_complete h (Nat.lt_succ_self _)⟩

end SmalltalkA
