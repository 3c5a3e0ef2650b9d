import SmalltalkA.Compiler.Parser

/-! Printing of trees as the tokens of a source, with parentheses where precedence asks for them,
and what the scanner makes of the text. -/

set_option autoImplicit false

namespace SmalltalkA

open List

/-! ## The trees -/

def isName (name : String) : Bool := isIdentifier name.toList && !isPseudoVariable name

/-- Expressions and, with the flag, statements of variables, sends, assignments, blocks, cascades
and returns. -/
inductive Source : Bool → Node → Prop
  | var {name : String} (hname : isName name = true) : Source false (.var name)
  | send {receiver : Node} {selector : String} {args : List Node}
      (hreceiver : Source false receiver) (hselector : SelectorFor selector args.length)
      (hname : isPseudoVariable selector = false) (hargs : ∀ a ∈ args,Source false a) :
      Source false (.send receiver selector args)
  | cascade {receiver : Node} {messages : List (String × List Node)}
      (hreceiver : Source false receiver) (hmessages : 2 ≤ messages.length)
      (hselectors : ∀ m ∈ messages,SelectorFor m.1 m.2.length ∧ isPseudoVariable m.1 = false ∧
        m.1 ≠ "|")
      (hargs : ∀ m ∈ messages,∀ a ∈ m.2,Source false a) :
      Source false (.cascade receiver messages)
  | assign {name : String} {value : Node} (hname : isName name = true)
      (hvalue : Source false value) : Source false (.assign name value)
  | block {args temps : List String} {body : List Node} (hargs : ∀ x ∈ args,isName x = true)
      (htemps : ∀ x ∈ temps,isName x = true) (hbody : ∀ s ∈ body,Source true s) :
      Source false (.block args temps body)
  | ret {expr : Node} (hexpr : Source false expr) : Source true (.ret expr)
  | expr {n : Node} (h : Source false n) : Source true n

/-! ## Printing -/

inductive MessageKind where
  | unary | binary | keyword
  deriving DecidableEq,Repr

def messageKind (selector : String) : MessageKind :=
  match selector.toList with
  | [] => .binary
  | c :: cs => if !isLetter c then .binary else if cs.contains ':' then .keyword else .unary

/-- What a tree is without parentheses: 0 a primary, 1 unary, 2 binary, 3 with keywords, 4 a
cascade, 5 an assignment. -/
def Node.level : Node → Nat
  | .send _ selector _ =>
    match messageKind selector with
    | .unary => 1
    | .binary => 2
    | .keyword => 3
  | .cascade _ _ => 4
  | .assign _ _ => 5
  | _ => 0

def receiverLevel (selector : String) : Nat := if messageKind selector = .unary then 1 else 2

def argLevel (selector : String) : Nat := if messageKind selector = .keyword then 2 else 1

def nameToken (name : String) : Token := ⟨.identifier,name.toList,1⟩

def keywordToken (part : List Char) : Token := ⟨.keyword,part,1⟩

def operatorToken (selector : String) : Token :=
  ⟨if selector = "|" then .vbar else .binarySelector,selector.toList,1⟩

def markToken : TokenType → Token
  | .assign => ⟨.assign,[':','='],1⟩
  | .ret => ⟨.ret,['^'],1⟩
  | .lparen => ⟨.lparen,['('],1⟩
  | .rparen => ⟨.rparen,[')'],1⟩
  | .lbracket => ⟨.lbracket,['['],1⟩
  | .rbracket => ⟨.rbracket,[']'],1⟩
  | .period => ⟨.period,['.'],1⟩
  | .semicolon => ⟨.semicolon,[';'],1⟩
  | .vbar => ⟨.vbar,['|'],1⟩
  | _ => ⟨.colon,[':'],1⟩

def splitKeywords : List Char → List (List Char)
  | [] => []
  | c :: cs =>
    if c = ':' then [':'] :: splitKeywords cs
    else
      match splitKeywords cs with
      | [] => [[c]]
      | part :: parts => (c :: part) :: parts

def messageTokens (selector : String) (args : List (List Token)) : List Token :=
  match messageKind selector with
  | .unary => [nameToken selector]
  | .binary => operatorToken selector :: args.flatten
  | .keyword =>
    (List.zipWith (fun part arg => keywordToken part :: arg) (splitKeywords selector.toList)
      args).flatten

def parenthesised (limit : Nat) (n : Node) (toks : List Token) : List Token :=
  if n.level ≤ limit then toks else markToken .lparen :: (toks ++ [markToken .rparen])

def argTokens (args : List String) : List Token :=
  if args = [] then []
  else args.flatMap (fun x => [markToken .colon,nameToken x]) ++ [markToken .vbar]

def tempTokens (temps : List String) : List Token :=
  if temps = [] then [] else markToken .vbar :: (temps.map nameToken ++ [markToken .vbar])

mutual

def Node.print : Node → List Token
  | .var name => [nameToken name]
  | .send receiver selector args =>
    parenthesised (receiverLevel selector) receiver receiver.print ++
      messageTokens selector (printArgs (argLevel selector) args)
  | .cascade receiver ((selector,args) :: messages) =>
    parenthesised (receiverLevel selector) receiver receiver.print ++
      messageTokens selector (printArgs (argLevel selector) args) ++ printMessages messages
  | .assign name value => nameToken name :: markToken .assign :: value.print
  | .ret expr => markToken .ret :: expr.print
  | .block args temps body =>
    markToken .lbracket :: (argTokens args ++ (tempTokens temps ++
      (printStatements body ++ [markToken .rbracket])))
  | _ => []

def printArgs (limit : Nat) : List Node → List (List Token)
  | [] => []
  | a :: as => parenthesised limit a a.print :: printArgs limit as

def printMessages : List (String × List Node) → List Token
  | [] => []
  | (selector,args) :: messages =>
    markToken .semicolon ::
      (messageTokens selector (printArgs (argLevel selector) args) ++ printMessages messages)

def printStatements : List Node → List Token
  | [] => []
  | [s] => s.print
  | s :: t :: rest => s.print ++ markToken .period :: printStatements (t :: rest)

end

def printMethod (selector : String) (args temps : List String) (body : List Node) : List Token :=
  messageTokens selector (args.map fun x => [nameToken x]) ++
    (tempTokens temps ++ printStatements body)

def spaced : List Token → List Char
  | [] => []
  | [t] => t.text
  | t :: u :: rest => t.text ++ ' ' :: spaced (u :: rest)

/-! ## Scanning what has been printed -/

def Delimited (rest : List Char) : Prop := rest = [] ∨ ∃ cs,rest = ' ' :: cs

/-- The scanner reads the token off its text. -/
structure Spelled (t : Token) : Prop where
  line : t.line = 1
  type : t.type ≠ .eof
  start : ∃ c cs,t.text = c :: cs ∧ isBlank c = false ∧ c ≠ '"'
  chars : ∀ c ∈ t.text,c ≠ '\n' ∧ c ≠ '\x00'
  scanned : ∀ rest,Delimited rest → scanLexeme (t.text ++ rest) = (t.type,t.text,rest)

variable {rest name : List Char} {c : Char} {t : Token} {ts : List Token}
  {keywords : List (List Char)}

theorem Delimited.dropWhile {p : Char → Bool} (hp : p ' ' = false) (h : Delimited rest) :
    rest.takeWhile p = [] ∧ rest.dropWhile p = rest := by
  rcases h with rfl | ⟨cs,rfl⟩
  · exact ⟨rfl,rfl⟩
  · simp [hp]

theorem Delimited.lexeme_append {p : Char → Bool} (hp : p ' ' = false) {text : List Char}
    (htext : ∀ c ∈ text,p c = true) (h : Delimited rest) :
    (text ++ rest).takeWhile p = text ∧ (text ++ rest).dropWhile p = rest := by
  obtain ⟨htake,hdrop⟩ := h.dropWhile hp
  rw [takeWhile_append_of_pos htext,dropWhile_append_of_pos htext,htake,hdrop]
  simp

theorem isIdentifier_chars (h : isIdentifier name = true) : ∀ c ∈ name,isWordChar c = true := by
  cases name with
  | nil => nofun
  | cons c cs =>
    simp only [isIdentifier,Bool.and_eq_true,List.all_eq_true] at h
    intro d hd
    rcases mem_cons.mp hd with rfl | hd
    · simp [isWordChar,h.1]
    · exact h.2 d hd

theorem isIdentifier_head (h : isIdentifier name = true) :
    ∃ c cs,name = c :: cs ∧ isLetter c = true := by
  cases name with
  | nil => cases h
  | cons c cs =>
    simp only [isIdentifier,Bool.and_eq_true] at h
    exact ⟨c,cs,rfl,h.1⟩

theorem isWordChar_plain (h : isWordChar c = true) :
    isBlank c = false ∧ c ≠ '"' ∧ c ≠ '\n' ∧ c ≠ '\x00' := by
  refine ⟨Bool.eq_false_iff.mpr fun hblank => ?_,?_,?_,?_⟩
  · simp only [isBlank,Bool.or_eq_true,beq_iff_eq] at hblank
    rcases hblank with ((rfl | rfl) | rfl) | rfl <;> exact absurd h (by decide)
  all_goals
    rintro rfl
    exact absurd h (by decide)

theorem spelled_name {name : String} (h : isIdentifier name.toList = true) :
    Spelled (nameToken name) := by
  obtain ⟨c,cs,hname,hc⟩ := isIdentifier_head h
  have hword := isIdentifier_chars h
  refine ⟨rfl,nofun,⟨c,cs,hname,?_⟩,fun d hd => ?_,fun rest hrest => ?_⟩
  · have := isWordChar_plain (hword c (by simp [hname]))
    exact ⟨this.1,this.2.1⟩
  · exact (isWordChar_plain (hword d hd)).2.2
  · obtain ⟨htake,hdrop⟩ := hrest.lexeme_append (p := isWordChar) (by decide) hword
    have hscan : scanLexeme (name.toList ++ rest) =
        scanIdentifierOrKeyword (name.toList ++ rest) := by
      simp [hname,scanLexeme,hc]
    rw [nameToken,hscan,scanIdentifierOrKeyword,htake,hdrop]
    rcases hrest with rfl | ⟨ds,rfl⟩ <;> rfl

theorem spelled_keyword {word : List Char} (h : isIdentifier word = true) :
    Spelled (keywordToken (word ++ [':'])) := by
  obtain ⟨c,cs,rfl,hc⟩ := isIdentifier_head h
  have hword := isIdentifier_chars h
  refine ⟨rfl,nofun,⟨c,cs ++ [':'],rfl,?_⟩,fun d hd => ?_,fun rest hrest => ?_⟩
  · have := isWordChar_plain (hword c (by simp))
    exact ⟨this.1,this.2.1⟩
  · rcases mem_append.mp hd with hd | hd
    · exact (isWordChar_plain (hword d hd)).2.2
    · rw [mem_singleton.mp hd]
      decide
  · have hscan : scanLexeme (c :: cs ++ [':'] ++ rest) =
        scanIdentifierOrKeyword (c :: cs ++ ':' :: rest) := by
      simp [scanLexeme,hc]
    have htake : (c :: cs ++ ':' :: rest).takeWhile isWordChar = c :: cs := by
      rw [takeWhile_append_of_pos hword]
      simp [show isWordChar ':' = false by decide]
    have hdrop : (c :: cs ++ ':' :: rest).dropWhile isWordChar = ':' :: rest := by
      rw [dropWhile_append_of_pos hword]
      simp [show isWordChar ':' = false by decide]
    rw [keywordToken,hscan,scanIdentifierOrKeyword,htake,hdrop]
    rcases hrest with rfl | ⟨ds,rfl⟩ <;> rfl

theorem scanLexeme_operator (h : isScannerBinaryChar c = true) {cs : List Char}
    (hcs : ∀ d ds,cs = d :: ds → isDigit d = false) :
    scanLexeme (c :: cs) = scanBinarySelector c cs := by
  simp only [isScannerBinaryChar,mem_cons,not_mem_nil,or_false,decide_eq_true_eq] at h
  rcases h with rfl | rfl | rfl | rfl | rfl | rfl | rfl | rfl | rfl | rfl | rfl | rfl | rfl |
    rfl | rfl
  case inr.inl =>
    cases cs with
    | nil => rfl
    | cons d ds => exact if_neg (by simp [hcs d ds rfl])
  all_goals rfl

theorem isScannerBinaryChar_plain (h : isScannerBinaryChar c = true) :
    (isBlank c = false ∧ c ≠ '"') ∧ (c ≠ '\n' ∧ c ≠ '\x00') ∧ c ≠ '|' ∧ isDigit c = false := by
  simp only [isScannerBinaryChar,mem_cons,not_mem_nil,or_false,decide_eq_true_eq] at h
  rcases h with rfl | rfl | rfl | rfl | rfl | rfl | rfl | rfl | rfl | rfl | rfl | rfl | rfl |
    rfl | rfl <;> decide

theorem spelled_operator {op : List Char} (h : isBinaryToken op = true) :
    Spelled (operatorToken (String.ofList op)) := by
  rcases op with _ | ⟨c,_ | ⟨d,_ | ⟨e,es⟩⟩⟩
  · cases h
  · simp only [isBinaryToken,Bool.or_eq_true,beq_iff_eq] at h
    rcases h with h | rfl
    · obtain ⟨hstart,hchars,hbar,-⟩ := isScannerBinaryChar_plain h
      have htype : String.ofList [c] ≠ "|" := fun he =>
        hbar (by simpa using congrArg String.toList he)
      have htoken : operatorToken (String.ofList [c]) = ⟨.binarySelector,[c],1⟩ := by
        rw [operatorToken,if_neg htype,String.toList_ofList]
      rw [htoken]
      refine ⟨rfl,by simp,⟨c,[],rfl,hstart⟩,by simpa using hchars,fun rest hrest => ?_⟩
      have hdigit : ∀ d ds,rest = d :: ds → isDigit d = false := by
        rcases hrest with rfl | ⟨ds,rfl⟩
        · rintro d ds he
          cases he
        · rintro d ds' he
          cases he
          decide
      refine (scanLexeme_operator h hdigit).trans ?_
      rcases hrest with rfl | ⟨ds,rfl⟩ <;> rfl
    · exact ⟨rfl,by decide,⟨'|',[],rfl,by decide⟩,by simp [operatorToken],fun rest _ => rfl⟩
  · simp only [isBinaryToken,Bool.and_eq_true] at h
    obtain ⟨hstart,hchars,hbar,-⟩ := isScannerBinaryChar_plain h.1
    obtain ⟨-,hchars',-,hdigit⟩ := isScannerBinaryChar_plain h.2
    have htype : String.ofList [c,d] ≠ "|" := fun he => by
      simpa using congrArg String.toList he
    have htoken : operatorToken (String.ofList [c,d]) = ⟨.binarySelector,[c,d],1⟩ := by
      rw [operatorToken,if_neg htype,String.toList_ofList]
    rw [htoken]
    refine ⟨rfl,by simp,⟨c,[d],rfl,hstart⟩,by simp [hchars,hchars'],fun rest _ => ?_⟩
    refine (scanLexeme_operator h.1 ?_).trans ?_
    · rintro e es he
      cases he
      exact hdigit
    · simp [scanBinarySelector,h.2]
  · cases h

theorem spelled_mark (type : TokenType) : Spelled (markToken type) := by
  cases type
  case assign => exact ⟨rfl,nofun,⟨_,_,rfl,by decide⟩,by simp [markToken],fun _ _ => rfl⟩
  case ret | lparen | rparen | lbracket | rbracket | period | semicolon | vbar =>
    exact ⟨rfl,nofun,⟨_,_,rfl,by decide⟩,by simp [markToken],fun _ _ => rfl⟩
  all_goals
    refine ⟨rfl,nofun,⟨_,_,rfl,by decide⟩,by simp [markToken],fun rest hrest => ?_⟩
    rcases hrest with rfl | ⟨cs,rfl⟩ <;> rfl

/-! ### Whole texts -/

theorem spaced_cons (t : Token) (ts : List Token) :
    ∃ lead,(lead = [] ∨ lead = [' ']) ∧ spaced (t :: ts) = t.text ++ (lead ++ spaced ts) ∧
      Delimited (lead ++ spaced ts) := by
  cases ts with
  | nil => exact ⟨[],.inl rfl,by simp [spaced],.inl rfl⟩
  | cons u us => exact ⟨[' '],.inr rfl,rfl,.inr ⟨_,rfl⟩⟩

theorem Spelled.no_newline (h : Spelled t) : t.text.count '\n' = 0 :=
  count_eq_zero.mpr fun hmem => (h.chars _ hmem).1 rfl

theorem staScannerNext_spelled (h : Spelled t) {lead : List Char} (hlead : lead = [] ∨ lead = [' '])
    (hrest : Delimited rest) :
    staScannerNext ⟨lead ++ (t.text ++ rest),1⟩ = (t,⟨rest,1⟩) := by
  obtain ⟨c,cs,htext,hblank,hquote⟩ := h.start
  have hskip : skipBlanks false (lead ++ (t.text ++ rest)) = t.text ++ rest := by
    have hsolid : skipBlanks false (t.text ++ rest) = t.text ++ rest := by
      simp [htext,skipBlanks,hblank,hquote]
    rcases hlead with rfl | rfl
    · exact hsolid
    · exact hsolid
  have hnewlines : lead.count '\n' = 0 := by rcases hlead with rfl | rfl <;> rfl
  have hline := h.line
  simp only [staScannerNext,hskip,h.scanned rest hrest,lineAfter,count_append,h.no_newline,
    hnewlines]
  cases t
  simp_all

theorem scanAll_spaced : ∀ {ts : List Token},(∀ t ∈ ts,Spelled t) → ∀ {fuel : Nat}
    {lead : List Char},lead = [] ∨ lead = [' '] → (lead ++ spaced ts).length < fuel →
    (scanAll fuel ⟨lead ++ spaced ts,1⟩).map Prod.fst = ts ++ [⟨.eof,[],1⟩] := by
  intro ts
  induction ts with
  | nil =>
    intro _ fuel lead hlead hfuel
    obtain ⟨fuel,rfl⟩ := Nat.exists_eq_succ_of_ne_zero (Nat.ne_zero_of_lt hfuel)
    rcases hlead with rfl | rfl <;> rfl
  | cons t ts ih =>
    intro h fuel lead hlead hfuel
    obtain ⟨fuel,rfl⟩ := Nat.exists_eq_succ_of_ne_zero (Nat.ne_zero_of_lt hfuel)
    obtain ⟨ht,hts⟩ := forall_mem_cons.mp h
    obtain ⟨lead',hlead',hspaced,hrest⟩ := spaced_cons t ts
    obtain ⟨c,cs,htext,-⟩ := ht.start
    have hlength : (lead' ++ spaced ts).length < fuel := by
      simp only [hspaced,htext,length_append,length_cons] at hfuel ⊢
      omega
    simp only [hspaced,scanAll,staScannerNext_spelled ht hlead hrest,if_neg ht.type,map_cons,
      ih hts hlead' hlength,cons_append]

theorem spaced_no_nul (h : ∀ t ∈ ts,Spelled t) : ∀ c ∈ spaced ts,c ≠ '\x00' := by
  induction ts with
  | nil => nofun
  | cons t ts ih =>
    obtain ⟨ht,hts⟩ := forall_mem_cons.mp h
    obtain ⟨lead,hlead,hspaced,-⟩ := spaced_cons t ts
    intro c hc
    rw [hspaced] at hc
    rcases mem_append.mp hc with hc | hc
    · exact (ht.chars c hc).2
    · rcases mem_append.mp hc with hc | hc
      · rcases hlead with rfl | rfl
        · cases hc
        · rw [mem_singleton.mp hc]
          decide
      · exact ih hts c hc

theorem tokens_spaced (h : ∀ t ∈ ts,Spelled t) : tokens (spaced ts) = ts ++ [⟨.eof,[],1⟩] := by
  have hinit : staScannerInit (spaced ts) = ⟨[] ++ spaced ts,1⟩ := by
    have hall : ∀ c ∈ spaced ts,(c != '\x00') = true := by simpa using spaced_no_nul h
    simp [staScannerInit,takeWhile_eq_self_iff.mpr hall]
  rw [tokens,scanSource,hinit]
  exact scanAll_spaced h (.inl rfl) (Nat.lt_succ_self _)

/-! ### Messages -/

theorem messageKind_unary (h : isIdentifier name = true) :
    messageKind (String.ofList name) = .unary := by
  obtain ⟨c,cs,rfl,hc⟩ := isIdentifier_head h
  have hcolon : ':' ∉ cs := by
    have := count_eq_zero.mp (isIdentifier_no_colon h)
    exact fun hmem => this (mem_cons_of_mem _ hmem)
  simp [messageKind,String.toList_ofList,hc,hcolon]

theorem messageKind_binary {op : List Char} (h : isBinaryToken op = true) :
    messageKind (String.ofList op) = .binary := by
  obtain ⟨c,cs,rfl,hc⟩ := isBinaryToken_head h
  have hletter : isLetter c = false :=
    Bool.eq_false_iff.mpr fun hl => absurd hc (by simp [isLetter_not_binary hl])
  simp [messageKind,String.toList_ofList,hletter]

theorem messageKind_keyword (hne : keywords ≠ []) (h : ∀ k ∈ keywords,isIdentifier k = true) :
    messageKind (String.ofList (keywords.flatMap fun k => k ++ [':'])) = .keyword := by
  obtain ⟨k,ks,rfl⟩ := exists_cons_of_ne_nil hne
  obtain ⟨c,cs,rfl,hc⟩ := isIdentifier_head (h k mem_cons_self)
  simp [messageKind,String.toList_ofList,hc]

theorem splitKeywords_cons {word : List Char} (h : ':' ∉ word) (cs : List Char) :
    splitKeywords (word ++ ':' :: cs) = (word ++ [':']) :: splitKeywords cs := by
  induction word with
  | nil => simp [splitKeywords]
  | cons c word ih =>
    simp only [mem_cons,not_or] at h
    simp [splitKeywords,ih h.2,Ne.symm h.1]

theorem splitKeywords_flatMap (h : ∀ k ∈ keywords,isIdentifier k = true) :
    splitKeywords (keywords.flatMap fun k => k ++ [':']) = keywords.map (· ++ [':']) := by
  induction keywords with
  | nil => rfl
  | cons k ks ih =>
    obtain ⟨hk,hks⟩ := forall_mem_cons.mp h
    have hcolon := count_eq_zero.mp (isIdentifier_no_colon hk)
    rw [flatMap_cons,append_assoc,singleton_append,splitKeywords_cons hcolon,ih hks,map_cons]

def partTokens : List (List Char) → List (List Token) → List Token
  | k :: ks,arg :: args => keywordToken (k ++ [':']) :: (arg ++ partTokens ks args)
  | _,_ => []

theorem messageTokens_unary (h : isIdentifier name = true) (args : List (List Token)) :
    messageTokens (String.ofList name) args = [nameToken (String.ofList name)] := by
  simp only [messageTokens,messageKind_unary h]

theorem messageTokens_binary {op : List Char} (h : isBinaryToken op = true)
    (args : List (List Token)) :
    messageTokens (String.ofList op) args = operatorToken (String.ofList op) :: args.flatten := by
  simp only [messageTokens,messageKind_binary h]

theorem messageTokens_keyword (hne : keywords ≠ []) (h : ∀ k ∈ keywords,isIdentifier k = true)
    (args : List (List Token)) :
    messageTokens (String.ofList (keywords.flatMap fun k => k ++ [':'])) args =
      partTokens keywords args := by
  simp only [messageTokens,messageKind_keyword hne h,String.toList_ofList,splitKeywords_flatMap h]
  clear hne h
  induction keywords generalizing args with
  | nil => simp [partTokens]
  | cons k ks ih =>
    cases args with
    | nil => rfl
    | cons arg args => simp [partTokens,ih]

/-! ### Printed tokens are spelled -/

def AllSpelled (ts : List Token) : Prop := ∀ t ∈ ts,Spelled t

@[simp] theorem allSpelled_nil : AllSpelled [] := nofun

@[simp] theorem allSpelled_cons :
    AllSpelled (t :: ts) ↔ Spelled t ∧ AllSpelled ts := forall_mem_cons

@[simp] theorem allSpelled_append {us : List Token} :
    AllSpelled (ts ++ us) ↔ AllSpelled ts ∧ AllSpelled us := forall_mem_append

theorem AllSpelled.parenthesised (h : AllSpelled ts) (limit : Nat) (n : Node) :
    AllSpelled (parenthesised limit n ts) := by
  unfold SmalltalkA.parenthesised
  split
  · exact h
  · simp [h,spelled_mark]

theorem isName_spelled {name : String} (h : isName name = true) : Spelled (nameToken name) := by
  simp only [isName,Bool.and_eq_true] at h
  exact spelled_name h.1

theorem partTokens_spelled {args : List (List Token)} (h : ∀ k ∈ keywords,isIdentifier k = true)
    (hargs : ∀ arg ∈ args,AllSpelled arg) :
    AllSpelled (partTokens keywords args) := by
  induction keywords generalizing args with
  | nil => simp [partTokens]
  | cons k ks ih =>
    cases args with
    | nil => simp [partTokens]
    | cons arg args =>
      obtain ⟨hk,hks⟩ := forall_mem_cons.mp h
      obtain ⟨harg,hargs⟩ := forall_mem_cons.mp hargs
      simp [partTokens,spelled_keyword hk,harg,ih hks hargs]

theorem messageTokens_spelled {selector : String} {count : Nat} {args : List (List Token)}
    (h : SelectorFor selector count) (hargs : ∀ arg ∈ args,AllSpelled arg) :
    AllSpelled (messageTokens selector args) := by
  cases h with
  | unary h => simp [messageTokens_unary h,spelled_name,h]
  | binary h =>
    have hflatten : AllSpelled args.flatten := by
      intro t ht
      obtain ⟨arg,harg,ht⟩ := mem_flatten.mp ht
      exact hargs arg harg t ht
    simp only [messageTokens_binary h,allSpelled_cons]
    exact ⟨spelled_operator h,hflatten⟩
  | keyword hne h =>
    rw [messageTokens_keyword hne h]
    exact partTokens_spelled h hargs

theorem printArgs_spelled {args : List Node} (limit : Nat) (h : ∀ a ∈ args,AllSpelled a.print) :
    ∀ arg ∈ printArgs limit args,AllSpelled arg := by
  induction args with
  | nil => simp [printArgs]
  | cons a as ih =>
    obtain ⟨ha,has⟩ := forall_mem_cons.mp h
    simp only [printArgs,forall_mem_cons]
    exact ⟨ha.parenthesised limit a,ih has⟩

theorem printMessages_spelled {messages : List (String × List Node)}
    (hselectors : ∀ m ∈ messages,SelectorFor m.1 m.2.length)
    (hargs : ∀ m ∈ messages,∀ a ∈ m.2,AllSpelled a.print) :
    AllSpelled (printMessages messages) := by
  induction messages with
  | nil => simp [printMessages]
  | cons m ms ih =>
    obtain ⟨hm,hms⟩ := forall_mem_cons.mp hselectors
    obtain ⟨ham,hams⟩ := forall_mem_cons.mp hargs
    simp only [printMessages,allSpelled_cons,allSpelled_append]
    exact ⟨spelled_mark _,messageTokens_spelled hm (printArgs_spelled _ ham),ih hms hams⟩

theorem printStatements_spelled {body : List Node} (h : ∀ s ∈ body,AllSpelled s.print) :
    AllSpelled (printStatements body) := by
  induction body with
  | nil => simp [printStatements]
  | cons s rest ih =>
    obtain ⟨hs,hrest⟩ := forall_mem_cons.mp h
    cases rest with
    | nil => simpa [printStatements] using hs
    | cons t rest =>
      simp only [printStatements,allSpelled_cons,allSpelled_append]
      exact ⟨hs,spelled_mark _,ih hrest⟩

theorem names_spelled {names : List String} (h : ∀ x ∈ names,isName x = true) :
    AllSpelled (names.map nameToken) := by
  intro t ht
  obtain ⟨x,hx,rfl⟩ := List.mem_map.mp ht
  exact isName_spelled (h x hx)

theorem tempTokens_spelled {temps : List String} (h : ∀ x ∈ temps,isName x = true) :
    AllSpelled (tempTokens temps) := by
  unfold tempTokens
  split
  · simp
  · simp [names_spelled h,spelled_mark]

theorem argTokens_spelled {args : List String} (h : ∀ x ∈ args,isName x = true) :
    AllSpelled (argTokens args) := by
  unfold argTokens
  split
  · simp
  · refine allSpelled_append.mpr ⟨fun t ht => ?_,by simp [spelled_mark]⟩
    obtain ⟨x,hx,ht⟩ := mem_flatMap.mp ht
    simp only [mem_cons,not_mem_nil,or_false] at ht
    rcases ht with rfl | rfl
    · exact spelled_mark _
    · exact isName_spelled (h x hx)

theorem Source.spelled {statement : Bool} {n : Node} (h : Source statement n) :
    AllSpelled n.print := by
  induction h with
  | var hname => simpa [Node.print] using isName_spelled hname
  | send _ hselector _ _ ihreceiver ihargs =>
    simp only [Node.print,allSpelled_append]
    exact ⟨ihreceiver.parenthesised _ _,
      messageTokens_spelled hselector (printArgs_spelled _ ihargs)⟩
  | @cascade receiver messages _ hcount hselectors _ ihreceiver ihargs =>
    cases messages with
    | nil => simp at hcount
    | cons m ms =>
      obtain ⟨hm,hms⟩ := forall_mem_cons.mp hselectors
      obtain ⟨ham,hams⟩ := forall_mem_cons.mp ihargs
      simp only [Node.print,allSpelled_append]
      exact ⟨⟨ihreceiver.parenthesised _ _,messageTokens_spelled hm.1 (printArgs_spelled _ ham)⟩,
        printMessages_spelled (fun m h => (hms m h).1) hams⟩
  | assign hname _ ih => simp [Node.print,isName_spelled hname,spelled_mark,ih]
  | block hargs htemps _ ih =>
    simp only [Node.print,allSpelled_cons,allSpelled_append]
    exact ⟨spelled_mark _,argTokens_spelled hargs,tempTokens_spelled htemps,
      printStatements_spelled ih,spelled_mark _,allSpelled_nil⟩
  | ret _ ih => simp [Node.print,spelled_mark,ih]
  | expr _ ih => exact ih

theorem printMethod_spelled {selector : String} {args temps : List String} {body : List Node}
    (hselector : SelectorFor selector args.length) (hargs : ∀ x ∈ args,isName x = true)
    (htemps : ∀ x ∈ temps,isName x = true) (hbody : ∀ s ∈ body,Source true s) :
    AllSpelled (printMethod selector args temps body) := by
  have hnames : ∀ arg ∈ args.map (fun x => [nameToken x]),AllSpelled arg := by
    intro arg harg
    obtain ⟨x,hx,rfl⟩ := List.mem_map.mp harg
    simpa using isName_spelled (hargs x hx)
  simp only [printMethod,allSpelled_append]
  exact ⟨messageTokens_spelled hselector hnames,tempTokens_spelled htemps,
    printStatements_spelled fun s hs => (hbody s hs).spelled⟩

end SmalltalkA
