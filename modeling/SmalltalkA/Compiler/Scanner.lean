import SmalltalkA.Selector

/-! The scanner (`scanner.c`). A source is the list of its bytes up to the NUL, each as the
character of that code. -/

set_option autoImplicit false

namespace SmalltalkA

open List

inductive TokenType where
  | identifier | keyword | integer | float | string | symbolLiteral | charLiteral | hashParen
  | binarySelector | assign | ret | lparen | rparen | lbracket | rbracket | period | semicolon
  | colon | vbar | bang | eof | error
  deriving DecidableEq,Repr

/-- `STA_Token`; the text of an error token is its message. -/
structure Token where
  type : TokenType
  text : List Char
  line : Nat
  deriving DecidableEq,Repr

def isWordChar (c : Char) : Bool := isLetter c || isDigit c

def isBlank (c : Char) : Bool := c == ' ' || c == '\t' || c == '\r' || c == '\n'

/-- `skip_whitespace_and_comments`; the flag says that a comment is open. -/
def skipBlanks : Bool → List Char → List Char
  | _,[] => []
  | false,c :: cs =>
    if isBlank c then skipBlanks false cs
    else if c = '"' then skipBlanks true cs
    else c :: cs
  | true,c :: cs => skipBlanks (c != '"') cs

def openComment : Bool → List Char → Bool
  | inside,[] => inside
  | false,c :: cs =>
    if isBlank c then openComment false cs
    else if c = '"' then openComment true cs
    else false
  | true,c :: cs => openComment (c != '"') cs

/-- What a scanning function returns: token type, text, and the characters after it. -/
abbrev Lexeme := TokenType × List Char × List Char

def errorLexeme (message : String) (rest : List Char) : Lexeme := (.error,message.toList,rest)

/-- `scan_identifier_or_keyword`. -/
def scanIdentifierOrKeyword (cs : List Char) : Lexeme :=
  let word := cs.takeWhile isWordChar
  match cs.dropWhile isWordChar with
  | [':'] => (.keyword,word ++ [':'],[])
  | ':' :: c :: rest =>
    if c = '=' then (.identifier,word,':' :: c :: rest)
    else (.keyword,word ++ [':'],c :: rest)
  | rest => (.identifier,word,rest)

/-- `scan_number`; `sign` is the minus that has been consumed, if any. -/
def scanNumber (sign cs : List Char) : Lexeme :=
  let digits := cs.takeWhile isDigit
  match cs.dropWhile isDigit with
  | '.' :: c :: rest =>
    if isDigit c then
      (.float,sign ++ digits ++ '.' :: (c :: rest).takeWhile isDigit,
        (c :: rest).dropWhile isDigit)
    else (.integer,sign ++ digits,'.' :: c :: rest)
  | rest => (.integer,sign ++ digits,rest)

/-- The characters after an opening quote up to the closing one, with the pairs of quotes between.
-/
def scanQuoted : List Char → Option (List Char × List Char)
  | [] => none
  | '\'' :: '\'' :: cs => (scanQuoted cs).map (fun (text,rest) => ('\'' :: '\'' :: text,rest))
  | '\'' :: cs => some (['\''],cs)
  | c :: cs => (scanQuoted cs).map (fun (text,rest) => (c :: text,rest))

/-- `scan_string`, after the opening quote. -/
def scanString (cs : List Char) : Lexeme :=
  match scanQuoted cs with
  | some (text,rest) => (.string,'\'' :: text,rest)
  | none => errorLexeme "unterminated string" []

def isSymbolChar (c : Char) : Bool := isWordChar c || c == ':'

/-- `scan_symbol_after_hash`. -/
def scanSymbolAfterHash : List Char → Lexeme
  | '(' :: cs => (.hashParen,['#','('],cs)
  | '\'' :: cs =>
    match scanQuoted cs with
    | some (text,rest) => (.symbolLiteral,'#' :: '\'' :: text,rest)
    | none => errorLexeme "unterminated symbol string" []
  | [] => errorLexeme "invalid symbol literal" []
  | c :: cs =>
    if isLetter c then
      (.symbolLiteral,'#' :: (c :: cs).takeWhile isSymbolChar,(c :: cs).dropWhile isSymbolChar)
    else if isScannerBinaryChar c then
      match cs with
      | d :: rest =>
        if isScannerBinaryChar d then (.symbolLiteral,['#',c,d],rest)
        else (.symbolLiteral,['#',c],d :: rest)
      | [] => (.symbolLiteral,['#',c],[])
    else errorLexeme "invalid symbol literal" (c :: cs)

/-- `scan_binary_selector`: one or two characters. -/
def scanBinarySelector (c : Char) : List Char → Lexeme
  | d :: rest =>
    if isScannerBinaryChar d then (.binarySelector,[c,d],rest) else (.binarySelector,[c],d :: rest)
  | [] => (.binarySelector,[c],[])

def singleToken (c : Char) : Option TokenType :=
  match c with
  | '^' => some .ret
  | '(' => some .lparen
  | ')' => some .rparen
  | '[' => some .lbracket
  | ']' => some .rbracket
  | '.' => some .period
  | ';' => some .semicolon
  | '|' => some .vbar
  | _ => none

/-- `scan_token` after the blanks. -/
def scanLexeme : List Char → Lexeme
  | [] => (.eof,[],[])
  | c :: cs =>
    if isLetter c then scanIdentifierOrKeyword (c :: cs)
    else if isDigit c then scanNumber [] (c :: cs)
    else if c = '-' then
      match cs with
      | d :: _ => if isDigit d then scanNumber ['-'] cs else scanBinarySelector c cs
      | [] => scanBinarySelector c cs
    else if c = '\'' then scanString cs
    else if c = '$' then
      match cs with
      | [] => errorLexeme "unterminated character literal" []
      | d :: rest => (.charLiteral,['$',d],rest)
    else if c = '#' then scanSymbolAfterHash cs
    else if c = ':' then
      match cs with
      | '=' :: rest => (.assign,[':','='],rest)
      | _ => (.colon,[':'],cs)
    else
      match singleToken c with
      | some type => (type,[c],cs)
      | none =>
        if isScannerBinaryChar c then scanBinarySelector c cs
        else errorLexeme "unexpected character" cs

/-- `STA_Scanner`. -/
structure Scanner where
  current : List Char
  line : Nat
  deriving DecidableEq,Repr

/-- The line after the characters from `cs` on up to `rest`. -/
def lineAfter (line : Nat) (cs rest : List Char) : Nat := line + (cs.count '\n' - rest.count '\n')

/-- `sta_scanner_next`. -/
def staScannerNext (s : Scanner) : Token × Scanner :=
  let start := skipBlanks false s.current
  let line := lineAfter s.line s.current start
  let (type,text,rest) := scanLexeme start
  (⟨type,text,line⟩,⟨rest,lineAfter line start rest⟩)

def staScannerInit (source : List Char) : Scanner := ⟨source.takeWhile (· != '\x00'),1⟩

def scanAll : Nat → Scanner → List (Token × Scanner)
  | 0,_ => []
  | fuel + 1,s =>
    let (t,s') := staScannerNext s
    if t.type = .eof then [(t,s)] else (t,s) :: scanAll fuel s'

def scanSource (source : List Char) : List (Token × Scanner) :=
  scanAll (source.length + 1) (staScannerInit source)

def tokens (source : List Char) : List Token := (scanSource source).map Prod.fst

/-! ### The tokens end with the end of the source -/

theorem skipBlanks_length (inside : Bool) (cs : List Char) :
    (skipBlanks inside cs).length ≤ cs.length := by
  fun_induction skipBlanks inside cs with
  | case1 => exact Nat.le_refl _
  | case2 c cs hblank ih | case3 cs hblank ih | case5 c cs ih => exact Nat.le_succ_of_le ih
  | case4 c cs hblank hquote => exact Nat.le_refl _

theorem scanQuoted_length {cs text rest : List Char} (h : scanQuoted cs = some (text,rest)) :
    rest.length < cs.length := by
  fun_induction scanQuoted cs generalizing text with
  | case1 => cases h
  | case2 cs ih =>
    obtain ⟨⟨text',rest'⟩,hr,he⟩ := Option.map_eq_some_iff.mp h
    cases he
    have := ih hr
    simp only [length_cons]
    omega
  | case3 cs hne =>
    cases h
    exact Nat.lt_succ_self _
  | case4 c cs hne hne' ih =>
    obtain ⟨⟨text',rest'⟩,hr,he⟩ := Option.map_eq_some_iff.mp h
    cases he
    exact Nat.lt_succ_of_lt (ih hr)

theorem dropWhile_length_le {p : Char → Bool} (cs : List Char) :
    (cs.dropWhile p).length ≤ cs.length :=
  (dropWhile_suffix p).length_le

theorem dropWhile_cons_length {p : Char → Bool} {c : Char} (h : p c = true) (cs : List Char) :
    ((c :: cs).dropWhile p).length < (c :: cs).length := by
  rw [dropWhile_cons_of_pos h]
  exact Nat.lt_succ_of_le (dropWhile_length_le cs)

theorem scanIdentifierOrKeyword_length (cs : List Char) :
    (scanIdentifierOrKeyword cs).2.2.length ≤ (cs.dropWhile isWordChar).length := by
  unfold scanIdentifierOrKeyword
  split <;> rename_i h <;> simp only [h] <;> try split
  all_goals simp

theorem scanNumber_length (sign cs : List Char) :
    (scanNumber sign cs).2.2.length ≤ (cs.dropWhile isDigit).length := by
  unfold scanNumber
  split
  · rename_i c rest h
    simp only [h]
    split
    · have := dropWhile_length_le (p := isDigit) (c :: rest)
      simp only [length_cons] at this ⊢
      omega
    · exact Nat.le_refl _
  · rename_i h
    exact Nat.le_refl _

theorem scanBinarySelector_length (c : Char) (cs : List Char) :
    (scanBinarySelector c cs).2.2.length ≤ cs.length := by
  unfold scanBinarySelector
  split
  · split
    · exact Nat.le_succ _
    · exact Nat.le_refl _
  · exact Nat.le_refl _

theorem scanSymbolAfterHash_length (cs : List Char) :
    (scanSymbolAfterHash cs).2.2.length ≤ cs.length := by
  unfold scanSymbolAfterHash
  split
  · exact Nat.le_succ _
  · split
    · next h =>
      have := scanQuoted_length h
      simp only [length_cons]
      omega
    · exact Nat.zero_le _
  · exact Nat.le_refl _
  · split
    · exact dropWhile_length_le _
    · split
      · split
        · split
          · simp only [length_cons]
            omega
          · exact Nat.le_succ _
        · exact Nat.le_succ _
      · exact Nat.le_refl _

theorem scanString_length (cs : List Char) : (scanString cs).2.2.length ≤ cs.length := by
  unfold scanString
  split
  · next h => exact Nat.le_of_lt (scanQuoted_length h)
  · exact Nat.zero_le _

theorem scanLexeme_length (c : Char) (cs : List Char) :
    (scanLexeme (c :: cs)).2.2.length < (c :: cs).length := by
  simp only [scanLexeme]
  split
  · next hc =>
    have hword : isWordChar c = true := by simp [isWordChar,hc]
    exact Nat.lt_of_le_of_lt (scanIdentifierOrKeyword_length _) (dropWhile_cons_length hword cs)
  · split
    · next hc => exact Nat.lt_of_le_of_lt (scanNumber_length _ _) (dropWhile_cons_length hc cs)
    · split
      · split
        · split
          · exact Nat.lt_succ_of_le (Nat.le_trans (scanNumber_length _ _) (dropWhile_length_le _))
          · exact Nat.lt_succ_of_le (scanBinarySelector_length _ _)
        · exact Nat.lt_succ_of_le (scanBinarySelector_length _ _)
      · split
        · exact Nat.lt_succ_of_le (scanString_length cs)
        · split
          · split
            · exact Nat.zero_lt_succ _
            · exact Nat.lt_succ_of_lt (Nat.lt_succ_self _)
          · split
            · exact Nat.lt_succ_of_le (scanSymbolAfterHash_length cs)
            · split
              · split
                · exact Nat.lt_succ_of_lt (Nat.lt_succ_self _)
                · exact Nat.lt_succ_self _
              · split
                · exact Nat.lt_succ_self _
                · split
                  · exact Nat.lt_succ_of_le (scanBinarySelector_length _ _)
                  · exact Nat.lt_succ_self _

theorem staScannerNext_length {s : Scanner} (h : (staScannerNext s).1.type ≠ .eof) :
    (staScannerNext s).2.current.length < s.current.length := by
  have hskip := skipBlanks_length false s.current
  simp only [staScannerNext] at h ⊢
  cases hstart : skipBlanks false s.current with
  | nil => exact absurd (by simp [hstart,scanLexeme]) h
  | cons c cs =>
    rw [hstart] at hskip
    exact Nat.lt_of_lt_of_le (scanLexeme_length c cs) hskip

theorem scanAll_ends {fuel : Nat} : ∀ {s : Scanner},s.current.length < fuel →
    ∃ init e,scanAll fuel s = init ++ [e] ∧ e.1.type = .eof ∧ ∀ u ∈ init,u.1.type ≠ .eof := by
  induction fuel with
  | zero =>
    intro s h
    omega
  | succ fuel ih =>
    intro s h
    simp only [scanAll]
    split
    · next heof => exact ⟨[],_,rfl,heof,nofun⟩
    · next hne =>
      have hlen := staScannerNext_length hne
      obtain ⟨init,e,hall,he,hinit⟩ := ih (s := (staScannerNext s).2) (by omega)
      refine ⟨((staScannerNext s).1,s) :: init,e,by rw [hall]; rfl,he,fun u hu => ?_⟩
      rcases mem_cons.mp hu with rfl | hu
      · exact hne
      · exact hinit u hu

theorem tokens_end (source : List Char) :
    ∃ init e,tokens source = init ++ [e] ∧ e.type = .eof ∧ ∀ u ∈ init,u.type ≠ .eof := by
  have hlen : (staScannerInit source).current.length < source.length + 1 :=
    Nat.lt_succ_of_le (takeWhile_sublist _).length_le
  obtain ⟨init,e,hall,he,hinit⟩ := scanAll_ends hlen
  refine ⟨init.map Prod.fst,e.1,?_,he,fun u hu => ?_⟩
  · rw [tokens,scanSource,hall,map_append]
    rfl
  · obtain ⟨v,hv,rfl⟩ := List.mem_map.mp hu
    exact hinit v hv

end SmalltalkA
