import SmalltalkA.Compiler.Parser

/-! String and symbol literals in quotes: the scanner finds the end of the token, the parser undoes
the pairs of quotes (`scan_string`, `scan_symbol_after_hash`, `parse_literal`). A token is its start
and a length of 32 bits. -/

set_option autoImplicit false

namespace SmalltalkA

open List

/-- `STA_Token` as the scanner makes it: `make_token` cuts the length. -/
structure SourceToken where
  type : TokenType
  start : List Char
  length : Nat
  deriving DecidableEq,Repr

def firstToken (source : List Char) : SourceToken × Scanner :=
  let start := skipBlanks false (staScannerInit source).current
  let (type,text,_) := scanLexeme start
  (⟨type,start,text.length % 2 ^ 32⟩,(staScannerNext (staScannerInit source)).2)

/-- `parse_literal` on the tokens of strings and symbols. -/
def parseQuoted (t : SourceToken) : Option Node :=
  match t.type with
  | .string =>
    let srcLen := (t.length + 2 ^ 32 - 2) % 2 ^ 32
    some (.literalString (String.ofList (unescape ((t.start.drop 1).take srcLen))))
  | .symbolLiteral =>
    let src := t.start.drop 1
    let len := (t.length + 2 ^ 32 - 1) % 2 ^ 32
    if 2 ≤ len ∧ src.head? = some '\'' then
      some (.literalSymbol (String.ofList (unescape ((src.drop 1).take (len - 2)))))
    else some (.literalSymbol (String.ofList (src.take len)))
  | _ => none

def doubled : List Char → List Char
  | [] => []
  | c :: cs => if c = '\'' then '\'' :: '\'' :: doubled cs else c :: doubled cs

def quoted (s : List Char) : List Char := '\'' :: (doubled s ++ ['\''])

def ScannedAlone (source : List Char) (type : TokenType) : Prop :=
  (firstToken source).1.type = type ∧ (staScannerNext (firstToken source).2).1.type = .eof

/-- In quotes a string is read as itself, and as a symbol with a hash in front. -/
structure QuotedRoundTrip (s : List Char) : Prop where
  string : ScannedAlone (quoted s) .string
  stringValue : parseQuoted (firstToken (quoted s)).1 = some (.literalString (String.ofList s))
  symbol : ScannedAlone ('#' :: quoted s) .symbolLiteral
  symbolValue :
    parseQuoted (firstToken ('#' :: quoted s)).1 = some (.literalSymbol (String.ofList s))

/-! ## The end of the token -/

theorem scanQuoted_doubled (s : List Char) :
    scanQuoted (doubled s ++ ['\'']) = some (doubled s ++ ['\''],[]) := by
  induction s with
  | nil => rfl
  | cons c cs ih =>
    by_cases hc : c = '\''
    · simp [doubled,hc,scanQuoted,ih]
    · simp [doubled,hc,scanQuoted,ih]

theorem doubled_mem {s : List Char} {c : Char} (h : c ∈ doubled s) : c ∈ s := by
  induction s with
  | nil => exact h
  | cons d ds ih =>
    unfold doubled at h
    split at h
    · rename_i hd
      simp only [mem_cons] at h
      rcases h with h | h | h
      · exact mem_cons.mpr (.inl (h.trans hd.symm))
      · exact mem_cons.mpr (.inl (h.trans hd.symm))
      · exact mem_cons_of_mem d (ih h)
    · rcases mem_cons.mp h with h | h
      · exact mem_cons.mpr (.inl h)
      · exact mem_cons_of_mem d (ih h)

theorem init_quoted {lead s : List Char} (hlead : ∀ c ∈ lead,c ≠ '\x00') (hs : '\x00' ∉ s) :
    (staScannerInit (lead ++ quoted s)).current = lead ++ quoted s := by
  refine takeWhile_eq_self_iff.mpr fun c hc => ?_
  simp only [quoted,mem_append,mem_cons,not_mem_nil,or_false] at hc
  have hne : c ≠ '\x00' := by
    rcases hc with hc | rfl | hc | rfl
    · exact hlead c hc
    · decide
    · rintro rfl
      exact hs (doubled_mem hc)
    · decide
  simpa using hne

/-! ## The pairs of quotes -/

theorem unescape_cons {c : Char} (hc : c ≠ '\'') (cs : List Char) :
    unescape (c :: cs) = c :: unescape cs := by
  simp [unescape,hc]

theorem unescape_doubled (s : List Char) : unescape (doubled s) = s := by
  induction s with
  | nil => rfl
  | cons c cs ih =>
    by_cases hc : c = '\''
    · simp [doubled,hc,unescape,ih]
    · simp [doubled,hc,unescape,ih]

theorem length_doubled (s : List Char) :
    s.length ≤ (doubled s).length ∧ (doubled s).length ≤ 2 * s.length := by
  induction s with
  | nil => exact ⟨Nat.le_refl _,Nat.le_refl _⟩
  | cons c cs ih =>
    unfold doubled
    split <;> simp only [length_cons] <;> omega

theorem unescape_take_short {s : List Char} {n : Nat} (h : n + 2 ≤ (doubled s).length) :
    (unescape ((doubled s).take n)).length < s.length := by
  induction s generalizing n with
  | nil => simp [doubled] at h
  | cons c cs ih =>
    have hle := length_doubled cs
    by_cases hc : c = '\''
    · simp only [doubled,if_pos hc,length_cons] at h ⊢
      match n with
      | 0 => exact Nat.succ_pos _
      | 1 =>
        simp only [take_succ_cons,take_zero,unescape,length_cons,length_nil]
        omega
      | n + 2 =>
        simp only [take_succ_cons,unescape,length_cons]
        exact Nat.succ_lt_succ (ih (by omega))
    · simp only [doubled,if_neg hc,length_cons] at h ⊢
      match n with
      | 0 => exact Nat.succ_pos _
      | n + 1 =>
        rw [take_succ_cons,unescape_cons hc,length_cons]
        exact Nat.succ_lt_succ (ih (by omega))

/-! ## Tokens in quotes -/

section

variable {s : List Char}

theorem firstToken_whole {source : List Char} {type : TokenType}
    (hinit : (staScannerInit source).current = source) (hskip : skipBlanks false source = source)
    (hlex : scanLexeme source = (type,source,[])) :
    (firstToken source).1 = ⟨type,source,source.length % 2 ^ 32⟩ ∧ ScannedAlone source type := by
  have hrest : (firstToken source).2.current = [] := by
    simp only [firstToken,staScannerNext,hinit,hskip,hlex]
  refine ⟨?_,?_,?_⟩
  · simp only [firstToken,hinit,hskip,hlex]
  · simp only [firstToken,hinit,hskip,hlex]
  · simp only [staScannerNext,hrest,skipBlanks,scanLexeme]

theorem firstToken_string (hs : '\x00' ∉ s) :
    (firstToken (quoted s)).1 = ⟨.string,quoted s,((doubled s).length + 2) % 2 ^ 32⟩ ∧
      ScannedAlone (quoted s) .string := by
  have hwhole := @firstToken_whole (quoted s) .string (@init_quoted [] s (by simp) hs)
    (by simp [quoted,skipBlanks,isBlank])
    (by simp [quoted,scanLexeme,scanString,scanQuoted_doubled,isLetter,isDigit])
  have hlen : (quoted s).length = (doubled s).length + 2 := by simp [quoted]
  rwa [hlen] at hwhole

theorem firstToken_symbol (hs : '\x00' ∉ s) : (firstToken ('#' :: quoted s)).1 =
        ⟨.symbolLiteral,'#' :: quoted s,((doubled s).length + 3) % 2 ^ 32⟩ ∧
      ScannedAlone ('#' :: quoted s) .symbolLiteral := by
  have hwhole := @firstToken_whole ('#' :: quoted s) .symbolLiteral
    (@init_quoted ['#'] s (by simp) hs) (by simp [skipBlanks,isBlank])
    (by simp [quoted,scanLexeme,scanSymbolAfterHash,scanQuoted_doubled,isLetter,isDigit])
  have hlen : ('#' :: quoted s).length = (doubled s).length + 3 := by simp [quoted]
  rwa [hlen] at hwhole

theorem parseQuoted_string (hs : '\x00' ∉ s) :
    parseQuoted (firstToken (quoted s)).1 = some (.literalString (String.ofList
      (unescape ((doubled s).take ((doubled s).length % 2 ^ 32))))) := by
  have hcut : (((doubled s).length + 2) % 2 ^ 32 + 2 ^ 32 - 2) % 2 ^ 32 =
      (doubled s).length % 2 ^ 32 := by omega
  rw [(firstToken_string hs).1]
  simp only [parseQuoted,hcut,quoted,drop_succ_cons,drop_zero,
    take_append_of_le_length (Nat.mod_le _ _)]

theorem parseQuoted_symbol (hs : '\x00' ∉ s) :
    parseQuoted (firstToken ('#' :: quoted s)).1 = some (.literalSymbol (String.ofList
      (if (doubled s).length % 2 ^ 32 < 2 ^ 32 - 2 then
        unescape ((doubled s).take ((doubled s).length % 2 ^ 32))
      else (quoted s).take ((doubled s).length % 2 ^ 32 - (2 ^ 32 - 2))))) := by
  rw [(firstToken_symbol hs).1]
  by_cases h : (doubled s).length % 2 ^ 32 < 2 ^ 32 - 2
  · have hlen : (((doubled s).length + 3) % 2 ^ 32 + 2 ^ 32 - 1) % 2 ^ 32 =
        (doubled s).length % 2 ^ 32 + 2 := by omega
    simp only [parseQuoted,hlen,if_pos h,quoted,drop_succ_cons,drop_zero,
      take_append_of_le_length (Nat.mod_le _ _),Nat.add_sub_cancel]
    rw [if_pos ⟨by omega,rfl⟩]
  · have hlen : (((doubled s).length + 3) % 2 ^ 32 + 2 ^ 32 - 1) % 2 ^ 32 =
        (doubled s).length % 2 ^ 32 - (2 ^ 32 - 2) := by omega
    simp only [parseQuoted,hlen,if_neg h,drop_succ_cons,drop_zero]
    rw [if_neg (by omega)]

theorem ofList_inj {t u : List Char} (h : String.ofList t = String.ofList u) : t = u := by
  simpa using congrArg String.toList h

theorem symbol_too_long (hs : '\x00' ∉ s) (hlong : 2 ^ 32 - 2 ≤ (doubled s).length) :
    parseQuoted (firstToken ('#' :: quoted s)).1 ≠ some (.literalSymbol (String.ofList s)) := by
  intro h
  rw [parseQuoted_symbol hs] at h
  have hname := ofList_inj (Node.literalSymbol.inj (Option.some.inj h))
  by_cases hcut : (doubled s).length % 2 ^ 32 < 2 ^ 32 - 2
  · rw [if_pos hcut] at hname
    have hshort := @unescape_take_short s ((doubled s).length % 2 ^ 32) (by omega)
    rw [hname] at hshort
    exact Nat.lt_irrefl _ hshort
  · -- at most one character is left
    rw [if_neg hcut] at hname
    have hbounds := length_doubled s
    have hlen := congrArg List.length hname
    rw [length_take] at hlen
    omega

/-- Text in quotes is read as itself exactly if the length of its token has 32 bits. -/
theorem quoted_round_trip_iff (hs : '\x00' ∉ s) :
    QuotedRoundTrip s ↔ (doubled s).length < 2 ^ 32 - 2 := by
  constructor
  · intro h
    by_contra hlong
    exact symbol_too_long hs (Nat.not_lt.mp hlong) h.symbolValue
  · intro hlen
    have hcut : (doubled s).length % 2 ^ 32 = (doubled s).length := Nat.mod_eq_of_lt (by omega)
    refine ⟨(firstToken_string hs).2,?_,(firstToken_symbol hs).2,?_⟩
    · rw [parseQuoted_string hs,hcut,take_length,unescape_doubled]
    · rw [parseQuoted_symbol hs,hcut,if_pos hlen,take_length,unescape_doubled]

/-- A quote at both ends and two in between. -/
theorem quoted_round_trip_quotes : QuotedRoundTrip ['\'','a','\'','\'','b','\''] :=
  (quoted_round_trip_iff (by decide)).mpr (by decide)

theorem doubled_plain (h : '\'' ∉ s) : doubled s = s := by
  induction s with
  | nil => rfl
  | cons c cs ih =>
    rw [mem_cons,not_or] at h
    rw [doubled,if_neg (Ne.symm h.1),ih h.2]

theorem string_cut_to_nothing (hs : '\x00' ∉ s) (hlen : (doubled s).length = 2 ^ 32) :
    parseQuoted (firstToken (quoted s)).1 = some (.literalString "") := by
  rw [parseQuoted_string hs,hlen,Nat.mod_self,take_zero]
  rfl

end

/-- A string of 4 GiB is read as the empty one. -/
theorem long_string_lost : '\x00' ∉ List.replicate (2 ^ 32) 'a' ∧
      parseQuoted (firstToken (quoted (List.replicate (2 ^ 32) 'a'))).1 = some (.literalString "") ∧
      ¬ QuotedRoundTrip (List.replicate (2 ^ 32) 'a') := by
  have hs : '\x00' ∉ List.replicate (2 ^ 32) 'a' := fun h =>
    absurd (eq_of_mem_replicate h) (by decide)
  have hplain : '\'' ∉ List.replicate (2 ^ 32) 'a' := fun h =>
    absurd (eq_of_mem_replicate h) (by decide)
  have hlen : (doubled (List.replicate (2 ^ 32) 'a')).length = 2 ^ 32 := by
    rw [doubled_plain hplain,length_replicate]
  have hempty := string_cut_to_nothing hs hlen
  refine ⟨hs,hempty,fun h => symbol_too_long hs (by rw [hlen]; decide) h.symbolValue⟩

theorem unquote_eq {text : List Char} (htwo : 2 ≤ text.length) (rest : List Char) :
    unquote text = unescape (((text ++ rest).drop 1).take (text.length - 2)) := by
  have hdrop : (text ++ rest).drop 1 = text.drop 1 ++ rest := drop_append_of_le_length (by omega)
  have hlen : (text.drop 1).length - 1 = text.length - 2 := by
    rw [length_drop]
    omega
  rw [unquote,hdrop,dropLast_eq_take,hlen,take_append_of_le_length]
  rw [length_drop]
  omega

theorem leafLiteral_eq_parseQuoted {t : Token} {length : Nat} (hlength : t.text.length = length)
    (hcut : length < 2 ^ 32) (htwo : 2 ≤ length)
    (htype : t.type = .string ∨ t.type = .symbolLiteral) (rest : List Char) :
    leafLiteral t = parseQuoted ⟨t.type,t.text ++ rest,length⟩ := by
  rcases htype with htype | htype
  · have hsrc : (length + 2 ^ 32 - 2) % 2 ^ 32 = length - 2 := by omega
    simp only [leafLiteral,parseQuoted,htype,hsrc]
    rw [unquote_eq (by omega) rest,hlength]
  · have hsrc : (length + 2 ^ 32 - 1) % 2 ^ 32 = length - 1 := by omega
    have hdrop : (t.text ++ rest).drop 1 = t.text.drop 1 ++ rest :=
      drop_append_of_le_length (by omega)
    have hlen : (t.text.drop 1).length = length - 1 := by rw [length_drop,hlength]
    have hhead : (t.text.drop 1 ++ rest).head? = (t.text.drop 1).head? := by
      cases htail : t.text.drop 1 with
      | nil =>
        rw [htail,length_nil] at hlen
        omega
      | cons _ _ => rfl
    simp only [leafLiteral,parseQuoted,htype,hsrc,hdrop,hhead,symbolName,hlen]
    split
    · rw [unquote_eq (by omega) rest,hlen]
    · rw [take_append_of_le_length (by omega),← hlen,take_length]

end SmalltalkA
