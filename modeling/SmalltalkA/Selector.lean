import Mathlib

/-! Selectors: the arity read off a selector's text (`selector.c`), and the selectors the parser
makes from tokens (`scanner.c`, `parser.c`). -/

set_option autoImplicit false

namespace SmalltalkA

open List

/-- `is_binary_char` of `selector.c`. -/
def isBinaryChar (c : Char) : Bool :=
  c ∈ ['+','-','*','/','<','>','=','~','@','%','&','|','!','?','\\',',']

/-- `sta_selector_arity`; the colons are counted in a `uint8_t`. -/
def staSelectorArity (sel : String) : Nat :=
  match sel.toList with
  | [] => 0
  | c :: cs => if isBinaryChar c then 1 else (c :: cs).count ':' % 256

/-! ## Tokens -/

/-- `is_binary_char` of `scanner.c`, which leaves the bar to its own token. -/
def isScannerBinaryChar (c : Char) : Bool :=
  c ∈ ['+','-','*','/','<','>','=','~','&','@','%',',','?','!','\\']

def isLetter (c : Char) : Bool :=
  (decide ('a' ≤ c) && decide (c ≤ 'z')) || (decide ('A' ≤ c) && decide (c ≤ 'Z')) || c == '_'

def isDigit (c : Char) : Bool := decide ('0' ≤ c) && decide (c ≤ '9')

/-- The text of a `TOKEN_IDENTIFIER`. -/
def isIdentifier : List Char → Bool
  | [] => false
  | c :: cs => isLetter c && cs.all fun d => isLetter d || isDigit d

/-- The text of a `TOKEN_BINARY_SELECTOR` or a `TOKEN_VBAR`. -/
def isBinaryToken : List Char → Bool
  | [c] => isScannerBinaryChar c || c == '|'
  | [c,d] => isScannerBinaryChar c && isScannerBinaryChar d
  | _ => false

/-- The selectors the parser gives a send with that many arguments. -/
inductive SelectorFor : String → Nat → Prop
  | unary {name : List Char} (h : isIdentifier name = true) :
      SelectorFor (String.ofList name) 0
  | binary {op : List Char} (h : isBinaryToken op = true) : SelectorFor (String.ofList op) 1
  | keyword {keywords : List (List Char)} (hne : keywords ≠ [])
      (h : ∀ k ∈ keywords,isIdentifier k = true) :
      SelectorFor (String.ofList (keywords.flatMap fun k => k ++ [':'])) keywords.length

/-! ## Arity -/

theorem isLetter_not_binary {c : Char} (h : isLetter c = true) : isBinaryChar c = false := by
  rw [Bool.eq_false_iff]
  intro hb
  simp only [isBinaryChar,mem_cons,not_mem_nil,or_false,decide_eq_true_eq] at hb
  rcases hb with rfl | rfl | rfl | rfl | rfl | rfl | rfl | rfl | rfl | rfl | rfl | rfl | rfl |
    rfl | rfl | rfl <;> exact absurd h (by decide)

theorem isIdentifier_no_colon {name : List Char} (h : isIdentifier name = true) :
    name.count ':' = 0 := by
  cases name with
  | nil => rfl
  | cons c cs =>
    simp only [isIdentifier,Bool.and_eq_true,List.all_eq_true] at h
    rw [count_eq_zero]
    intro hmem
    rcases mem_cons.mp hmem with rfl | hmem
    · exact absurd h.1 (by decide)
    · exact absurd (h.2 _ hmem) (by decide)

theorem count_keywords {keywords : List (List Char)} (h : ∀ k ∈ keywords,isIdentifier k = true) :
    (keywords.flatMap fun k => k ++ [':']).count ':' = keywords.length := by
  induction keywords with
  | nil => rfl
  | cons k ks ih =>
    have hk := isIdentifier_no_colon (h k mem_cons_self)
    have hks := ih fun x hx => h x (mem_cons_of_mem _ hx)
    simp [flatMap_cons,hk,hks]

theorem isBinaryToken_head {op : List Char} (h : isBinaryToken op = true) :
    ∃ c cs,op = c :: cs ∧ isBinaryChar c = true := by
  have hscan : ∀ c,isScannerBinaryChar c = true → isBinaryChar c = true := by
    intro c hc
    simp only [isScannerBinaryChar,isBinaryChar,mem_cons,not_mem_nil,or_false,
      decide_eq_true_eq] at hc ⊢
    tauto
  match op,h with
  | [c],h =>
    simp only [isBinaryToken,Bool.or_eq_true,beq_iff_eq] at h
    rcases h with h | rfl
    · exact ⟨c,[],rfl,hscan c h⟩
    · exact ⟨'|',[],rfl,by decide⟩
  | [c,d],h =>
    simp only [isBinaryToken,Bool.and_eq_true] at h
    exact ⟨c,[d],rfl,hscan c h.1⟩

theorem staSelectorArity_letter {c : Char} {cs : List Char} (h : isLetter c = true) :
    staSelectorArity (String.ofList (c :: cs)) = (c :: cs).count ':' % 256 := by
  simp only [staSelectorArity,String.toList_ofList,isLetter_not_binary h,Bool.false_eq_true,
    if_false]

theorem SelectorFor.arity {sel : String} {n : Nat} (h : SelectorFor sel n) (hn : n ≤ 255) :
    staSelectorArity sel = n := by
  cases h with
  | @unary name h =>
    cases name with
    | nil => cases h
    | cons c cs =>
      have hc : isLetter c = true := by simp only [isIdentifier,Bool.and_eq_true] at h; exact h.1
      rw [staSelectorArity_letter hc,isIdentifier_no_colon h]
  | @binary op h =>
    obtain ⟨c,cs,rfl,hc⟩ := isBinaryToken_head h
    simp only [staSelectorArity,String.toList_ofList,hc,if_true]
  | @keyword keywords hne h =>
    have hcount := count_keywords h
    obtain ⟨k,ks,rfl⟩ := exists_cons_of_ne_nil hne
    cases k with
    | nil => cases h [] mem_cons_self
    | cons c cs =>
      have hid := h (c :: cs) mem_cons_self
      have hc : isLetter c = true := by
        simp only [isIdentifier,Bool.and_eq_true] at hid
        exact hid.1
      simp only [flatMap_cons,cons_append] at hcount ⊢
      rw [staSelectorArity_letter hc,hcount]
      omega

end SmalltalkA
