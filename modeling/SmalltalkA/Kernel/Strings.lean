import SmalltalkA.Oop

/-! Comparison of Strings, Symbols and Arrays (`String.st`, `Object.st`, `Character.st`). -/

set_option autoImplicit false

namespace SmalltalkA

open List Function

/-- An element of an Array by what `value` answers for it: a SmallInteger, as for a Character,
or another object; or the send does not return. -/
inductive Element where
  | answers (value : Int)
  | answersOther
  | fails

/-- A Symbol inherits the comparisons of String, an Array those of Object. -/
inductive Sequence where
  | string (characters : List (Fin 256))
  | array (elements : List Element)

def Element.character (c : Fin 256) : Element := .answers c

/-- The elements that `at:` answers, in their order. -/
def Sequence.elements : Sequence → List Element
  | .string s => s.map Element.character
  | .array xs => xs

/-- `Character>>=`; none if it does not return. -/
def characterEquals (c : Fin 256) : Element → Option Bool
  | .answers v => some (c = v)
  | .answersOther => some false
  | .fails => none

/-- The loop of `String>>=` on sequences of one size. -/
def equalsLoop : List (Fin 256) → List Element → Option Bool
  | c :: cs,x :: xs => do if ← characterEquals c x then equalsLoop cs xs else some false
  | _,_ => some true

/-- `=` between the objects at two addresses. -/
def sequenceEquals (objects : Oop → Sequence) (self other : Oop) : Option Bool :=
  if self = other then some true
  else
    match objects self with
    | .string s =>
      if s.length = (objects other).elements.length then equalsLoop s (objects other).elements
      else some false
    | .array _ => some false

/-- `String>>hash`, and `prim_hash` for an Array. -/
def sequenceHash (objects : Oop → Sequence) (self : Oop) : Nat :=
  match objects self with
  | .string s => s.foldl (fun h c => (h * 31 + c) &&& 536870911) 0
  | .array _ => self >>> 4 &&& 0x3FFFFFFF

/-- The loop of `String>><`; none if it ends without `done`. -/
def lessLoop : List (Fin 256) → List (Fin 256) → Option Bool
  | c :: cs,d :: ds => if c < d then some true else if c > d then some false else lessLoop cs ds
  | _,_ => none

def stringLess (s t : List (Fin 256)) : Bool :=
  (lessLoop s t).getD (s.length < t.length)

variable {m : Oop → Sequence} {a b : Oop} {s t : List (Fin 256)}

theorem equalsLoop_iff : ∀ {s : List (Fin 256)} {xs : List Element},s.length = xs.length →
    (equalsLoop s xs = some true ↔ xs = s.map Element.character)
  | [],[],_ => by simp [equalsLoop]
  | c :: cs,x :: xs,h => by
    have ih := equalsLoop_iff (Nat.succ.inj h)
    cases x with
    | answers v =>
      by_cases hc : (c : Int) = v
      · simp [equalsLoop,characterEquals,Element.character,hc,ih]
      · simp [equalsLoop,characterEquals,Element.character,hc,Ne.symm hc]
    | answersOther | fails => simp [equalsLoop,characterEquals,Element.character]

theorem sequenceEquals_string (ha : m a = .string s) :
    sequenceEquals m a b = some true ↔ (m b).elements = s.map Element.character := by
  unfold sequenceEquals
  split_ifs with hab
  · simp [← hab,ha,Sequence.elements]
  · rw [ha]
    dsimp only
    split_ifs with hlen
    · exact equalsLoop_iff hlen
    · refine ⟨fun h => (by cases h),fun h => absurd ?_ hlen⟩
      rw [h,length_map]

theorem stringLess_iff : ∀ {s t : List (Fin 256)},stringLess s t = true ↔ s < t
  | [],[] => by simp [stringLess,lessLoop]
  | [],_ :: _ => by simp [stringLess,lessLoop]
  | _ :: _,[] => by simp [stringLess,lessLoop]
  | c :: cs,d :: ds => by
    have ih := stringLess_iff (s := cs) (t := ds)
    unfold stringLess at ih ⊢
    rw [cons_lt_cons_iff,lessLoop]
    rcases lt_trichotomy c d with h | rfl | h
    · simp [h]
    · simpa using ih
    · simp [h,not_lt_of_gt h,ne_of_gt h]

/-- Equal sequences are equal the other way round and have one hash; of two Strings one is less
or they are equal. -/
structure ComparisonLaws (objects : Oop → Sequence) (a b : Oop) : Prop where
  symm : sequenceEquals objects a b = some true → sequenceEquals objects b a = some true
  hash : sequenceEquals objects a b = some true → sequenceHash objects a = sequenceHash objects b
  one : ∀ s t,objects a = .string s → objects b = .string t →
    [some (stringLess s t),sequenceEquals objects a b,some (stringLess t s)].count (some true) = 1
  trans : ∀ s t u,stringLess s t = true → stringLess t u = true → stringLess s u = true

theorem sequenceEquals_array {xs : List Element} (ha : m a = .array xs) :
    sequenceEquals m a b = some true ↔ a = b := by
  simp [sequenceEquals,ha]

theorem sequenceEquals_strings (ha : m a = .string s) (hb : m b = .string t) :
    sequenceEquals m a b = some true ↔ s = t := by
  have hinj : Injective Element.character := by
    intro c d h
    simp only [Element.character,Element.answers.injEq] at h
    omega
  rw [sequenceEquals_string ha,hb,Sequence.elements,hinj.list_map.eq_iff,eq_comm]

theorem strings_compared (ha : m a = .string s) (hb : m b = .string t) :
    [some (stringLess s t),sequenceEquals m a b,some (stringLess t s)].count (some true) = 1 := by
  have heq := sequenceEquals_strings ha hb
  rcases lt_trichotomy s t with h | h | h
  · have h₁ := stringLess_iff.mpr h
    have h₂ : ¬stringLess t s = true := fun h' => lt_asymm h (stringLess_iff.mp h')
    have h₃ : ¬sequenceEquals m a b = some true := fun h' => ne_of_lt h (heq.mp h')
    simp [h₁,h₂,h₃]
  · have h₁ : ¬stringLess s s = true := fun h' => lt_irrefl s (stringLess_iff.mp h')
    simp [← h,h₁,heq.mpr h]
  · have h₁ := stringLess_iff.mpr h
    have h₂ : ¬stringLess s t = true := fun h' => lt_asymm h (stringLess_iff.mp h')
    have h₃ : ¬sequenceEquals m a b = some true := fun h' => ne_of_gt h (heq.mp h')
    simp [h₁,h₂,h₃]

/-- The laws hold unless a String or Symbol is compared with an Array of its characters. -/
theorem comparison_laws_iff (objects : Oop → Sequence) (a b : Oop) :
    ComparisonLaws objects a b ↔
      ∀ s,objects a = .string s → objects b ≠ .array (s.map Element.character) := by
  refine ⟨fun h s ha hb => ?_,fun h => ?_⟩
  · have hab : sequenceEquals objects a b = some true := by
      rw [sequenceEquals_string ha,hb,Sequence.elements]
    have hba := (sequenceEquals_array hb).mp (h.symm hab)
    rw [hba,ha] at hb
    cases hb
  · have heq : sequenceEquals objects a b = some true →
        a = b ∨ ∃ s,objects a = .string s ∧ objects b = .string s := by
      intro hab
      cases ha : objects a with
      | array xs => exact .inl ((sequenceEquals_array ha).mp hab)
      | string s =>
        cases hb : objects b with
        | array xs =>
          rw [sequenceEquals_string ha,hb,Sequence.elements] at hab
          exact absurd (by rw [hb,hab]) (h s ha)
        | string t => exact .inr ⟨s,rfl,by rw [(sequenceEquals_strings ha hb).mp hab]⟩
    refine ⟨fun hab => ?_,fun hab => ?_,fun s t => strings_compared,fun s t u h₁ h₂ => ?_⟩
    · rcases heq hab with rfl | ⟨s,ha,hb⟩
      · exact hab
      · exact (sequenceEquals_strings hb ha).mpr rfl
    · rcases heq hab with rfl | ⟨s,ha,hb⟩
      · rfl
      · rw [sequenceHash,sequenceHash,ha,hb]
    · exact stringLess_iff.mpr ((stringLess_iff.mp h₁).trans (stringLess_iff.mp h₂))

/-- The String `'a'` at 16, and elsewhere the Array `#($a)`. -/
def characterArray (o : Oop) : Sequence :=
  if o = 16 then .string [97] else .array [.character 97]

theorem array_unequal_to_string : sequenceEquals characterArray 16 32 = some true ∧
    sequenceEquals characterArray 32 16 = some false ∧
    sequenceHash characterArray 16 ≠ sequenceHash characterArray 32 := by
  decide

end SmalltalkA
