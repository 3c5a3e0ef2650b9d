import SmalltalkA.Kernel.SmallInteger
import SmalltalkA.Vm.IndexedAccess

/-! `copyWith:` of `SequenceableCollection.st` on the words of its Arrays, with memory for the new
Array. A primitive that fails changes nothing, and the method goes on. -/

set_option autoImplicit false

namespace SmalltalkA

open List

/-- `Array new:`. -/
def newArray (nilOop : Oop) (n : Int) : List Oop := List.replicate (uint32 n) nilOop

/-- `prim_array_at` on the words of an Array. -/
def arrayAt (a : List Oop) (i : Int) : Access Oop :=
  if indexOutOfRange i a.length then failWith primOutOfRange else inObject a[(i - 1).toNat]?

/-- `prim_array_at_put`. -/
def arrayAtPut (a : List Oop) (i : Int) (v : Oop) : Access (List Oop) :=
  if indexOutOfRange i a.length then failWith primOutOfRange
  else if (i - 1).toNat < a.length then .ok (a.set (i - 1).toNat v)
  else .error .undefined

/-- `prim_replace` into an Array; `src` are the words of the source, none if it has bytes. -/
def arrayReplace (dst : List Oop) (start stop : Int) (src : Option (List Oop)) (repStart : Int) :
    Access (List Oop) :=
  if start < 1 ∨ stop < start - 1 ∨ repStart < 1 then failWith primOutOfRange
  else
    let count := stop - start + 1
    if count = 0 then .ok dst
    else
      match src with
      | none => failWith primBadArgument
      | some src =>
        if dst.length < uint32 stop then failWith primOutOfRange
        else if src.length < uint32 (repStart + count - 1) then failWith primOutOfRange
        else inObject (splice dst (start - 1).toNat src (repStart - 1).toNat count.toNat)

/-- An Array after a primitive; none for an access outside of it. -/
def orUnchanged (a : List Oop) : Access (List Oop) → Option (List Oop)
  | .ok b => some b
  | .error (.code _) => some a
  | .error .undefined => none

structure OrderedCollection where
  array : List Oop
  firstIndex : Int
  lastIndex : Int

def OrderedCollection.size (c : OrderedCollection) : Int := c.lastIndex - c.firstIndex + 1

def OrderedCollection.realIndex (c : OrderedCollection) (anIndex : Int) : Int :=
  SmallintOp.sub.send (SmallintOp.add.send c.firstIndex anIndex) 1

variable {a l₁ l₂ : List Oop} {i : Int} {v w : Oop}

section

variable (ha : a = l₁ ++ w :: l₂) (hlength : a.length < 2 ^ 32) (hi : i = l₁.length + 1)

include ha hlength hi

theorem index_in_range : indexOutOfRange i a.length = false := by
  have hcount : a.length = l₁.length + (l₂.length + 1) := by simp [ha]
  have hcast := uint32_of_lt (by omega : 0 ≤ i) (by omega)
  simp
  omega

theorem arrayAt_append : arrayAt a i = .ok w := by
  have hin := index_in_range ha hlength hi
  subst ha hi
  rw [arrayAt,hin]
  simp [inObject]

theorem arrayAtPut_append : arrayAtPut a i v = .ok (l₁ ++ v :: l₂) := by
  have hin := index_in_range ha hlength hi
  subst ha hi
  rw [arrayAtPut,hin]
  simp

end

theorem arrayReplace_start {dst : List Oop} {n : Nat} (hdst : n ≤ dst.length) (hn : n ≤ a.length)
    (hsmall : n < 2 ^ 32) : arrayReplace dst 1 n (some a) 1 = .ok (a.take n ++ dst.drop n) := by
  rw [arrayReplace,if_neg (by omega)]
  rcases Nat.eq_zero_or_pos n with rfl | hpos
  · rfl
  · have hcast := uint32_of_lt (by omega : 0 ≤ (n : Int)) (by omega)
    have hcount : (n - 1 + 1 : Int) = n := by omega
    have hsrc : (1 + n - 1 : Int) = n := by omega
    simp only [hcount,hsrc]
    rw [if_neg (by omega),if_neg (by omega),if_neg (by omega),
      splice_some.mpr ⟨⟨by simpa using hdst,by simpa using hn⟩,rfl⟩]
    simp [inObject]

theorem put_nil (h : orUnchanged [] (arrayAtPut [] i v) = some a) : a = [] := by
  simp only [arrayAtPut] at h
  split at h <;> simp_all [orUnchanged,failWith]

theorem replace_nil {start stop repStart : Int} {src : Option (List Oop)}
    (h : orUnchanged [] (arrayReplace [] start stop src repStart) = some a) : a = [] := by
  simp only [arrayReplace,failWith] at h
  repeat' split at h
  all_goals try (cases h; rfl)
  rw [splice,if_neg (by simp; omega)] at h
  cases h

/-- The receivers of `copyWith:`; Symbols are strings here. An OrderedCollection is an object of
three words, the first of them its Array. -/
inductive Sequenceable where
  | array (words : List Oop)
  | string (codes : List Nat)
  | byteArray (codes : List Nat)
  | ordered (array : Oop) (c : OrderedCollection)

namespace Sequenceable

def size : Sequenceable → Int
  | array words => words.length
  | string codes | byteArray codes => codes.length
  | ordered _ c => c.size

/-- The receiver's own `at:`. -/
def get : Sequenceable → Int → Access Oop
  | array words => arrayAt words
  | string codes => arrayAt (codes.map charOop)
  | byteArray codes => arrayAt (codes.map fun code : Nat => smallIntOop code)
  | ordered _ c => fun i => arrayAt c.array (c.realIndex i)

/-- The words that `prim_replace` reads; none if the object has bytes. -/
def words : Sequenceable → Option (List Oop)
  | array words => some words
  | string _ | byteArray _ => none
  | ordered a c => some [a,smallIntOop c.firstIndex,smallIntOop c.lastIndex]

def copyWith (nilOop : Oop) (r : Sequenceable) (newElement : Oop) : Option (List Oop) := do
  let result := newArray nilOop (r.size + 1)
  let result ← orUnchanged result (arrayReplace result 1 r.size r.words 1)
  orUnchanged result (arrayAtPut result (r.size + 1) newElement)

/-- The elements of the receiver, as answered by its own `at:`. -/
structure Holds (r : Sequenceable) (l : List Oop) : Prop where
  size : r.size = l.length
  get : ∀ i (hi : i < l.length),r.get (i + 1) = .ok l[i]
  small : l.length < 2 ^ 32

/-- The words that are copied are the elements. -/
def copiesElements (nilOop : Oop) (r : Sequenceable) (l : List Oop) : Prop :=
  match r with
  | array _ => True
  | string _ | byteArray _ => l = []
  | ordered a c =>
    if l.length ≤ 3 then l = [a,smallIntOop c.firstIndex,smallIntOop c.lastIndex].take l.length
    else l = List.replicate l.length nilOop

variable {nilOop v : Oop} {r : Sequenceable} {l w : List Oop}

theorem Holds.array_eq (h : (array w).Holds l) : w = l := by
  have hsize : w.length = l.length := by simpa [Sequenceable.size] using h.size
  refine ext_getElem hsize fun i h₁ h₂ => ?_
  have hw := arrayAt_append (i := i + 1) (w := w[i])
    (show w = w.take i ++ w[i] :: w.drop (i + 1) by simp) (hsize ▸ h.small) (by simp; omega)
  exact Except.ok.inj (hw.symm.trans (h.get i h₂))

variable (h : r.Holds l)

include h

/-- Characters and SmallIntegers are not nil. -/
theorem nil_iff_empty (codes : List Nat) (f : Nat → Oop) (hget : r.get = arrayAt (codes.map f))
    (hf : ∀ n,f n ≠ nilOop) : l = replicate l.length nilOop ↔ l = [] := by
  constructor
  · intro hl
    by_contra hne
    have hpos := length_pos_iff.mpr hne
    have hfirst := h.get 0 hpos
    rw [hget,arrayAt] at hfirst
    split at hfirst
    · cases hfirst
    · cases hcode : codes[0]? with
      | none => simp [hcode,inObject] at hfirst
      | some n =>
        have hn : f n = l[0] := by simpa [hcode,inObject] using hfirst
        exact hf n (hn.trans ((eq_replicate_iff.mp hl).2 _ (getElem_mem hpos)))
  · rintro rfl
    rfl

theorem copyWith_replaced (hsmall : l.length + 1 < 2 ^ 32) {a : List Oop} (ha : a.length = l.length)
    (hcopy : orUnchanged (replicate (l.length + 1) nilOop) (arrayReplace
      (replicate (l.length + 1) nilOop) 1 l.length r.words 1) = some (a ++ [nilOop])) :
    copyWith nilOop r v = some (a ++ [v]) := by
  have hcast := uint32_of_lt (by omega : 0 ≤ (l.length + 1 : Int)) (by omega)
  have hput : arrayAtPut (a ++ [nilOop]) (l.length + 1) v = .ok (a ++ [v]) :=
    arrayAtPut_append rfl (by simp; omega) (by omega)
  rw [copyWith,h.size,newArray,show uint32 (l.length + 1 : Int) = l.length + 1 by omega,hcopy]
  simp [hput,orUnchanged]

theorem copyWith_words {w : List Oop} (hw : r.words = some w) (hsmall : l.length + 1 < 2 ^ 32)
    (hfit : l.length ≤ w.length) : copyWith nilOop r v = some (w.take l.length ++ [v]) := by
  refine copyWith_replaced h hsmall (by simpa) ?_
  rw [hw,arrayReplace_start (by simp) hfit (by omega)]
  simp [orUnchanged]

theorem copyWith_nils (hw : ∀ w,r.words = some w → w.length < l.length)
    (hsmall : l.length + 1 < 2 ^ 32) :
    copyWith nilOop r v = some (replicate l.length nilOop ++ [v]) := by
  refine copyWith_replaced h hsmall (by simp) ?_
  rw [← replicate_succ',arrayReplace,if_neg (by omega)]
  have hcast := uint32_of_lt (by omega : 0 ≤ (l.length : Int)) (by omega)
  cases hr : r.words with
  | none =>
    simp only
    split <;> rfl
  | some w =>
    have hlt := hw w hr
    simp only [if_neg (by omega : ¬ (l.length - 1 + 1 : Int) = 0)]
    rw [if_neg (by simp; omega),show (1 + (l.length - 1 + 1) - 1 : Int) = l.length by omega,
      if_pos (by omega)]
    rfl

theorem copyWith_too_large (hbig : ¬ l.length + 1 < 2 ^ 32) :
    copyWith nilOop r v ≠ some (l ++ [v]) := by
  intro hcopy
  have hsmall := h.small
  have hnew : newArray nilOop (l.length + 1) = [] := by
    rw [show l.length = 2 ^ 32 - 1 by omega]
    rfl
  rw [copyWith,h.size,hnew,Option.bind_eq_bind,Option.bind_eq_some_iff] at hcopy
  obtain ⟨a,hreplace,hput⟩ := hcopy
  obtain rfl := replace_nil hreplace
  simpa using put_nil hput

/-- `copyWith:` appends to an Array, else only where the words it copies are the elements. -/
theorem copyWith_appends_iff (hnil : isHeap nilOop = true) :
    copyWith nilOop r v = some (l ++ [v]) ↔ l.length + 1 < 2 ^ 32 ∧ copiesElements nilOop r l := by
  by_cases hsmall : l.length + 1 < 2 ^ 32
  · simp only [hsmall,true_and]
    have heap : ∀ o,isHeap o = false → o ≠ nilOop := by
      rintro o ho rfl
      simp [ho] at hnil
    cases r with
    | array w =>
      obtain rfl := h.array_eq
      rw [copyWith_words h rfl hsmall le_rfl]
      simp [copiesElements]
    | string codes =>
      rw [copyWith_nils h (by simp [words]) hsmall]
      have hchar : ∀ n,charOop n ≠ nilOop := fun n => heap _ (by simp [isHeap,charOop])
      simpa [copiesElements,eq_comm] using nil_iff_empty h codes charOop rfl hchar
    | byteArray codes =>
      rw [copyWith_nils h (by simp [words]) hsmall]
      have hint : ∀ n : Nat,smallIntOop n ≠ nilOop := fun n => by
        have hodd : (((2 * n + 1) % 2 ^ 64 : Int).toNat % 4 : Nat) ≠ 0 := by omega
        exact heap _ (by simpa [isHeap,smallIntOop,wordSpan_cast] using hodd)
      simpa [copiesElements,eq_comm] using nil_iff_empty h codes _ rfl hint
    | ordered a c =>
      by_cases hfit : l.length ≤ 3
      · rw [copyWith_words h rfl hsmall hfit]
        simp [copiesElements,hfit,eq_comm]
      · rw [copyWith_nils h (by simp [words]; omega) hsmall]
        simp [copiesElements,hfit,eq_comm]
  · simp only [hsmall,false_and,iff_false]
    exact copyWith_too_large h hsmall

omit h

theorem copyWith_appends_array : copyWith 16 (array [7]) 9 = some [7,9] := by
  have hholds : (array [7]).Holds [7] := by
    refine ⟨rfl,fun i hi => ?_,by decide⟩
    obtain rfl : i = 0 := by simpa using hi
    rfl
  exact (copyWith_appends_iff hholds rfl).mpr ⟨by decide,trivial⟩

/-- `'a' copyWith: 4` has nil for the character. -/
theorem copyWith_drops_character : (string [97]).get 1 = .ok (charOop 97) ∧
    copyWith 16 (string [97]) 9 = some [16,9] := ⟨rfl,rfl⟩

end Sequenceable

end SmalltalkA
