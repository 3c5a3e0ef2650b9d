import Mathlib

/-! Neighbours in a list without repetitions: a singly linked chain of nodes. -/

set_option autoImplicit false

namespace Successor

open List

variable {α : Type} {l : List α} {a b c h n : α}

/-- `b` stands directly behind `a`. -/
def Next (l : List α) (a b : α) : Prop := [a,b] <:+: l

theorem Next.mem_left (hn : Next l a b) : a ∈ l := hn.subset (by simp)

theorem Next.cons (h : α) (hn : Next l a b) : Next (h :: l) a b :=
  hn.trans (suffix_cons h l).isInfix

theorem Next.append (hn : Next l a b) (l' : List α) : Next (l ++ l') a b :=
  hn.trans (prefix_append l l').isInfix

theorem next_cons (hn : Next (h :: l) a b) : a = h ∧ l.head? = some b ∨ Next l a b := by
  rcases infix_cons_iff.mp hn with hp | hi
  · left
    obtain ⟨t,ht⟩ := hp
    simp only [cons_append,nil_append,List.cons.injEq] at ht
    exact ⟨ht.1,by simp [← ht.2]⟩
  · exact .inr hi

theorem next_concat (hn : Next (l ++ [n]) a b) : l.getLast? = some a ∧ b = n ∨ Next l a b := by
  induction l with
  | nil =>
    have := hn.length_le
    simp at this
  | cons h l ih =>
    rcases next_cons hn with ⟨rfl,hb⟩ | hn
    · cases l with
      | nil => exact .inl ⟨rfl,by simpa using hb.symm⟩
      | cons h' l =>
        right
        obtain rfl : h' = b := by simpa using hb
        exact ⟨[],l,rfl⟩
    · rcases ih hn with ⟨hlast,rfl⟩ | hn
      · exact .inl ⟨by simp [getLast?_cons,hlast],rfl⟩
      · exact .inr (hn.cons h)

theorem next_last (hlast : l.getLast? = some a) (n : α) : Next (l ++ [n]) a n := by
  obtain ⟨l',rfl⟩ := getLast?_eq_some_iff.mp hlast
  exact ⟨l',[],by simp⟩

theorem Next.unique (hl : l.Nodup) (hb : Next l a b) (hc : Next l a c) : b = c := by
  induction l with
  | nil => exact absurd hb.mem_left not_mem_nil
  | cons h l ih =>
    have hnot := (nodup_cons.mp hl).1
    rcases next_cons hb with ⟨rfl,hfirst⟩ | hb'
    · rcases next_cons hc with ⟨-,hc'⟩ | hc'
      · exact Option.some.inj (hfirst.symm.trans hc')
      · exact absurd hc'.mem_left hnot
    · rcases next_cons hc with ⟨rfl,-⟩ | hc'
      · exact absurd hb'.mem_left hnot
      · exact ih (nodup_cons.mp hl).2 hb' hc'

theorem Next.ne_last (hl : l.Nodup) (hn : Next l a b) : l.getLast? ≠ some a := by
  induction l with
  | nil => simp
  | cons h l ih =>
    obtain ⟨hnot,hl⟩ := nodup_cons.mp hl
    intro hlast
    rcases next_cons hn with ⟨rfl,hb⟩ | hn
    · have hne : l ≠ [] := fun hnil => by simp [hnil] at hb
      rw [getLast?_cons,Option.some.injEq] at hlast
      rw [getLast?_eq_some_getLast hne,Option.getD_some] at hlast
      exact hnot (hlast ▸ getLast_mem hne)
    · have hne : l ≠ [] := ne_nil_of_mem hn.mem_left
      rw [getLast?_cons_of_ne_nil hne] at hlast
      exact ih hl hn hlast

end Successor
