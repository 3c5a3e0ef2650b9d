import Mathlib

/-! Systems of threads over shared data: paths of labelled steps that all meet a condition, the
invariant rule, and tallies over the components. -/

set_option autoImplicit false

namespace Interleaving

open List Option

universe u v w

section Paths

variable {σ : Type u} {ε : Type v} (step : σ → ε → Option σ) (ok : σ → ε → Prop)

/-- `t` is reached from `s` by steps that all meet `ok`. -/
inductive Path (s : σ) : σ → Prop where
  | refl : Path s s
  | tail {t u : σ} {e : ε} : Path s t → ok t e → step t e = some u → Path s u

variable {step ok}

variable {s t : σ}

theorem Path.trans {u : σ} (h : Path step ok s t) (h' : Path step ok t u) : Path step ok s u := by
  induction h' with
  | refl => exact h
  | tail _ hok hs ih => exact ih.tail hok hs

theorem Path.mono {ok' : σ → ε → Prop} (hok : ∀ s e,ok s e → ok' s e) (h : Path step ok s t) :
    Path step ok' s t := by
  induction h with
  | refl => exact .refl
  | tail _ he hs ih => exact ih.tail (hok _ _ he) hs

theorem Path.invariant {I : σ → Prop} (h : Path step ok s t) (h₀ : I s)
    (hstep : ∀ t e u,I t → ok t e → step t e = some u → I u) : I t := by
  induction h with
  | refl => exact h₀
  | tail _ hok hs ih => exact hstep _ _ _ ih hok hs

variable (step ok) [∀ s e,Decidable (ok s e)]

def runAll : List ε → σ → Option σ
  | [],s => some s
  | e :: es,s => if ok s e then (step s e).bind (runAll es) else none

variable {step ok}

theorem runAll_path (es : List ε) (h : runAll step ok es s = some t) : Path step ok s t := by
  induction es generalizing s with
  | nil =>
    cases h
    exact .refl
  | cons e es ih =>
    simp only [runAll] at h
    split at h
    · rename_i hok
      rw [bind_eq_some_iff] at h
      obtain ⟨u,hu,h⟩ := h
      exact (Path.refl.tail hok hu).trans (ih h)
    · cases h

theorem runAll_map_path {τ : Type w} {f : σ → τ} {es : List ε} {y : τ}
    (h : (runAll step ok es s).map f = some y) : ∃ t,Path step ok s t ∧ f t = y := by
  rw [map_eq_some_iff] at h
  obtain ⟨t,ht,hf⟩ := h
  exact ⟨t,runAll_path es ht,hf⟩

end Paths

section Components

variable {α : Type w} {l : List α} {i : Nat} {x y : α}

theorem mem_set_new (hi : l[i]? = some x) : y ∈ l.set i y :=
  mem_set (List.getElem?_eq_some_iff.mp hi).1 y

theorem eq_of_getElem?_set (h : (l.set i y)[i]? = some x) : x = y := by
  rw [getElem?_set_self'] at h
  cases hi : l[i]? <;> simp_all

theorem exists_mem_set {p : α → Prop} (hi : l[i]? = some x) (h : ∃ z ∈ l,p z) (hxy : p x → p y) :
    ∃ z ∈ l.set i y,p z := by
  obtain ⟨z,hz,hpz⟩ := h
  obtain ⟨j,hj⟩ := mem_iff_getElem?.mp hz
  by_cases hij : i = j
  · subst hij
    obtain rfl : x = z := by simpa [hi] using hj
    exact ⟨y,mem_set_new hi,hxy hpz⟩
  · exact ⟨z,mem_of_getElem? (by rw [getElem?_set_ne hij,hj]),hpz⟩

theorem forall_mem_set {p : α → Prop} (h : ∀ z ∈ l,p z) (hy : p y) : ∀ z ∈ l.set i y,p z := by
  intro z hz
  rcases mem_or_eq_of_mem_set hz with hz | rfl
  · exact h z hz
  · exact hy

end Components

section Tally

variable {α : Type w}

def tally (f : α → Nat) (l : List α) : Nat := (l.map f).sum

variable {i : Nat} {l : List α} {x : α} {f : α → Nat}

theorem tally_set (h : l[i]? = some x) (y : α) (f : α → Nat) :
    tally f (l.set i y) + f x = tally f l + f y := by
  induction l generalizing i with
  | nil => simp at h
  | cons z l ih =>
    cases i with
    | zero =>
      simp only [getElem?_cons_zero,some.injEq] at h
      simp [tally,h]
      omega
    | succ i =>
      have := ih (i := i) (by simpa using h)
      simp only [tally,set_cons_succ,map_cons,sum_cons] at this ⊢
      omega

theorem le_tally (h : l[i]? = some x) (f : α → Nat) : f x ≤ tally f l := by
  induction l generalizing i with
  | nil => simp at h
  | cons z l ih =>
    cases i with
    | zero =>
      simp only [getElem?_cons_zero,some.injEq] at h
      simp [tally,h]
    | succ i =>
      have hl : l[i]? = some x := by simpa using h
      have := ih hl
      simp only [tally,map_cons,sum_cons] at this ⊢
      omega

theorem add_le_tally {j : Nat} {y : α} (hi : l[i]? = some x) (hj : l[j]? = some y) (hij : i ≠ j)
    (f : α → Nat) : f x + f y ≤ tally f l := by
  induction l generalizing i j with
  | nil => simp at hi
  | cons z l ih =>
    cases i with
    | zero =>
      cases j with
      | zero => exact absurd rfl hij
      | succ j =>
        obtain rfl : z = x := by simpa using hi
        have := le_tally (l := l) (i := j) (by simpa using hj) f
        simp only [tally,map_cons,sum_cons] at this ⊢
        omega
    | succ i =>
      cases j with
      | zero =>
        obtain rfl : z = y := by simpa using hj
        have := le_tally (l := l) (i := i) (by simpa using hi) f
        simp only [tally,map_cons,sum_cons] at this ⊢
        omega
      | succ j =>
        have := ih (i := i) (j := j) (by simpa using hi) (by simpa using hj) (by omega)
        simp only [tally,map_cons,sum_cons] at this ⊢
        omega

theorem tally_le_length (hf : ∀ x,f x ≤ 1) : tally f l ≤ l.length := by
  induction l with
  | nil => simp [tally]
  | cons z l ih =>
    have := hf z
    simp only [tally,map_cons,sum_cons,length_cons] at ih ⊢
    omega

theorem tally_lt_length (hf : ∀ x,f x ≤ 1) (hi : l[i]? = some x) (hx : f x = 0) :
    tally f l < l.length := by
  induction l generalizing i with
  | nil => simp at hi
  | cons z l ih =>
    cases i with
    | zero =>
      obtain rfl : z = x := by simpa using hi
      have := tally_le_length (l := l) hf
      simp only [tally,map_cons,sum_cons,length_cons] at this ⊢
      omega
    | succ i =>
      have := ih (i := i) (by simpa using hi)
      have := hf z
      simp only [tally,map_cons,sum_cons,length_cons] at *
      omega

theorem exists_of_tally_pos (h : 0 < tally f l) : ∃ (i : Nat) (x : α),l[i]? = some x ∧ 0 < f x := by
  induction l with
  | nil => simp [tally] at h
  | cons z l ih =>
    by_cases hz : 0 < f z
    · exact ⟨0,z,rfl,hz⟩
    · simp only [tally,map_cons,sum_cons] at h ih
      obtain ⟨i,x,hx,hf⟩ := ih (by omega)
      exact ⟨i + 1,x,by simpa using hx,hf⟩

end Tally

end Interleaving
