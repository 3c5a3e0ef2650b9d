import Mathlib

/-! Hash tables with linear probing: a search goes from a key's home to the first slot that is empty
or matches; entries are never removed. -/

set_option autoImplicit false

namespace Probing

open List

universe u v

variable {α : Type u} {κ : Type v}

/-- The first slot from `h + d` on that is empty or matches, among `n` slots. -/
def search (p : α → Bool) (t : List (Option α)) (h : Nat) : Nat → Nat → Option Nat
  | 0,_ => none
  | n + 1,d =>
    match t[(h + d) % t.length]? with
    | none => none
    | some none => some ((h + d) % t.length)
    | some (some a) => if p a then some ((h + d) % t.length) else search p t h n (d + 1)

/-- The slot for what matches `p` and has the home `h`; none if all slots are taken by others. -/
def probe (p : α → Bool) (t : List (Option α)) (h : Nat) : Option Nat := search p t h t.length 0

/-- The slot `d` steps from `h` is taken by something that does not match. -/
def Passed (p : α → Bool) (t : List (Option α)) (h d : Nat) : Prop :=
  ∃ a,t[(h + d) % t.length]? = some (some a) ∧ p a = false

def Stops (p : α → Bool) (t : List (Option α)) (i : Nat) : Prop :=
  t[i]? = some none ∨ ∃ a,t[i]? = some (some a) ∧ p a = true

variable {p : α → Bool} {t : List (Option α)} {h i : Nat} {a : α}

variable {d n e : Nat}

theorem search_some (hs : search p t h n d = some i) :
    ∃ e,d ≤ e ∧ e < d + n ∧ i = (h + e) % t.length ∧ (∀ j,d ≤ j → j < e → Passed p t h j) ∧
      Stops p t i := by
  induction n generalizing d with
  | zero => cases hs
  | succ n ih =>
    simp only [search] at hs
    split at hs
    · cases hs
    · next hslot =>
      cases hs
      exact ⟨d,Nat.le_refl _,by omega,rfl,fun j hj hlt => by omega,.inl hslot⟩
    · next a hslot =>
      split at hs
      · next hp =>
        cases hs
        exact ⟨d,Nat.le_refl _,by omega,rfl,fun j hj hlt => by omega,.inr ⟨a,hslot,hp⟩⟩
      · next hp =>
        obtain ⟨e,hde,hen,hi,hpass,hstop⟩ := ih hs
        refine ⟨e,by omega,by omega,hi,fun j hj hlt => ?_,hstop⟩
        by_cases hjd : j = d
        · subst hjd
          exact ⟨a,hslot,by simpa using hp⟩
        · exact hpass j (by omega) hlt

theorem search_of (hde : d ≤ e) (hen : e < d + n) (hpass : ∀ j,d ≤ j → j < e → Passed p t h j)
    (hstop : Stops p t ((h + e) % t.length)) :
    search p t h n d = some ((h + e) % t.length) := by
  induction n generalizing d with
  | zero => omega
  | succ n ih =>
    simp only [search]
    by_cases hd : d = e
    · subst hd
      rcases hstop with hslot | ⟨a,hslot,hp⟩
      · rw [hslot]
      · simp [hslot,hp]
    · obtain ⟨a,hslot,hp⟩ := hpass d (Nat.le_refl d) (by omega)
      simp only [hslot,hp]
      exact ih (by omega) (by omega) (fun j hj hlt => hpass j (by omega) hlt)

theorem search_congr {q : α → Bool} (hpq : ∀ a (j : Nat),t[j]? = some (some a) → p a = q a)
    (n d : Nat) : search p t h n d = search q t h n d := by
  induction n generalizing d with
  | zero => rfl
  | succ n ih =>
    simp only [search]
    cases hslot : t[(h + d) % t.length]? with
    | none => rfl
    | some o =>
      cases o with
      | none => rfl
      | some a => simp only [hpq a _ hslot,ih]

theorem probe_congr {q : α → Bool} (hpq : ∀ a (j : Nat),t[j]? = some (some a) → p a = q a) (h : Nat) :
    probe p t h = probe q t h :=
  search_congr hpq t.length 0

theorem probe_some (hs : probe p t h = some i) : ∃ e,e < t.length ∧ i = (h + e) % t.length ∧
    (∀ j < e,Passed p t h j) ∧ Stops p t i := by
  obtain ⟨e,-,hlt,hi,hpass,hstop⟩ := search_some hs
  exact ⟨e,by omega,hi,fun j hj => hpass j (Nat.zero_le j) hj,hstop⟩

theorem probe_of (he : e < t.length) (hpass : ∀ j < e,Passed p t h j)
    (hstop : Stops p t ((h + e) % t.length)) : probe p t h = some ((h + e) % t.length) :=
  search_of (Nat.zero_le e) (by omega) (fun j _ hj => hpass j hj) hstop

theorem exists_step (h : Nat) (hi : i < t.length) : ∃ d < t.length,(h + d) % t.length = i := by
  have hlen : 0 < t.length := by omega
  have hlt := Nat.mod_lt h hlen
  by_cases hle : h % t.length ≤ i
  · refine ⟨i - h % t.length,by omega,?_⟩
    rw [Nat.add_mod,Nat.mod_eq_of_lt (by omega : i - h % t.length < t.length),
      Nat.mod_eq_of_lt (by omega)]
    omega
  · refine ⟨i + t.length - h % t.length,by omega,?_⟩
    rw [Nat.add_mod,Nat.mod_eq_of_lt (by omega : i + t.length - h % t.length < t.length),
      Nat.mod_eq_sub_mod (by omega),Nat.mod_eq_of_lt (by omega)]
    omega

theorem step_injective (hd : d < n) (he : e < n) (heq : (h + d) % n = (h + e) % n) : d = e := by
  have hlt := Nat.mod_lt h (by omega : 0 < n)
  have hred : ∀ c,c < n → (h + c) % n = if h % n + c < n then h % n + c else h % n + c - n := by
    intro c hc
    rw [Nat.add_mod,Nat.mod_eq_of_lt hc]
    split
    · next hle => exact Nat.mod_eq_of_lt hle
    · next hle => rw [Nat.mod_eq_sub_mod (by omega),Nat.mod_eq_of_lt (by omega)]
  rw [hred d hd,hred e he] at heq
  split at heq <;> split at heq <;> omega

theorem probe_isSome (h : Nat) (hi : t[i]? = some none) : ∃ j,probe p t h = some j := by
  classical
  have hlt := (List.getElem?_eq_some_iff.mp hi).1
  obtain ⟨d,hd,hdi⟩ := exists_step h hlt
  have hex : ∃ d,Stops p t ((h + d) % t.length) := ⟨d,hdi ▸ .inl hi⟩
  have hmin := fun j hj => Nat.find_min hex (m := j) hj
  have hle : Nat.find hex ≤ d := Nat.find_min' hex (hdi ▸ .inl hi)
  refine ⟨_,probe_of (by omega) (fun j hj => ?_) (Nat.find_spec hex)⟩
  have hslot : (h + j) % t.length < t.length := Nat.mod_lt _ (by omega)
  have hnot := hmin j hj
  rw [Stops,not_or] at hnot
  cases hget : t[(h + j) % t.length]? with
  | none => exact absurd (List.getElem?_eq_none_iff.mp hget) (by omega)
  | some x =>
    cases x with
    | none => exact absurd hget hnot.1
    | some a =>
      refine ⟨a,hget,?_⟩
      by_contra hp
      exact hnot.2 ⟨a,hget,by simpa using hp⟩

/-! ## Tables -/

def Chained (home : α → Nat) (t : List (Option α)) : Prop :=
  ∀ i a,t[i]? = some (some a) → ∃ d < t.length,i = (home a + d) % t.length ∧
    ∀ j < d,∃ b,t[(home a + j) % t.length]? = some (some b)

def entries (t : List (Option α)) : List α := t.filterMap id

theorem mem_entries : a ∈ entries t ↔ ∃ i : Nat,t[i]? = some (some a) := by
  simp only [entries,mem_filterMap,id_eq,exists_eq_right]
  exact mem_iff_getElem?

theorem entries_length_le (t : List (Option α)) : (entries t).length ≤ t.length :=
  length_filterMap_le _ _

theorem exists_empty (hlt : (entries t).length < t.length) : ∃ i : Nat,t[i]? = some none := by
  by_contra hno
  have hall : ∀ x ∈ t,(id x).isSome := by
    intro x hx
    obtain ⟨i,hi⟩ := mem_iff_getElem?.mp hx
    cases x with
    | none => exact absurd ⟨i,hi⟩ hno
    | some a => rfl
  have : (entries t).length = t.length := by
    rw [entries,length_filterMap_eq_countP]
    exact countP_eq_length.mpr hall
  omega

theorem probe_found {home : α → Nat} (hc : Chained home t) (hi : t[i]? = some (some a))
    (hp : p a = true) (honly : ∀ j b,t[j]? = some (some b) → p b = true → j = i) :
    probe p t (home a) = some i := by
  obtain ⟨d,hd,hdi,hfull⟩ := hc i a hi
  subst hdi
  by_cases hpass : ∀ j < d,Passed p t (home a) j
  · exact probe_of hd hpass (.inr ⟨a,hi,hp⟩)
  · -- a match on the way would be the entry itself, fewer steps from its home
    push Not at hpass
    obtain ⟨j,hj,hnot⟩ := hpass
    obtain ⟨b,hb⟩ := hfull j hj
    have hpb : p b = true := by
      by_contra hpb
      exact hnot ⟨b,hb,by simpa using hpb⟩
    have heq := honly _ b hb hpb
    exact absurd (step_injective (by omega) hd heq) (by omega)

theorem Chained.set {home : α → Nat} (hc : Chained home t) (hs : probe p t (home a) = some i)
    (hi : t[i]? = some none) : Chained home (t.set i (some a)) := by
  obtain ⟨e,he,hie,hpass,-⟩ := probe_some hs
  have hlt := (List.getElem?_eq_some_iff.mp hi).1
  have hkept : ∀ {k : Nat} {b : α},t[k]? = some (some b) → (t.set i (some a))[k]? = some (some b) := by
    intro k b hk
    have hne : i ≠ k := by
      rintro rfl
      rw [hi] at hk
      cases hk
    rw [getElem?_set_ne hne,hk]
  intro k b hk
  rw [length_set]
  by_cases hki : k = i
  · subst hki
    rw [getElem?_set_self hlt] at hk
    cases hk
    refine ⟨e,he,hie,fun j hj => ?_⟩
    obtain ⟨b,hb,-⟩ := hpass j hj
    exact ⟨b,hkept hb⟩
  · rw [getElem?_set_ne (Ne.symm hki)] at hk
    obtain ⟨d,hd,hkd,hfull⟩ := hc k b hk
    refine ⟨d,hd,hkd,fun j hj => ?_⟩
    obtain ⟨c,hc⟩ := hfull j hj
    exact ⟨c,hkept hc⟩

theorem entries_set (hi : t[i]? = some none) : (entries (t.set i (some a))).Perm (a :: entries t) := by
  induction t generalizing i with
  | nil => simp at hi
  | cons x t ih =>
    cases i with
    | zero =>
      obtain rfl : x = none := by simpa using hi
      simp [entries]
    | succ i =>
      have hperm := ih (by simpa using hi)
      cases x with
      | none => simpa [entries] using hperm
      | some b =>
        simp only [entries,set_cons_succ,filterMap_cons,id_eq] at hperm ⊢
        exact (hperm.cons b).trans (.swap a b _)

theorem slot_unique {key : α → κ} (hnd : ((entries t).map key).Nodup) {j : Nat} {b : α}
    (hi : t[i]? = some (some a)) (hj : t[j]? = some (some b)) (hk : key a = key b) : i = j := by
  induction t generalizing i j with
  | nil => simp at hi
  | cons x t ih =>
    -- an entry in the tail with the key of the first one
    have hmiss : ∀ {c d : α} {k : Nat},x = some c → t[k]? = some (some d) → key c ≠ key d := by
      rintro c d k rfl hd heq
      simp only [entries,filterMap_cons,id_eq,map_cons,nodup_cons] at hnd
      exact hnd.1 (heq ▸ List.mem_map_of_mem (mem_entries.mpr ⟨k,hd⟩))
    cases i with
    | zero =>
      cases j with
      | zero => rfl
      | succ j => exact absurd hk (hmiss (by simpa using hi) (by simpa using hj))
    | succ i =>
      cases j with
      | zero => exact absurd hk.symm (hmiss (by simpa using hj) (by simpa using hi))
      | succ j =>
        refine congrArg Nat.succ (ih ?_ (by simpa using hi) (by simpa using hj))
        cases x with
        | none => simpa [entries] using hnd
        | some c =>
          simp only [entries,filterMap_cons,id_eq,map_cons,nodup_cons] at hnd
          exact hnd.2

/-! ## Growth -/

def insertAll (home : α → Nat) (as : List α) (t : List (Option α)) : Option (List (Option α)) :=
  as.foldlM (fun t a => (probe (fun _ => false) t (home a)).map (fun i => t.set i (some a))) t

theorem insertAll_spec {home : α → Nat} (as : List α) (hc : Chained home t)
    (hroom : (entries t).length + as.length ≤ t.length) :
    ∃ t',insertAll home as t = some t' ∧ t'.length = t.length ∧ Chained home t' ∧
      (entries t').Perm (as ++ entries t) := by
  induction as generalizing t with
  | nil => exact ⟨t,rfl,rfl,hc,.refl _⟩
  | cons a as ih =>
    rw [length_cons] at hroom
    obtain ⟨e,he⟩ := exists_empty (t := t) (by omega)
    obtain ⟨i,hi⟩ := probe_isSome (p := fun _ => false) (home a) he
    obtain ⟨-,-,-,-,hstop⟩ := probe_some hi
    have hempty : t[i]? = some none := by
      rcases hstop with hempty | ⟨b,-,hb⟩
      · exact hempty
      · cases hb
    have hperm := entries_set (a := a) hempty
    obtain ⟨t',ht',hlen,hc',hperm'⟩ := ih (hc.set hi hempty) (by
      rw [hperm.length_eq,length_set,length_cons]
      omega)
    refine ⟨t',?_,hlen.trans (length_set ..),hc',?_⟩
    · simpa [insertAll,hi] using ht'
    · exact hperm'.trans ((hperm.append_left as).trans perm_middle)

theorem entries_replicate (n : Nat) : entries (List.replicate n (none : Option α)) = [] := by
  simp [entries]

theorem chained_replicate (home : α → Nat) (n : Nat) :
    Chained home (List.replicate n (none : Option α)) := by
  intro i a hi
  have := mem_of_getElem? hi
  simp at this

end Probing
