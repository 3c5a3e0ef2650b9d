import Mathlib

/-! Deterministic machines, whose steps yield the next state or halt: runs, invariants along runs,
and simulations. -/

set_option autoImplicit false

namespace Runs

universe u v w x

section Single

variable {σ : Type u} {ε : Type v} (step : σ → Except ε σ)

/-- `n` steps of the machine, stopping early when it halts. -/
def runFor : Nat → σ → Except ε σ
  | 0,s => .ok s
  | n + 1,s => (step s).bind (runFor n)

def Reaches (s t : σ) : Prop := ∃ n,runFor step n s = .ok t

def Halts (s : σ) (h : ε) : Prop := ∃ n,runFor step n s = .error h

variable {step}

variable {n : Nat} {s t u : σ} {h : ε}

theorem runFor_succ_ok (h : step s = .ok t) : runFor step (n + 1) s = runFor step n t := by
  simp [runFor,h,Except.bind]

theorem runFor_succ_error (hs : step s = .error h) : runFor step (n + 1) s = .error h := by
  simp [runFor,hs,Except.bind]

theorem runFor_add {m : Nat} (h : runFor step m s = .ok t) (n : Nat) :
    runFor step (m + n) s = runFor step n t := by
  induction m generalizing s with
  | zero =>
    cases h
    simp
  | succ m ih =>
    cases hs : step s with
    | error e => simp [runFor_succ_error hs] at h
    | ok s' =>
      rw [runFor_succ_ok hs] at h
      rw [Nat.add_right_comm,runFor_succ_ok hs]
      exact ih h

theorem runFor_error_mono {m : Nat} (hr : runFor step m s = .error h) (hmn : m ≤ n) :
    runFor step n s = .error h := by
  induction m generalizing s n with
  | zero => simp [runFor] at hr
  | succ m ih =>
    obtain ⟨n,rfl⟩ : ∃ k,n = k + 1 := ⟨n - 1,by omega⟩
    cases hs : step s with
    | error e =>
      rw [runFor_succ_error hs] at hr ⊢
      exact hr
    | ok s' =>
      rw [runFor_succ_ok hs] at hr ⊢
      exact ih hr (by omega)

theorem Halts.unique {k : ε} (hh : Halts step s h) (hk : Halts step s k) : h = k := by
  obtain ⟨m,hm⟩ := hh
  obtain ⟨n,hn⟩ := hk
  have h₁ := runFor_error_mono hm (Nat.le_max_left m n)
  have h₂ := runFor_error_mono hn (Nat.le_max_right m n)
  rw [h₁] at h₂
  exact Except.error.inj h₂

theorem Reaches.refl (s : σ) : Reaches step s s := ⟨0,rfl⟩

theorem Reaches.head (h : step s = .ok t) (ht : Reaches step t u) : Reaches step s u := by
  obtain ⟨n,hn⟩ := ht
  exact ⟨n + 1,by rw [runFor_succ_ok h]; exact hn⟩

theorem Reaches.tail {s t u : σ} (h : Reaches step s t) (ht : step t = .ok u) :
    Reaches step s u := by
  obtain ⟨n,hn⟩ := h
  exact ⟨n + 1,by rw [runFor_add hn,runFor_succ_ok ht]; rfl⟩

theorem Reaches.trans (h : Reaches step s t) (ht : Reaches step t u) : Reaches step s u := by
  obtain ⟨m,hm⟩ := h
  obtain ⟨n,hn⟩ := ht
  exact ⟨m + n,by rw [runFor_add hm]; exact hn⟩

theorem Halts.head (hs : step s = .ok t) (ht : Halts step t h) : Halts step s h := by
  obtain ⟨n,hn⟩ := ht
  exact ⟨n + 1,by rw [runFor_succ_ok hs]; exact hn⟩

theorem Halts.here (hs : step s = .error h) : Halts step s h := ⟨1,runFor_succ_error hs⟩

theorem Reaches.halts (hr : Reaches step s t) (ht : Halts step t h) : Halts step s h := by
  obtain ⟨m,hm⟩ := hr
  obtain ⟨n,hn⟩ := ht
  exact ⟨m + n,by rw [runFor_add hm]; exact hn⟩

theorem Halts.last {s : σ} {h : ε} (hh : Halts step s h) :
    ∃ t,Reaches step s t ∧ step t = .error h := by
  obtain ⟨n,hn⟩ := hh
  induction n generalizing s with
  | zero => simp [runFor] at hn
  | succ n ih =>
    cases hs : step s with
    | error e =>
      rw [runFor_succ_error hs] at hn
      exact ⟨s,.refl s,hn ▸ hs⟩
    | ok s' =>
      rw [runFor_succ_ok hs] at hn
      obtain ⟨t,ht,hlast⟩ := ih hn
      exact ⟨t,.head hs ht,hlast⟩

theorem Reaches.invariant {I : σ → Prop}
    (hstep : ∀ u u',Reaches step s u → I u → step u = .ok u' → I u') (hs : I s)
    (hr : Reaches step s t) : I t := by
  obtain ⟨n,hn⟩ := hr
  induction n generalizing s with
  | zero =>
    cases hn
    exact hs
  | succ n ih =>
    cases h : step s with
    | error e => simp [runFor_succ_error h] at hn
    | ok s' =>
      rw [runFor_succ_ok h] at hn
      have hs' := hstep s s' (.refl s) hs h
      exact ih (fun u u' hu => hstep u u' (.head h hu)) hs' hn

variable (step) in
/-- Check a run that halts within `n` steps state by state. -/
def holdsAlong (p : σ → Bool) : Nat → σ → Bool
  | 0,_ => false
  | n + 1,s => p s && match step s with
    | .ok t => holdsAlong p n t
    | .error _ => true

theorem holdsAlong_reaches {p : σ → Bool} (h : holdsAlong step p n s = true) (hr : Reaches step s u) :
    p u = true := by
  induction n generalizing s with
  | zero => simp [holdsAlong] at h
  | succ n ih =>
    rw [holdsAlong,Bool.and_eq_true] at h
    obtain ⟨k,hk⟩ := hr
    cases k with
    | zero =>
      cases hk
      exact h.1
    | succ k =>
      cases hs : step s with
      | error e => simp [runFor_succ_error hs] at hk
      | ok t =>
        rw [runFor_succ_ok hs] at hk
        rw [hs] at h
        exact ih h.2 ⟨k,hk⟩

end Single

section Simulations

variable {σ : Type u} {τ : Type v} {ε : Type w} {δ : Type x}

/-- Each step of the first machine is matched by at least one of the second, or by none when the
measure goes down. `Ok` is assumed of the first machine's states; outcomes in `Lost` need no match.
-/
structure Simulation (step₁ : σ → Except ε σ) (step₂ : τ → Except δ τ) (R : σ → τ → Prop)
    (Q : ε → δ → Prop) (Ok : σ → Prop) (Lost : ε → Prop) (size : σ → Nat) : Prop where
  next : ∀ {s s' t},R s t → Ok s → step₁ s = .ok s' →
    (∃ n t',runFor step₂ (n + 1) t = .ok t' ∧ R s' t') ∨ (R s' t ∧ size s' < size s)
  halt : ∀ {s t h},R s t → Ok s → step₁ s = .error h →
    Lost h ∨ ∃ k,Halts step₂ t k ∧ Q h k

variable {step₁ : σ → Except ε σ} {step₂ : τ → Except δ τ} {R : σ → τ → Prop}
  {Q : ε → δ → Prop} {Ok : σ → Prop} {Lost : ε → Prop} {size : σ → Nat}

variable {s : σ} {t : τ}

section

variable (sim : Simulation step₁ step₂ R Q Ok Lost size) (hok : ∀ v,Reaches step₁ s v → Ok v) (hR
  : R s t)

include sim hok hR

theorem Simulation.reaches {u : σ} (hu : Reaches step₁ s u) :
    ∃ t',Reaches step₂ t t' ∧ R u t' := by
  obtain ⟨n,hn⟩ := hu
  induction n generalizing s t with
  | zero =>
    cases hn
    exact ⟨t,.refl t,hR⟩
  | succ n ih =>
    cases hs : step₁ s with
    | error e => simp [runFor_succ_error hs] at hn
    | ok s' =>
      rw [runFor_succ_ok hs] at hn
      have hok' : ∀ v,Reaches step₁ s' v → Ok v := fun v hv => hok v (.head hs hv)
      rcases sim.next hR (hok s (.refl s)) hs with ⟨k,t₁,hk,hR'⟩ | ⟨hR',_⟩
      · obtain ⟨t',⟨m,hm⟩,hRu⟩ := ih hok' hR' hn
        exact ⟨t',⟨k + 1 + m,by rw [runFor_add hk]; exact hm⟩,hRu⟩
      · exact ih hok' hR' hn

theorem Simulation.halts {h : ε} (hh : Halts step₁ s h) :
    Lost h ∨ ∃ k,Halts step₂ t k ∧ Q h k := by
  obtain ⟨n,hn⟩ := hh
  induction n generalizing s t with
  | zero => simp [runFor] at hn
  | succ n ih =>
    cases hs : step₁ s with
    | error e =>
      rw [runFor_succ_error hs] at hn
      cases hn
      exact sim.halt hR (hok s (.refl s)) hs
    | ok s' =>
      rw [runFor_succ_ok hs] at hn
      have hok' : ∀ v,Reaches step₁ s' v → Ok v := fun v hv => hok v (.head hs hv)
      rcases sim.next hR (hok s (.refl s)) hs with ⟨k,t₁,hk,hR'⟩ | ⟨hR',_⟩
      · rcases ih hok' hR' hn with hl | ⟨k',hk',hq⟩
        · exact .inl hl
        · exact .inr ⟨k',Reaches.halts ⟨k + 1,hk⟩ hk',hq⟩
      · exact ih hok' hR' hn

theorem Simulation.halts_of_halts {k : δ} (hk : Halts step₂ t k) :
    ∃ h,Halts step₁ s h ∧ (Lost h ∨ Q h k) := by
  obtain ⟨n,hn⟩ := hk
  induction n using Nat.strongRecOn generalizing s t with
  | ind n ihn =>
    -- within the same budget of second-machine steps, recurse on the measure
    induction hm : size s using Nat.strongRecOn generalizing s with
    | ind m ihm =>
      cases hs : step₁ s with
      | error e =>
        rcases sim.halt hR (hok s (.refl s)) hs with hl | ⟨k',hk',hq⟩
        · exact ⟨e,.here hs,.inl hl⟩
        · have hkk : k' = k := Halts.unique hk' ⟨n,hn⟩
          exact ⟨e,.here hs,.inr (hkk ▸ hq)⟩
      | ok s' =>
        have hok' : ∀ v,Reaches step₁ s' v → Ok v := fun v hv => hok v (.head hs hv)
        rcases sim.next hR (hok s (.refl s)) hs with ⟨j,t₁,hj,hR'⟩ | ⟨hR',hlt⟩
        · have hle : j + 1 ≤ n := by
            rcases Nat.lt_or_ge n (j + 1) with hlt | hge
            · rw [runFor_error_mono hn (Nat.le_of_lt hlt)] at hj
              simp at hj
            · exact hge
          obtain ⟨r,rfl⟩ : ∃ r,n = j + 1 + r := ⟨n - (j + 1),by omega⟩
          rw [runFor_add hj] at hn
          obtain ⟨h,hh,hq⟩ := ihn r (by omega) hok' hR' hn
          exact ⟨h,.head hs hh,hq⟩
        · obtain ⟨h,hh,hq⟩ := ihm (size s') (hm ▸ hlt) hok' hR' rfl
          exact ⟨h,.head hs hh,hq⟩

end

/-- A simulation in which the second machine never takes more than one step at a time. -/
structure Lockstep (step₁ : σ → Except ε σ) (step₂ : τ → Except δ τ) (R : σ → τ → Prop)
    (Q : ε → δ → Prop) (size : σ → Nat) : Prop where
  next : ∀ {s s' t},R s t → step₁ s = .ok s' →
    (∃ t',step₂ t = .ok t' ∧ R s' t') ∨ (R s' t ∧ size s' < size s)
  halt : ∀ {s t h},R s t → step₁ s = .error h → ∃ k,step₂ t = .error k ∧ Q h k

theorem Lockstep.simulation (sim : Lockstep step₁ step₂ R Q size) :
    Simulation step₁ step₂ R Q (fun _ => True) (fun _ => False) size where
  next {s s' t} hR _ hs := by
    rcases sim.next hR hs with ⟨t',ht,hR'⟩ | hstutter
    · exact .inl ⟨0,t',by rw [runFor_succ_ok ht]; rfl,hR'⟩
    · exact .inr hstutter
  halt {s t h} hR _ hs := by
    obtain ⟨k,hk,hq⟩ := sim.halt hR hs
    exact .inr ⟨k,.here hk,hq⟩

theorem Lockstep.covers (sim : Lockstep step₁ step₂ R Q size) {t' : τ} (hR : R s t)
    (ht : Reaches step₂ t t') : ∃ s',Reaches step₁ s s' ∧ R s' t' := by
  obtain ⟨n,hn⟩ := ht
  induction n generalizing s t with
  | zero =>
    cases hn
    exact ⟨s,.refl s,hR⟩
  | succ n ih =>
    induction hm : size s using Nat.strongRecOn generalizing s with
    | ind m ihm =>
      cases hs : step₁ s with
      | error h =>
        obtain ⟨k,hk,-⟩ := sim.halt hR hs
        simp [runFor_succ_error hk] at hn
      | ok s₁ =>
        rcases sim.next hR hs with ⟨t₁,ht₁,hR₁⟩ | ⟨hR₁,hlt⟩
        · rw [runFor_succ_ok ht₁] at hn
          obtain ⟨s',hs',hR'⟩ := ih hR₁ hn
          exact ⟨s',.head hs hs',hR'⟩
        · obtain ⟨s',hs',hR'⟩ := ihm (size s₁) (hm ▸ hlt) hR₁ rfl
          exact ⟨s',.head hs hs',hR'⟩

end Simulations

end Runs
