import SmalltalkA.Lib.Layout

/-! Control flow over laid-out code. An item says where control may go next, which entry points it
declares, and what it does to a label. A labelling that every item respects fixes the label on every
path. -/

set_option autoImplicit false

namespace Layout

open List

structure Flow (α ℓ : Type) where
  size : α → Nat
  /-- where control may go from an item at an offset -/
  next : α → Nat → List Nat
  /-- entry points an item at an offset declares, with their labels -/
  enters : α → Nat → List (Nat × ℓ)
  /-- what the item needs of its label -/
  ok : α → ℓ → Prop
  after : α → ℓ → ℓ

variable {p cut : Nat} {α ℓ : Type} {size : α → Nat} {f g : Nat → ℓ}

theorem listing_mem_boundaries {as : List α} {pos : Nat} {a : α} (h : (p,a) ∈ listing size pos as) :
    p ∈ boundaries size pos as := by
  induction as generalizing pos with
  | nil => simp [listing] at h
  | cons b as ih =>
    simp only [listing,mem_cons,Prod.mk.injEq] at h
    rcases h with ⟨rfl,-⟩ | h
    · exact start_mem_boundaries size _ _
    · exact mem_cons_of_mem _ (ih h)

/-- One labelling before `cut`, another from there on. -/
def glue {ℓ : Type} (cut : Nat) (f g : Nat → ℓ) : Nat → ℓ := fun p => if p < cut then f p else g p

theorem glue_lt (h : p < cut) : glue cut f g p = f p := if_pos h

theorem glue_ge (h : cut ≤ p) : glue cut f g p = g p := if_neg (by omega)

theorem glue_left {as : List α} {pos : Nat}
    (hfg : f (pos + extent size as) = g (pos + extent size as)) (hp : p ∈ boundaries size pos as) :
    glue (pos + extent size as) f g p = f p := by
  have hle := (boundaries_bounds size hp).2
  by_cases h : p < pos + extent size as
  · exact glue_lt h
  · have he : p = pos + extent size as := by omega
    rw [he,hfg]
    exact glue_ge (Nat.le_refl _)

theorem glue_right {bs : List α} (hp : p ∈ boundaries size cut bs) : glue cut f g p = g p :=
  glue_ge (boundaries_bounds size hp).1

namespace Flow

variable {α ℓ : Type} (F : Flow α ℓ)

/-- One step of control in code placed at `pos`. -/
def Step (pos : Nat) (code : List α) (s s' : Nat × ℓ) : Prop :=
  ∃ a,(s.1,a) ∈ listing F.size pos code ∧ s'.1 ∈ F.next a s.1 ∧ s'.2 = F.after a s.2

abbrev Path (pos : Nat) (code : List α) : Nat × ℓ → Nat × ℓ → Prop :=
  Relation.ReflTransGen (F.Step pos code)

/-- Control reaches an offset with a label, from the start or from an entry point that an item
declares. -/
def Reached (pos : Nat) (code : List α) (x : ℓ) (s : Nat × ℓ) : Prop :=
  ∃ e,(e = (pos,x) ∨ ∃ p a,(p,a) ∈ listing F.size pos code ∧ e ∈ F.enters a p) ∧
    F.Path pos code e s

def Starts (pos : Nat) (code : List α) (q : Nat) : Prop := ∃ a,(q,a) ∈ listing F.size pos code

/-- What a labelling `f` has to satisfy at an item; control stays at offsets in `P`. -/
structure RespectsAt (f : Nat → ℓ) (P : Nat → Prop) (p : Nat) (a : α) : Prop where
  ok : F.ok a (f p)
  next : ∀ q ∈ F.next a p,P q ∧ f q = F.after a (f p)
  enters : ∀ e ∈ F.enters a p,P e.1 ∧ f e.1 = e.2

def Respects (f : Nat → ℓ) (P : Nat → Prop) (pos : Nat) (code : List α) : Prop :=
  ∀ p a,(p,a) ∈ listing F.size pos code → F.RespectsAt f P p a

/-- Code that takes the label `x` at its start to `y` at its end, control staying inside. -/
def Labelled (pos : Nat) (code : List α) (x y : ℓ) : Prop :=
  ∃ f,f pos = x ∧ f (pos + extent F.size code) = y ∧
    F.Respects f (· ∈ boundaries F.size pos code) pos code

/-- Code entered with the label `x` from which control never runs off the end. -/
def Terminated (pos : Nat) (code : List α) (x : ℓ) : Prop :=
  ∃ f,f pos = x ∧ F.Starts pos code pos ∧ F.Respects f (F.Starts pos code) pos code

variable {F}

@[simp] theorem respects_nil (f : Nat → ℓ) (P : Nat → Prop) (pos : Nat) :
    F.Respects f P pos [] := by
  intro p a h
  simp [listing] at h

@[simp] theorem respects_cons (f : Nat → ℓ) (P : Nat → Prop) (pos : Nat) (a : α) (as : List α) :
    F.Respects f P pos (a :: as) ↔ F.RespectsAt f P pos a ∧ F.Respects f P (pos + F.size a) as := by
  simp only [Respects,listing,mem_cons,Prod.mk.injEq]
  constructor
  · intro h
    exact ⟨h pos a (.inl ⟨rfl,rfl⟩),fun p b hp => h p b (.inr hp)⟩
  · rintro ⟨ha,has⟩ p b (⟨rfl,rfl⟩ | hp)
    · exact ha
    · exact has p b hp

@[simp] theorem respects_append (f : Nat → ℓ) (P : Nat → Prop) (pos : Nat) (as bs : List α) :
    F.Respects f P pos (as ++ bs) ↔
      F.Respects f P pos as ∧ F.Respects f P (pos + extent F.size as) bs := by
  simp only [Respects,listing_append,mem_append]
  constructor
  · intro h
    exact ⟨fun p a hp => h p a (.inl hp),fun p a hp => h p a (.inr hp)⟩
  · rintro ⟨ha,hb⟩ p a (hp | hp)
    · exact ha p a hp
    · exact hb p a hp

variable {P : Nat → Prop} {f : Nat → ℓ} {code : List α} {pos : Nat} {x y : ℓ}

theorem RespectsAt.congr {g : Nat → ℓ} {Q : Nat → Prop} {p : Nat} {a : α} (h : F.RespectsAt f P p a)
    (hp : g p = f p) (hf : ∀ q,P q → g q = f q) (hP : ∀ q,P q → Q q) : F.RespectsAt g Q p a where
  ok := by rw [hp]; exact h.ok
  next q hq := ⟨hP q (h.next q hq).1,by rw [hf q (h.next q hq).1,hp,(h.next q hq).2]⟩
  enters e he := ⟨hP _ (h.enters e he).1,by rw [hf _ (h.enters e he).1,(h.enters e he).2]⟩

theorem Respects.congr {g : Nat → ℓ} (h : F.Respects f (· ∈ boundaries F.size pos code) pos code)
    (hf : ∀ p ∈ boundaries F.size pos code,g p = f p) (hP : ∀ p ∈ boundaries F.size pos code,P p) :
    F.Respects g P pos code :=
  fun p a hp => (h p a hp).congr (hf p (listing_mem_boundaries hp)) hf hP

theorem Labelled.nil (pos : Nat) (x : ℓ) : F.Labelled pos [] x x :=
  ⟨fun _ => x,rfl,rfl,respects_nil _ _ _⟩

theorem Labelled.append {as bs : List α} {z : ℓ} (ha : F.Labelled pos as x y)
    (hb : F.Labelled (pos + extent F.size as) bs y z) : F.Labelled pos (as ++ bs) x z := by
  obtain ⟨f,hf,hfy,hfa⟩ := ha
  obtain ⟨g,hg,hgz,hgb⟩ := hb
  have hleft := fun p => glue_left (p := p) (hfy.trans hg.symm)
  refine ⟨glue (pos + extent F.size as) f g,?_,?_,?_⟩
  · exact (hleft _ (start_mem_boundaries _ _ _)).trans hf
  · rw [extent_append,← Nat.add_assoc]
    exact (glue_right (end_mem_boundaries _ _ _)).trans hgz
  · rw [respects_append]
    refine ⟨hfa.congr hleft fun p hp => ?_,hgb.congr (fun p => glue_right) fun p hp => ?_⟩
    · exact (mem_boundaries_append _ _ _ _ _).mpr (.inl hp)
    · exact (mem_boundaries_append _ _ _ _ _).mpr (.inr hp)

theorem Labelled.terminated {as bs : List α} (ha : F.Labelled pos as x y)
    (hb : F.Terminated (pos + extent F.size as) bs y) : F.Terminated pos (as ++ bs) x := by
  obtain ⟨f,hf,hfy,hfa⟩ := ha
  obtain ⟨g,hg,⟨b,hstart⟩,hgb⟩ := hb
  have hstarts : ∀ q,F.Starts (pos + extent F.size as) bs q → F.Starts pos (as ++ bs) q := by
    rintro q ⟨c,hc⟩
    exact ⟨c,by rw [listing_append]; exact mem_append_right _ hc⟩
  have hbound : ∀ q ∈ boundaries F.size pos as,F.Starts pos (as ++ bs) q := by
    intro q hq
    obtain ⟨c,hc⟩ := boundary_starts_item F.size as b pos q hq
    rw [listing_append,mem_append] at hc
    rcases hc with hc | hc
    · exact ⟨c,by rw [listing_append]; exact mem_append_left _ hc⟩
    · simp only [listing,mem_singleton,Prod.mk.injEq] at hc
      exact hc.1 ▸ hstarts _ ⟨b,hstart⟩
  have hleft := fun p => glue_left (p := p) (hfy.trans hg.symm)
  have hright : ∀ p,F.Starts (pos + extent F.size as) bs p →
      glue (pos + extent F.size as) f g p = g p := by
    rintro p ⟨c,hc⟩
    exact glue_ge (listing_bounds F.size hc).1
  refine ⟨glue (pos + extent F.size as) f g,?_,?_,?_⟩
  · exact (hleft _ (start_mem_boundaries _ _ _)).trans hf
  · exact hbound _ (start_mem_boundaries _ _ _)
  · rw [respects_append]
    refine ⟨hfa.congr hleft hbound,fun p a hp => ?_⟩
    exact (hgb p a hp).congr (hright p ⟨a,hp⟩) hright hstarts

theorem Respects.path (h : F.Respects f P pos code) {s s' : Nat × ℓ} (hpath : F.Path pos code s s')
    (hs : s.2 = f s.1) : s'.2 = f s'.1 ∧ (s'.1 = s.1 ∨ P s'.1) := by
  induction hpath with
  | refl => exact ⟨hs,.inl rfl⟩
  | tail _ hstep ih =>
    obtain ⟨a,ha,hq,hafter⟩ := hstep
    obtain ⟨hP,hlabel⟩ := (h _ a ha).next _ hq
    exact ⟨by rw [hafter,ih.1,hlabel],.inr hP⟩

theorem Labelled.path {z : ℓ} (h : F.Labelled pos code x y)
    (hpath : F.Path pos code (pos,x) (pos + extent F.size code,z)) : z = y := by
  obtain ⟨f,hf,hfy,hres⟩ := h
  exact ((hres.path hpath hf.symm).1).trans hfy

theorem Terminated.reached (h : F.Terminated pos code x) :
    ∃ f : Nat → ℓ,∀ s,F.Reached pos code x s → s.2 = f s.1 ∧
      ∃ a,(s.1,a) ∈ listing F.size pos code ∧ F.ok a s.2 := by
  obtain ⟨f,hf,hstart,hres⟩ := h
  refine ⟨f,?_⟩
  rintro s ⟨e,he,hpath⟩
  have hentry : e.2 = f e.1 ∧ F.Starts pos code e.1 := by
    rcases he with rfl | ⟨p,a,ha,hin⟩
    · exact ⟨hf.symm,hstart⟩
    · exact ⟨((hres p a ha).enters e hin).2.symm,((hres p a ha).enters e hin).1⟩
  obtain ⟨hlabel,hP⟩ := hres.path hpath hentry.1
  have hs : F.Starts pos code s.1 := by
    rcases hP with hP | hP
    · exact hP ▸ hentry.2
    · exact hP
  obtain ⟨a,ha⟩ := hs
  exact ⟨hlabel,a,ha,hlabel ▸ (hres _ a ha).ok⟩

end Flow

end Layout
