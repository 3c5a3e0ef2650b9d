import Mathlib

/-! Placing items of different sizes one after another. A listing pairs every item with its offset;
a list is closed when all its targets fall on boundaries between its own items. -/

set_option autoImplicit false

namespace Layout

open List

variable {α : Type} (size : α → Nat)

def extent : List α → Nat
  | [] => 0
  | a :: as => size a + extent as

def listing (pos : Nat) : List α → List (Nat × α)
  | [] => []
  | a :: as => (pos,a) :: listing (pos + size a) as

def boundaries (pos : Nat) : List α → List Nat
  | [] => [pos]
  | a :: as => pos :: boundaries (pos + size a) as

@[simp] theorem extent_append (as bs : List α) :
    extent size (as ++ bs) = extent size as + extent size bs := by
  induction as with
  | nil => simp [extent]
  | cons a as ih => simp [extent,ih]; omega

theorem listing_append (as bs : List α) (pos : Nat) : listing size pos (as ++ bs) =
      listing size pos as ++ listing size (pos + extent size as) bs := by
  induction as generalizing pos with
  | nil => simp [listing,extent]
  | cons a as ih => simp [listing,extent,ih,Nat.add_assoc]

theorem start_mem_boundaries (as : List α) (pos : Nat) : pos ∈ boundaries size pos as := by
  cases as <;> simp [boundaries]

theorem mem_boundaries_append (as bs : List α) (pos q : Nat) : q ∈ boundaries size pos (as ++ bs) ↔
      q ∈ boundaries size pos as ∨ q ∈ boundaries size (pos + extent size as) bs := by
  induction as generalizing pos with
  | nil =>
    have h := start_mem_boundaries size bs pos
    constructor
    · intro hq
      exact .inr hq
    · rintro (hq | hq)
      · simp only [boundaries,mem_singleton] at hq
        exact hq ▸ h
      · exact hq
  | cons a as ih => simp [boundaries,extent,ih,Nat.add_assoc,or_assoc]

theorem end_mem_boundaries (as : List α) (pos : Nat) :
    pos + extent size as ∈ boundaries size pos as := by
  have h := (mem_boundaries_append size as [] pos (pos + extent size as)).mpr
    (.inr (start_mem_boundaries size [] _))
  simpa using h

variable {as bs : List α} {pos q : Nat} {a : α}

theorem boundaries_bounds (h : q ∈ boundaries size pos as) :
    pos ≤ q ∧ q ≤ pos + extent size as := by
  induction as generalizing pos with
  | nil =>
    simp only [boundaries,mem_singleton] at h
    simp [h,extent]
  | cons a as ih =>
    rcases mem_cons.mp h with rfl | h
    · exact ⟨Nat.le_refl _,Nat.le_add_right _ _⟩
    · have hb := ih h
      simp only [extent]
      omega

theorem listing_bounds (h : (q,a) ∈ listing size pos as) :
    pos ≤ q ∧ q + size a ≤ pos + extent size as := by
  induction as generalizing pos with
  | nil => simp [listing] at h
  | cons b as ih =>
    simp only [listing,mem_cons,Prod.mk.injEq] at h
    simp only [extent]
    rcases h with ⟨rfl,rfl⟩ | h
    · omega
    · have hb := ih h
      omega

theorem listing_rebase (pos' : Nat) (h : (q,a) ∈ listing size pos as) :
    (q - pos + pos',a) ∈ listing size pos' as := by
  induction as generalizing pos pos' with
  | nil => simp [listing] at h
  | cons b as ih =>
    simp only [listing,mem_cons,Prod.mk.injEq] at h ⊢
    rcases h with ⟨rfl,rfl⟩ | h
    · exact .inl ⟨by omega,rfl⟩
    · have hlow := (listing_bounds size h).1
      have hs := ih (pos' + size b) h
      rw [show q - (pos + size b) + (pos' + size b) = q - pos + pos' by omega] at hs
      exact .inr hs

theorem listing_shift (d : Nat) (h : (q,a) ∈ listing size pos as) :
    (q + d,a) ∈ listing size (pos + d) as := by
  have hlow := (listing_bounds size h).1
  have hs := listing_rebase size (pos + d) h
  rwa [show q - pos + (pos + d) = q + d by omega] at hs

theorem listing_map {β : Type} {size' : β → Nat} {f : α → β} (hf : ∀ a,size' (f a) = size a)
    (as : List α) (pos : Nat) :
    listing size' pos (as.map f) = (listing size pos as).map (fun x => (x.1,f x.2)) := by
  induction as generalizing pos with
  | nil => rfl
  | cons a as ih => simp [listing,hf,ih]

theorem mem_listing_of_mem (h : a ∈ as) (pos : Nat) : ∃ q,(q,a) ∈ listing size pos as := by
  induction as generalizing pos with
  | nil => cases h
  | cons b as ih =>
    rcases mem_cons.mp h with rfl | h
    · exact ⟨pos,mem_cons_self⟩
    · obtain ⟨q,hq⟩ := ih h (pos + size b)
      exact ⟨q,mem_cons_of_mem _ hq⟩

theorem mem_of_mem_listing (h : (q,a) ∈ listing size pos as) : a ∈ as := by
  induction as generalizing pos with
  | nil => simp [listing] at h
  | cons b as ih =>
    simp only [listing,mem_cons,Prod.mk.injEq] at h
    rcases h with ⟨rfl,rfl⟩ | h
    · exact mem_cons_self
    · exact mem_cons_of_mem _ (ih h)

theorem listing_unique (hsize : ∀ a,0 < size a) {b : α} (ha : (q,a) ∈ listing size pos as)
    (hb : (q,b) ∈ listing size pos as) : a = b := by
  induction as generalizing pos with
  | nil => simp [listing] at ha
  | cons c as ih =>
    have hc := hsize c
    simp only [listing,mem_cons,Prod.mk.injEq] at ha hb
    rcases ha with ⟨hq,rfl⟩ | ha
    · rcases hb with ⟨-,rfl⟩ | hb
      · rfl
      · have hle := (listing_bounds size hb).1
        omega
    · rcases hb with ⟨hq,rfl⟩ | hb
      · have hle := (listing_bounds size ha).1
        omega
      · exact ih ha hb

theorem listing_offset_unique (has : as.Nodup) {r : Nat} (hq : (q,a) ∈ listing size pos as)
    (hr : (r,a) ∈ listing size pos as) : q = r := by
  induction as generalizing pos with
  | nil => simp [listing] at hq
  | cons c as ih =>
    obtain ⟨hc,has⟩ := nodup_cons.mp has
    simp only [listing,mem_cons,Prod.mk.injEq] at hq hr
    rcases hq with ⟨rfl,rfl⟩ | hq
    · rcases hr with ⟨rfl,-⟩ | hr
      · rfl
      · exact absurd (mem_of_mem_listing size hr) hc
    · rcases hr with ⟨-,rfl⟩ | hr
      · exact absurd (mem_of_mem_listing size hq) hc
      · exact ih has hq hr

theorem listing_offsets_nodup (hsize : ∀ a,0 < size a) (as : List α) (pos : Nat) :
    ((listing size pos as).map Prod.fst).Nodup := by
  induction as generalizing pos with
  | nil => exact nodup_nil
  | cons a as ih =>
    refine nodup_cons.mpr ⟨fun h => ?_,ih _⟩
    obtain ⟨⟨q,b⟩,hq,heq⟩ := List.mem_map.mp h
    have hlow := (listing_bounds size hq).1
    have ha := hsize a
    simp only at heq
    omega

theorem extent_offsets {size' : Nat → Nat}
    (h : ∀ q a,(q,a) ∈ listing size pos as → size' q = size a) :
    extent size' ((listing size pos as).map Prod.fst) = extent size as := by
  induction as generalizing pos with
  | nil => rfl
  | cons a as ih =>
    simp only [listing,map_cons,extent]
    rw [h pos a mem_cons_self,ih (fun q b hq => h q b (mem_cons_of_mem _ hq))]

theorem length_filter_offsets {p : α → Bool} {q : Nat → Bool}
    (h : ∀ r a,(r,a) ∈ listing size pos as → q r = p a) :
    (((listing size pos as).map Prod.fst).filter q).length = (as.filter p).length := by
  induction as generalizing pos with
  | nil => rfl
  | cons a as ih =>
    have hrest := ih (fun r b hr => h r b (mem_cons_of_mem _ hr))
    have ha := h pos a mem_cons_self
    simp only [listing,map_cons,filter_cons,ha]
    split <;> simp [hrest]

theorem extent_aligned {unit : Nat} (hsize : ∀ a,size a % unit = 0) (as : List α) :
    extent size as % unit = 0 := by
  induction as with
  | nil => exact Nat.zero_mod _
  | cons a as ih => rw [extent,Nat.add_mod,hsize a,ih]; simp

theorem listing_aligned {unit : Nat} (hsize : ∀ a,size a % unit = 0) (hpos : pos % unit = 0)
    (h : (q,a) ∈ listing size pos as) :
    q % unit = 0 := by
  induction as generalizing pos with
  | nil => simp [listing] at h
  | cons b as ih =>
    simp only [listing,mem_cons,Prod.mk.injEq] at h
    rcases h with ⟨rfl,rfl⟩ | h
    · exact hpos
    · refine ih ?_ h
      rw [Nat.add_mod,hpos,hsize b]
      simp

theorem extent_sublist (h : as.Sublist bs) : extent size as ≤ extent size bs := by
  induction h with
  | slnil => exact Nat.le_refl _
  | cons a _ ih => exact Nat.le_trans ih (Nat.le_add_left _ _)
  | cons_cons a _ ih => exact Nat.add_le_add_left ih _

theorem extent_map {β : Type} (f : β → α) (bs : List β) :
    extent size (bs.map f) = extent (fun b => size (f b)) bs := by
  induction bs with
  | nil => rfl
  | cons b bs ih => simp [extent,ih]

theorem extent_congr {size' : α → Nat} (h : ∀ a ∈ as,size' a = size a) :
    extent size' as = extent size as := by
  induction as with
  | nil => rfl
  | cons a as ih =>
    rw [extent,extent,h a mem_cons_self,ih (fun b hb => h b (mem_cons_of_mem _ hb))]

theorem extent_perm (h : as.Perm bs) : extent size as = extent size bs := by
  induction h with
  | nil => rfl
  | cons a _ ih => simp [extent,ih]
  | swap a b l => simp [extent]; omega
  | trans _ _ ih ih' => exact ih.trans ih'

theorem extent_le_of_subset (has : as.Nodup) (hsub : as ⊆ bs) :
    extent size as ≤ extent size bs := by
  obtain ⟨cs,hperm,hsub⟩ := subperm_of_subset has hsub
  exact extent_perm size hperm ▸ extent_sublist size hsub

theorem boundary_starts_item (as : List α) (b : α) (pos q : Nat)
    (h : q ∈ boundaries size pos as) : ∃ a,(q,a) ∈ listing size pos (as ++ [b]) := by
  induction as generalizing pos with
  | nil => exact ⟨b,by simpa [boundaries,listing] using h⟩
  | cons a as ih =>
    rcases mem_cons.mp h with rfl | h
    · exact ⟨a,by simp [listing]⟩
    · obtain ⟨c,hc⟩ := ih _ h
      exact ⟨c,mem_cons_of_mem _ hc⟩

variable (target : α → Nat → Option Nat)

/-- All targets of a list placed at `pos` satisfy `P`. -/
def TargetsIn (P : Nat → Prop) (pos : Nat) (as : List α) : Prop :=
  ∀ p a t,(p,a) ∈ listing size pos as → target a p = some t → P t

def Closed (as : List α) : Prop :=
  ∀ pos,TargetsIn size target (· ∈ boundaries size pos as) pos as

variable {size target}

theorem TargetsIn.mono {P Q : Nat → Prop} (h : TargetsIn size target P pos as)
    (hPQ : ∀ t,P t → Q t) :
    TargetsIn size target Q pos as :=
  fun p a t hp ht => hPQ t (h p a t hp ht)

@[simp] theorem targetsIn_nil (P : Nat → Prop) (pos : Nat) : TargetsIn size target P pos [] := by
  intro p a t h
  simp [listing] at h

@[simp] theorem targetsIn_append (P : Nat → Prop) (pos : Nat) (as bs : List α) :
    TargetsIn size target P pos (as ++ bs) ↔
      TargetsIn size target P pos as ∧ TargetsIn size target P (pos + extent size as) bs := by
  simp only [TargetsIn,listing_append,mem_append]
  constructor
  · intro h
    exact ⟨fun p a t hp => h p a t (.inl hp),fun p a t hp => h p a t (.inr hp)⟩
  · rintro ⟨ha,hb⟩ p a t (hp | hp)
    · exact ha p a t hp
    · exact hb p a t hp

@[simp] theorem targetsIn_cons (P : Nat → Prop) (pos : Nat) (a : α) (as : List α) :
    TargetsIn size target P pos (a :: as) ↔
      (∀ t,target a pos = some t → P t) ∧ TargetsIn size target P (pos + size a) as := by
  simp only [TargetsIn,listing,mem_cons,Prod.mk.injEq]
  constructor
  · intro h
    exact ⟨fun t => h pos a t (.inl ⟨rfl,rfl⟩),fun p b t hp => h p b t (.inr hp)⟩
  · rintro ⟨ha,has⟩ p b t (⟨rfl,rfl⟩ | hp)
    · exact ha t
    · exact has p b t hp

theorem Closed.nil : Closed size target [] := fun pos => targetsIn_nil _ pos

theorem Closed.append (ha : Closed size target as) (hb : Closed size target bs) :
    Closed size target (as ++ bs) := by
  intro pos
  rw [targetsIn_append]
  refine ⟨(ha pos).mono ?_,(hb _).mono ?_⟩
  · exact fun t ht => (mem_boundaries_append size as bs pos t).mpr (.inl ht)
  · exact fun t ht => (mem_boundaries_append size as bs pos t).mpr (.inr ht)

theorem Closed.single (h : ∀ pos,target a pos = none) : Closed size target [a] := by
  intro pos
  simp [h]

end Layout
