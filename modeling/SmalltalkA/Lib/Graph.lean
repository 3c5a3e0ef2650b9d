import Mathlib

/-! Graphs of labelled objects and their isomorphisms. A word is an atom or the address of an
object, which has a label and a list of words. -/

set_option autoImplicit false

namespace ObjectGraph

open List Option

universe u v

structure Graph (A : Type u) (L : Type v) where
  atom : A → Prop
  node : A → Option (L × List A)

variable {A : Type u} {L : Type v} {G H K : Graph A L} {R S : A → A → Prop}

/-- Words that stand for the same: equal atoms, or addresses of related objects. -/
def Related (G H : Graph A L) (R : A → A → Prop) (v w : A) : Prop :=
  G.atom v ∧ H.atom w ∧ v = w ∨ ¬ G.atom v ∧ ¬ H.atom w ∧ R v w

/-- The objects that `R` relates correspond one to one, with equal labels and corresponding
words. -/
structure Iso (G H : Graph A L) (R : A → A → Prop) : Prop where
  functional : ∀ a b b',R a b → R a b' → b = b'
  injective : ∀ a a' b,R a b → R a' b → a = a'
  nodes : ∀ a b,R a b → ∃ l vs ws,G.node a = some (l,vs) ∧ H.node b = some (l,ws) ∧
    List.Forall₂ (Related G H R) vs ws

/-- The parts of the graphs that the words lead to are isomorphic, by one correspondence for all. -/
def Isomorphic (G : Graph A L) (vs : List A) (H : Graph A L) (ws : List A) : Prop :=
  ∃ R,Iso G H R ∧ List.Forall₂ (Related G H R) vs ws

/-- Every word in an object of the set is an atom or leads to an object of the set. -/
def Closed (G : Graph A L) (P : A → Prop) : Prop :=
  ∀ a,P a → ∃ l vs,G.node a = some (l,vs) ∧ ∀ v ∈ vs,G.atom v ∨ P v

theorem Related.trans {u v w : A} (h : Related G H R u v) (h' : Related H K S v w) :
    Related G K (fun a c => ∃ b,R a b ∧ S b c) u w := by
  rcases h with ⟨hu,hv,rfl⟩ | ⟨hu,hv,hr⟩
  · rcases h' with ⟨-,hw,rfl⟩ | ⟨hv',-,-⟩
    · exact .inl ⟨hu,hw,rfl⟩
    · exact absurd hv hv'
  · rcases h' with ⟨hv',-,-⟩ | ⟨-,hw,hs⟩
    · exact absurd hv' hv
    · exact .inr ⟨hu,hw,v,hr,hs⟩

variable {α β : Type u} {xs : List α} {ys : List β} {vs ws : List A} {a : A}

theorem forall₂_trans {γ : Type u} {p : α → β → Prop} {q : β → γ → Prop} {r : α → γ → Prop}
    (hpq : ∀ a b c,p a b → q b c → r a c) {zs : List γ} (h : List.Forall₂ p xs ys)
    (h' : List.Forall₂ q ys zs) :
    List.Forall₂ r xs zs := by
  induction h generalizing zs with
  | nil =>
    cases h'
    exact .nil
  | cons hx _ ih =>
    cases h' with
    | cons hy ht => exact .cons (hpq _ _ _ hx hy) (ih ht)

theorem Iso.trans (h : Iso G H R) (h' : Iso H K S) : Iso G K (fun a c => ∃ b,R a b ∧ S b c) where
  functional := by
    rintro a c c' ⟨b,hb,hc⟩ ⟨b',hb',hc'⟩
    obtain rfl := h.functional a b b' hb hb'
    exact h'.functional b c c' hc hc'
  injective := by
    rintro a a' c ⟨b,hb,hc⟩ ⟨b',hb',hc'⟩
    obtain rfl := h'.injective b b' c hc hc'
    exact h.injective a a' b hb hb'
  nodes := by
    rintro a c ⟨b,hb,hc⟩
    obtain ⟨l,vs,ws,hg,hh,hvw⟩ := h.nodes a b hb
    obtain ⟨l',ws',us,hh',hk,hwu⟩ := h'.nodes b c hc
    rw [hh,some.injEq,Prod.mk.injEq] at hh'
    obtain ⟨rfl,rfl⟩ := hh'
    exact ⟨l,vs,us,hg,hk,forall₂_trans (fun _ _ _ => Related.trans) hvw hwu⟩

theorem Isomorphic.trans {us : List A} (h : Isomorphic G us H vs) (h' : Isomorphic H vs K ws) :
    Isomorphic G us K ws := by
  obtain ⟨R,hR,huv⟩ := h
  obtain ⟨S,hS,hvw⟩ := h'
  exact ⟨_,hR.trans hS,forall₂_trans (fun _ _ _ => Related.trans) huv hvw⟩

theorem Closed.isomorphic {P : A → Prop} (hP : Closed G P)
    (hnode : ∀ a,P a → H.node a = G.node a ∧ ¬ H.atom a) (hatom : ∀ v,G.atom v → H.atom v)
    (hvs : ∀ v ∈ vs,G.atom v ∨ P v) : Isomorphic G vs H vs := by
  have hrel : ∀ v,G.atom v ∨ P v → Related G H (fun a b => a = b ∧ P a) v v := by
    intro v hv
    by_cases ha : G.atom v
    · exact .inl ⟨ha,hatom v ha,rfl⟩
    · have hp := hv.resolve_left ha
      exact .inr ⟨ha,(hnode v hp).2,rfl,hp⟩
  refine ⟨fun a b => a = b ∧ P a,⟨?_,?_,?_⟩,forall₂_same.mpr (fun v hv => hrel v (hvs v hv))⟩
  · rintro a b b' ⟨rfl,-⟩ ⟨rfl,-⟩
    rfl
  · rintro a a' b ⟨rfl,-⟩ ⟨rfl,-⟩
    rfl
  · rintro a b ⟨rfl,ha⟩
    obtain ⟨l,ws,hw,hmem⟩ := hP a ha
    exact ⟨l,ws,ws,hw,(hnode a ha).1.trans hw,forall₂_same.mpr (fun v hv => hrel v (hmem v hv))⟩

theorem Related.symm {v w : A} (h : Related G H R v w) : Related H G (fun b a => R a b) w v :=
  h.imp (fun ⟨hv,hw,he⟩ => ⟨hw,hv,he.symm⟩) (fun ⟨hv,hw,hr⟩ => ⟨hw,hv,hr⟩)

theorem Iso.symm (h : Iso G H R) : Iso H G (fun b a => R a b) where
  functional := fun b a a' hb hb' => h.injective a a' b hb hb'
  injective := fun b b' a hb hb' => h.functional a b b' hb hb'
  nodes := by
    intro b a hab
    obtain ⟨l,vs,ws,hg,hh,hvw⟩ := h.nodes a b hab
    exact ⟨l,ws,vs,hh,hg,hvw.flip.imp (fun _ _ hr => Related.symm hr)⟩

theorem Isomorphic.symm (h : Isomorphic G vs H ws) : Isomorphic H ws G vs := by
  obtain ⟨R,hR,hvw⟩ := h
  exact ⟨_,hR.symm,hvw.flip.imp (fun _ _ hr => Related.symm hr)⟩

/-- The objects that the words lead to. -/
inductive Reachable (G : Graph A L) (vs : List A) : A → Prop
  | root {v : A} (hv : v ∈ vs) (ha : ¬ G.atom v) : Reachable G vs v
  | step {a v : A} {l : L} {ws : List A} (h : Reachable G vs a) (hn : G.node a = some (l,ws))
      (hv : v ∈ ws) (ha : ¬ G.atom v) : Reachable G vs v

theorem forall₂_mem_left {r : α → β → Prop} (h : List.Forall₂ r xs ys) {x : α} (hx : x ∈ xs) :
    ∃ y ∈ ys,r x y := by
  induction h with
  | nil => cases hx
  | cons hr _ ih =>
    rcases mem_cons.mp hx with rfl | hx
    · exact ⟨_,mem_cons_self,hr⟩
    · obtain ⟨y,hy,hxy⟩ := ih hx
      exact ⟨y,mem_cons_of_mem _ hy,hxy⟩

theorem forall₂_mem_right {r : α → β → Prop} (h : List.Forall₂ r xs ys) {y : β} (hy : y ∈ ys) :
    ∃ x ∈ xs,r x y :=
  forall₂_mem_left h.flip hy

theorem forall₂_and {p q : α → β → Prop} (h : List.Forall₂ p xs ys) (h' : List.Forall₂ q xs ys) :
    List.Forall₂ (fun x y => p x y ∧ q x y) xs ys := by
  induction h with
  | nil => exact .nil
  | cons hp _ ih =>
    cases h' with
    | cons hq ht => exact .cons ⟨hp,hq⟩ (ih ht)

theorem Iso.follows (hiso : Iso G H R) (hroots : List.Forall₂ (Related G H R) vs ws)
    (hS : List.Forall₂ (fun v w => ¬ G.atom v → S v w) vs ws) (hstep : ∀ a b l l' us us',S a b →
      G.node a = some (l,us) → H.node b = some (l',us') → List.Forall₂ (fun v w => ¬ G.atom v → S v
      w) us us') (ha : Reachable G vs a) : ∃ b,R a b ∧ S a b := by
  have hpick : ∀ us us' v,List.Forall₂ (Related G H R) us us' →
      List.Forall₂ (fun v w => ¬ G.atom v → S v w) us us' → v ∈ us → ¬ G.atom v →
      ∃ w,R v w ∧ S v w := by
    intro us us' v hrel hs hv hatom
    obtain ⟨w,-,hr,hsw⟩ := forall₂_mem_left (forall₂_and hrel hs) hv
    rcases hr with ⟨hv',-⟩ | ⟨-,-,hr⟩
    · exact absurd hv' hatom
    · exact ⟨w,hr,hsw hatom⟩
  induction ha with
  | root hv hatom => exact hpick vs ws _ hroots hS hv hatom
  | step _ hn hv hatom ih =>
    obtain ⟨b,hab,hs⟩ := ih
    obtain ⟨l,us,us',hg,hh,hrel⟩ := hiso.nodes _ b hab
    rw [hn,some.injEq,Prod.mk.injEq] at hg
    obtain ⟨rfl,rfl⟩ := hg
    exact hpick _ us' _ hrel (hstep _ b _ _ _ us' hs hn hh) hv hatom

theorem Iso.reachable (hiso : Iso G H R) (hroots : List.Forall₂ (Related G H R) vs ws)
    (ha : Reachable G vs a) :
    ∃ b,R a b ∧ Reachable H ws b := by
  induction ha with
  | root hv hatom =>
    obtain ⟨w,hw,hr⟩ := forall₂_mem_left hroots hv
    rcases hr with ⟨hv',-⟩ | ⟨-,hw',hr⟩
    · exact absurd hv' hatom
    · exact ⟨w,hr,.root hw hw'⟩
  | step _ hn hv hatom ih =>
    obtain ⟨b,hab,hb⟩ := ih
    obtain ⟨l,us,us',hg,hh,hrel⟩ := hiso.nodes _ b hab
    rw [hn,some.injEq,Prod.mk.injEq] at hg
    obtain ⟨rfl,rfl⟩ := hg
    obtain ⟨w,hw,hr⟩ := forall₂_mem_left hrel hv
    rcases hr with ⟨hv',-⟩ | ⟨-,hw',hr⟩
    · exact absurd hv' hatom
    · exact ⟨w,hr,.step hb hh hw hw'⟩

theorem Reachable.mem {P : A → Prop} (hP : Closed G P) (hvs : ∀ v ∈ vs,G.atom v ∨ P v)
    (ha : Reachable G vs a) : P a := by
  induction ha with
  | root hv hatom => exact (hvs _ hv).resolve_left hatom
  | step _ hn hv hatom ih =>
    obtain ⟨l,us,hg,hus⟩ := hP _ ih
    rw [hn,some.injEq,Prod.mk.injEq] at hg
    obtain ⟨rfl,rfl⟩ := hg
    exact (hus _ hv).resolve_left hatom

end ObjectGraph
