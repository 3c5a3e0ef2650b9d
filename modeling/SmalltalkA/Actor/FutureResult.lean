import SmalltalkA.Actor.Future
import SmalltalkA.Actor.DeepCopy

/-! Single assignment of futures: which settling call wins, and what the waits read (`future.c`,
`primitive_table.c`). -/

set_option autoImplicit false

namespace SmalltalkA

open Interleaving ObjectGraph List Function Option

section

variable {V H : Type} {s s' : FutureSys V H}

def FutureOutcome.value : FutureOutcome V H → V
  | .resolve v _ => v
  | .fail r => r

def FutureSys.winner (s : FutureSys V H) (f : Nat) : Option (FutureOutcome V H) := s.wins.lookup f

/-- The thread has won `f` and not published it yet. -/
def FuturePc.settles (f : Nat) : FuturePc V H → Nat
  | .store g _ _ | .publish g _ _ => if g = f then 1 else 0
  | _ => 0

/-- The thread has read the result of `f` and not removed `f` yet. -/
def FuturePc.reads (f : Nat) : FuturePc V H → Nat
  | .waitTake g _ _ | .waitCopy g _ _ | .remove g .wait => if g = f then 1 else 0
  | _ => 0

def FutureSys.settling (s : FutureSys V H) (f : Nat) : Nat := tally (FuturePc.settles f) s.threads
def FutureSys.reading (s : FutureSys V H) (f : Nat) : Nat := tally (FuturePc.reads f) s.threads

/-- Besides, a wait reads a result only while the future is in the table and no other wait is about
to remove it. -/
def readsOk (s : FutureSys V H) : FutureEvent V H → Bool
  | .step i =>
    futureOk s (.step i) &&
      match s.threads[i]? with
      | some (.waitRead f) => decide (f ∈ s.table) && s.reading f == 0
      | _ => true
  | e => futureOk s e

/-- What a future's fields are, by who has won it; `settling` and `reading` count threads, `listed`
says whether the table has the future. -/
def CellOk (c : FutureCell V H) (winner : Option (FutureOutcome V H)) (settling reading : Nat)
    (listed : Prop) : Prop :=
  match winner with
  | none => c.state = .pending ∧ settling = 0
  | some o =>
    c.state = o.transient ∧ settling = 1 ∨
    c.state = o.final ∧ settling = 0 ∧ (c.freed = 0 → c.buf = some o.value) ∧
      ∀ v h,o = .resolve v h → listed → reading = 0 → c.freed = 0 →
        c.heap = h ∧ c.heapLive = h.isSome

def FuturePc.Holds (s : FutureSys V H) : FuturePc V H → Prop
  | .decide _ _ k => k ≠ .wait
  | .store f o k => k ≠ .wait ∧ s.winner f = some o
  | .publish f o k => k ≠ .wait ∧ s.winner f = some o ∧ (s.cell f).buf = some o.value ∧
      ∀ v h,o = .resolve v h → (s.cell f).heap = h ∧ (s.cell f).heapLive = h.isSome
  | .waitRead f => (s.cell f).state = .resolved
  | .waitReason f => (s.cell f).state = .failed
  | .waitTake f v h | .waitCopy f v h => (s.cell f).state = .resolved ∧
      (∃ x,v = some x ∧ s.winner f = some (.resolve x (some h))) ∧
      (s.cell f).heapLive = true ∧ s.reading f = 1
  | _ => True

def FutureSys.Published (s : FutureSys V H) (f : Nat) : Prop :=
  (s.cell f).state = .resolved ∨ (s.cell f).state = .failed

structure SettleOk (s : FutureSys V H) : Prop where
  refs : RefcountOk s
  listed : s.table.Nodup
  cells : ∀ f,CellOk (s.cell f) (s.winner f) (s.settling f) (s.reading f) (f ∈ s.table)
  pcs : ∀ pc ∈ s.threads,pc.Holds s
  fresh : ∀ f,s.made ≤ f → s.winner f = none
  once : (s.wins.map Prod.fst).Nodup
  readings : ∀ r ∈ s.reads,∃ x,s.winner r.future = some (.resolve x r.heap) ∧
    r.value = some x ∧ r.live = true
  reasons : ∀ q ∈ s.reasons,∃ x,s.winner q.1 = some (.fail x) ∧ q.2 = some x

def FuturePc.future : FuturePc V H → Option Nat
  | .idle => none
  | .send f | .decide f _ _ | .store f _ _ | .publish f _ _ | .remove f _ | .release f _
  | .cleanup f | .waitLoad f _ | .waitRecheck f | .waitRead f | .waitTake f _ _
  | .waitCopy f _ _ | .waitReason f => some f

variable {f a b g i n : Nat} {pc pc' : FuturePc V H} {c : FutureCell V H} {l : Prop}
  {w : Option (FutureOutcome V H)} {o : FutureOutcome V H} {k : After}

theorem FuturePc.refs_pos (h : pc.future = some f) : 0 < pc.refs f := by
  cases pc <;> simp_all [FuturePc.future,FuturePc.refs]

theorem FuturePc.settles_eq_zero (h : pc.future ≠ some f) : pc.settles f = 0 := by
  cases pc <;> simp_all [FuturePc.future,FuturePc.settles]

theorem FuturePc.reads_eq_zero (h : pc.future ≠ some f) : pc.reads f = 0 := by
  cases pc with
  | remove g k => cases k <;> simp_all [FuturePc.future,FuturePc.reads]
  | _ => simp_all [FuturePc.future,FuturePc.reads]

def SameResult (c c' : FutureCell V H) : Prop :=
  c'.state = c.state ∧ c'.buf = c.buf ∧ c'.heap = c.heap ∧ c'.heapLive = c.heapLive

theorem FuturePc.Holds.congr (h : pc.Holds s) (hsame : ∀ f,pc.future = some f → SameResult (s.cell
      f) (s'.cell f) ∧ s'.winner f = s.winner f ∧ (s.reading f = 1 → 0 < pc.reads f → s'.reading f =
      s.reading f)) : pc.Holds s' := by
  cases pc with
  | idle | send f | remove f k | release f n | cleanup f | waitLoad f r | waitRecheck f => trivial
  | waitTake f | waitCopy f =>
    obtain ⟨⟨hstate,hbuf,hheap,hlive⟩,hw,hr⟩ := hsame _ rfl
    have hpos : 0 < if f = f then 1 else 0 := by simp
    obtain ⟨h₁,h₂,h₃,h₄⟩ := h
    exact ⟨hstate.trans h₁,hw ▸ h₂,hlive.trans h₃,(hr h₄ hpos).trans h₄⟩
  | _ =>
    obtain ⟨⟨hstate,hbuf,hheap,hlive⟩,hw,-⟩ := hsame _ rfl
    unfold FuturePc.Holds at h ⊢
    simpa only [hstate,hbuf,hheap,hlive,hw] using h

theorem FuturePc.Holds.of_state (h : pc.Holds s) (hf : pc.future = some f) (hreads : pc.reads f ≠ 1)
    (hsettles : pc.settles f ≠ 1) (hstate : (s'.cell f).state = (s.cell f).state) :
    pc.Holds s' := by
  cases pc <;> cases hf
  case store => exact absurd (if_pos rfl) hsettles
  case publish => exact absurd (if_pos rfl) hsettles
  case waitTake => exact absurd (if_pos rfl) hreads
  case waitCopy => exact absurd (if_pos rfl) hreads
  case waitRead => exact hstate.trans h
  case waitReason => exact hstate.trans h
  all_goals exact h

theorem SameResult.of_eq {c' : FutureCell V H} (h : c' = c) : SameResult c c' := by
  subst h
  exact ⟨rfl,rfl,rfl,rfl⟩

theorem CellOk.listed {l' : Prop} (h : CellOk c w a b l) (hl : l' → l) : CellOk c w a b l' := by
  unfold CellOk at h ⊢
  cases w with
  | none => exact h
  | some o =>
    refine h.imp_right (fun ⟨h₁,h₂,h₃,h₄⟩ => ⟨h₁,h₂,h₃,fun v hp ho hl' => ?_⟩)
    exact h₄ v hp ho (hl hl')

theorem CellOk.congr {c' : FutureCell V H} (h : CellOk c w a b l) (hsame : SameResult c c')
    (hfreed : c'.freed = c.freed) :
    CellOk c' w a b l := by
  obtain ⟨hstate,hbuf,hheap,hlive⟩ := hsame
  unfold CellOk at h ⊢
  rw [hstate,hbuf,hheap,hlive,hfreed]
  exact h

def WinsGrow (s s' : FutureSys V H) (f : Nat) : Prop :=
  s'.wins = s.wins ∧ s'.settling f ≤ s.settling f ∨
    ∃ o,s.winner f = none ∧ f < s.made ∧ s'.wins = (f,o) :: s.wins

theorem WinsGrow.winner_of_ne (h : WinsGrow s s' f) (hg : g ≠ f) : s'.winner g = s.winner g := by
  unfold FutureSys.winner
  rcases h with ⟨h,-⟩ | ⟨o,-,-,h⟩
  · rw [h]
  · rw [h,lookup_cons,beq_eq_false_iff_ne.mpr hg]

theorem WinsGrow.winner_mono (h : WinsGrow s s' f) (hg : s.winner g = some o) :
    s'.winner g = some o := by
  by_cases hgf : g = f
  · subst hgf
    rcases h with ⟨h,-⟩ | ⟨o',hnone,-,-⟩
    · rwa [FutureSys.winner,h]
    · cases hnone.symm.trans hg
  · rwa [h.winner_of_ne hgf]

theorem not_mem_keys (h : s.winner f = none) : f ∉ s.wins.map Prod.fst := by
  intro hmem
  obtain ⟨q,hq,rfl⟩ := List.mem_map.mp hmem
  have := lookup_eq_none_iff.mp h q hq
  simp at this

/-- What a step keeps besides: the winners, and the state of a published future. -/
structure SettleStep (s s' : FutureSys V H) : Prop where
  ok : SettleOk s'
  wins : s.wins <:+ s'.wins
  published : ∀ f,s.Published f → (s'.cell f).state = (s.cell f).state

theorem SettleOk.cell_cases (h : SettleOk s) (f : Nat) :
    s.winner f = none ∧ (s.cell f).state = .pending ∧ s.settling f = 0 ∨
    ∃ o,s.winner f = some o ∧ ((s.cell f).state = o.transient ∧ s.settling f = 1 ∨
      (s.cell f).state = o.final ∧ s.settling f = 0 ∧
      ((s.cell f).freed = 0 → (s.cell f).buf = some o.value) ∧
      ∀ v hp,o = .resolve v hp → f ∈ s.table → s.reading f = 0 → (s.cell f).freed = 0 →
        (s.cell f).heap = hp ∧ (s.cell f).heapLive = hp.isSome) := by
  have hok := h.cells f
  unfold CellOk at hok
  cases hw : s.winner f with
  | none =>
    rw [hw] at hok
    exact .inl ⟨rfl,hok⟩
  | some o =>
    rw [hw] at hok
    exact .inr ⟨o,rfl,hok⟩

theorem SettleOk.winner_of_final (h : SettleOk s) (hstate : s.Published f) :
    ∃ o,s.winner f = some o ∧ (s.cell f).state = o.final ∧ s.settling f = 0 ∧
      ((s.cell f).freed = 0 → (s.cell f).buf = some o.value) ∧
      ∀ v hp,o = .resolve v hp → f ∈ s.table → s.reading f = 0 → (s.cell f).freed = 0 →
        (s.cell f).heap = hp ∧ (s.cell f).heapLive = hp.isSome := by
  unfold FutureSys.Published at hstate
  rcases h.cell_cases f with ⟨-,hp,-⟩ | ⟨o,hw,⟨ht,-⟩ | hok⟩
  · simp [hp] at hstate
  · rw [ht] at hstate
    cases o <;> simp [FutureOutcome.transient] at hstate
  · exact ⟨o,hw,hok⟩

theorem SettleOk.transient (h : SettleOk s) (hi : s.threads[i]? = some pc)
    (hpc : pc.settles f = 1) :
    s.settling f = 1 ∧ ∃ o,s.winner f = some o ∧ (s.cell f).state = o.transient := by
  have hle : pc.settles f ≤ s.settling f := le_tally hi (FuturePc.settles f)
  rcases h.cell_cases f with ⟨-,-,h0⟩ | ⟨o,hw,⟨ht,h1⟩ | ⟨-,h0,-⟩⟩
  · omega
  · exact ⟨h1,o,hw,ht⟩
  · omega

/-- A step changes one future only. -/
theorem SettleOk.change (h : SettleOk s) (f : Nat) (hrefs : RefcountOk s')
    (hmade : s.made ≤ s'.made) (hlisted : s'.table.Nodup)
    (htable : ∀ g,g ≠ f → g ∈ s'.table → g ∈ s.table)
    (hcells : ∀ g,g ≠ f → s'.cell g = s.cell g) (hwins : WinsGrow s s' f)
    (htally : ∀ g,g ≠ f → s'.settling g = s.settling g ∧ s'.reading g = s.reading g)
    (hcell : CellOk (s'.cell f) (s'.winner f) (s'.settling f) (s'.reading f) (f ∈ s'.table))
    (hpcs : ∀ pc ∈ s'.threads,pc.Holds s' ∨ pc ∈ s.threads ∧ pc.future ≠ some f)
    (hreads : ∀ r ∈ s'.reads,r ∈ s.reads ∨ ∃ x,s'.winner r.future = some (.resolve x r.heap) ∧
      r.value = some x ∧ r.live = true)
    (hreasons : ∀ q ∈ s'.reasons,q ∈ s.reasons ∨ ∃ x,s'.winner q.1 = some (.fail x) ∧
      q.2 = some x) : SettleStep s s' := by
  refine ⟨⟨hrefs,hlisted,fun g => ?_,fun pc hpc => ?_,fun g hg => ?_,?_,fun r hr => ?_,
    fun q hq => ?_⟩,?_,fun g hg => ?_⟩
  · by_cases hg : g = f
    · exact hg ▸ hcell
    · obtain ⟨hset,hread⟩ := htally g hg
      rw [hcells g hg,hwins.winner_of_ne hg,hset,hread]
      exact (h.cells g).listed (htable g hg)
  · rcases hpcs pc hpc with hpc | ⟨hmem,hne⟩
    · exact hpc
    · refine (h.pcs pc hmem).congr (fun g hg => ?_)
      have hgf : g ≠ f := fun he => hne (he ▸ hg)
      exact ⟨.of_eq (hcells g hgf),hwins.winner_of_ne hgf,fun _ _ => (htally g hgf).2⟩
  · have hnone := h.fresh g (Nat.le_trans hmade hg)
    rcases hwins with ⟨hw,-⟩ | ⟨o,-,hlt,hw⟩
    · rwa [FutureSys.winner,hw]
    · rwa [FutureSys.winner,hw,lookup_cons,beq_eq_false_iff_ne.mpr (by omega)]
  · rcases hwins with ⟨hw,-⟩ | ⟨o,hnone,-,hw⟩
    · exact hw ▸ h.once
    · exact hw ▸ nodup_cons.mpr ⟨not_mem_keys hnone,h.once⟩
  · rcases hreads r hr with hr | hr
    · obtain ⟨x,hx,hv⟩ := h.readings r hr
      exact ⟨x,hwins.winner_mono hx,hv⟩
    · exact hr
  · rcases hreasons q hq with hq | hq
    · obtain ⟨x,hx,hv⟩ := h.reasons q hq
      exact ⟨x,hwins.winner_mono hx,hv⟩
    · exact hq
  · rcases hwins with ⟨hw,-⟩ | ⟨o,-,-,hw⟩
    · exact hw ▸ suffix_rfl
    · exact hw ▸ suffix_cons ..
  · by_cases hgf : g = f
    · -- a published future stays won, and nobody starts to settle it
      subst hgf
      obtain ⟨o,hwin,hfinal,hzero,-⟩ := h.winner_of_final hg
      rw [hwins.winner_mono hwin] at hcell
      rcases hwins with ⟨-,hle⟩ | ⟨o,hnone,-,-⟩
      · rcases hcell with ⟨-,hone⟩ | ⟨hfinal',-⟩
        · omega
        · exact hfinal'.trans hfinal.symm
      · cases hnone.symm.trans hwin
    · rw [hcells g hgf]

/-- The thread that takes the step, and the future it works on before and after. -/
structure Works (s s' : FutureSys V H) (i f : Nat) (pc pc' : FuturePc V H) : Prop where
  here : s.threads[i]? = some pc
  threads : s'.threads = s.threads.set i pc'
  before : ∀ g,g ≠ f → pc.future ≠ some g
  after : ∀ g,g ≠ f → pc'.future ≠ some g

section

variable (h : Works s s' i f pc pc')

include h

theorem Works.tallies (g : Nat) (hg : g ≠ f) :
    s'.settling g = s.settling g ∧ s'.reading g = s.reading g := by
  have hset := tally_set h.here pc' (FuturePc.settles g)
  have hread := tally_set h.here pc' (FuturePc.reads g)
  rw [FuturePc.settles_eq_zero (h.before g hg),FuturePc.settles_eq_zero (h.after g hg)] at hset
  rw [FuturePc.reads_eq_zero (h.before g hg),FuturePc.reads_eq_zero (h.after g hg)] at hread
  unfold FutureSys.settling FutureSys.reading
  rw [h.threads]
  exact ⟨hset,hread⟩

theorem Works.settling :
    s'.settling f + pc.settles f = s.settling f + pc'.settles f := by
  unfold FutureSys.settling
  rw [h.threads]
  exact tally_set h.here pc' (FuturePc.settles f)

theorem Works.reading :
    s'.reading f + pc.reads f = s.reading f + pc'.reads f := by
  unfold FutureSys.reading
  rw [h.threads]
  exact tally_set h.here pc' (FuturePc.reads f)

theorem Works.pcs (hok : SettleOk s) (hnew : pc'.Holds s')
    (hothers : ∀ j q,j ≠ i → s.threads[j]? = some q → q.future = some f → q.Holds s → q.Holds s')
    (q : FuturePc V H) (hq : q ∈ s'.threads) :
    q.Holds s' ∨ q ∈ s.threads ∧ q.future ≠ some f := by
  rw [h.threads] at hq
  obtain ⟨j,hj⟩ := mem_iff_getElem?.mp hq
  by_cases hij : j = i
  · subst hij
    rw [eq_of_getElem?_set hj]
    exact .inl hnew
  · rw [getElem?_set_ne (Ne.symm hij)] at hj
    have hmem := mem_of_getElem? hj
    by_cases hf : q.future = some f
    · exact .inl (hothers j q hij hj hf (hok.pcs q hmem))
    · exact .inr ⟨hmem,hf⟩

end

theorem SettleOk.alive (h : SettleOk s) (hi : s.threads[i]? = some pc) (hf : pc.future = some f) :
    f < s.made ∧ (s.cell f).freed = 0 := by
  have hpos := FuturePc.refs_pos hf
  have hle := le_tally hi (FuturePc.refs f)
  have hcount := h.refs.counted f
  unfold FutureSys.holders at hcount
  have hlt : f < s.made := by
    by_contra hge
    have := (h.refs.unmade f (by omega)).1
    omega
  refine ⟨hlt,?_⟩
  rcases h.refs.freed f hlt with ⟨-,h0⟩ | ⟨h0,-⟩
  · omega
  · exact h0

theorem SettleOk.sole_settler (h : SettleOk s) (hi : s.threads[i]? = some pc)
    (hpc : pc.settles f = 1) (j : Nat) (q : FuturePc V H) (hji : j ≠ i)
    (hj : s.threads[j]? = some q) (hf : q.future = some f) (hq : q.Holds s) : q.Holds s' := by
  obtain ⟨hone,o,-,hstate⟩ := h.transient hi hpc
  have htwo := add_le_tally hi hj (Ne.symm hji) (FuturePc.settles f)
  unfold FutureSys.settling at hone
  have hstate' : (s.cell f).state ≠ .resolved ∧ (s.cell f).state ≠ .failed := by
    rw [hstate]
    cases o <;> simp [FutureOutcome.transient]
  have hnot : q.settles f ≠ 1 := by omega
  cases q <;> cases hf
  case store => exact absurd (if_pos rfl) hnot
  case publish => exact absurd (if_pos rfl) hnot
  case waitReason => exact absurd hq hstate'.2
  case waitRead => exact absurd hq hstate'.1
  case waitTake => exact absurd hq.1 hstate'.1
  case waitCopy => exact absurd hq.1 hstate'.1
  all_goals exact hq

theorem winner_congr (h : s'.wins = s.wins) (g : Nat) : s'.winner g = s.winner g := by
  rw [FutureSys.winner,h]
  rfl

theorem SettleOk.write (h : SettleOk s) (hrefs : RefcountOk s') (hs : s'.cell =
      update s.cell f c ∧ s'.made = s.made ∧ s'.table = s.table ∧ s'.wins = s.wins)
    (htally : ∀ g,g ≠ f → s'.settling g = s.settling g ∧ s'.reading g = s.reading g)
    (hle : s'.settling f ≤ s.settling f)
    (hcell : CellOk c (s.winner f) (s'.settling f) (s'.reading f) (f ∈ s.table))
    (hpcs : ∀ pc ∈ s'.threads,pc.Holds s' ∨ pc ∈ s.threads ∧ pc.future ≠ some f)
    (hreads : ∀ r ∈ s'.reads,r ∈ s.reads ∨ ∃ x,s.winner r.future = some (.resolve x r.heap) ∧
      r.value = some x ∧ r.live = true)
    (hreasons : ∀ q ∈ s'.reasons,q ∈ s.reasons ∨ ∃ x,s.winner q.1 = some (.fail x) ∧ q.2 = some x) :
    SettleStep s s' := by
  obtain ⟨hupd,hmade,htable,hwins⟩ := hs
  have hwin := winner_congr hwins
  refine h.change f hrefs (Nat.le_of_eq hmade.symm) (htable ▸ h.listed)
    (fun g _ hg => htable ▸ hg) (fun g hg => ?_) (.inl ⟨hwins,hle⟩) htally ?_ hpcs
    (fun r hr => ?_) (fun q hq => ?_)
  · rw [hupd]
    exact update_of_ne hg ..
  · rw [hupd,update_self,hwin,htable]
    exact hcell
  · rw [hwin]
    exact hreads r hr
  · rw [hwin]
    exact hreasons q hq

theorem SettleOk.goes_on (h : SettleOk s) (hw : Works s s' i f pc pc') (hrefs : RefcountOk s') (hs :
      s'.cell = s.cell ∧ s'.made = s.made ∧ s'.table = s.table ∧ s'.wins = s.wins ∧ s'.reads =
      s.reads ∧ s'.reasons = s.reasons) (hsettle : pc'.settles f = pc.settles f)
    (hread : pc'.reads f = pc.reads f) (hnew : pc'.Holds s') : SettleStep s s' := by
  obtain ⟨hcell,hmade,htable,hwins,hreads,hreasons⟩ := hs
  have hset := hw.settling
  have hrd := hw.reading
  refine h.write hrefs (c := s.cell f) ⟨by rw [hcell,update_eq_self],hmade,htable,hwins⟩
    hw.tallies (by omega) ?_ (hw.pcs h hnew (fun j q _ _ hq hold => hold.congr (fun g hg => ?_)))
    (fun r hr => .inl (hreads ▸ hr)) (fun q hq => .inl (hreasons ▸ hq))
  · rw [show s'.settling f = s.settling f by omega,show s'.reading f = s.reading f by omega]
    exact h.cells f
  · obtain rfl : f = g := by simpa [hq] using hg
    exact ⟨.of_eq (congrFun hcell f),winner_congr hwins f,fun _ _ => by omega⟩

theorem winner_cons (h : s'.wins = (f,o) :: s.wins) : s'.winner f = some o := by
  simp [FutureSys.winner,h]

theorem SettleOk.win (h : SettleOk s) (hi : s.threads[i]? = some (.decide f o k))
    (hstate : (s.cell f).state = .pending) (hs : futureThreadStep s i (.decide f o k) = some s')
    (hrefs : RefcountOk s') :
    SettleStep s s' := by
  simp only [futureThreadStep,hstate,if_true,some.injEq] at hs
  have hnone : s.winner f = none ∧ s.settling f = 0 := by
    rcases h.cell_cases f with ⟨hw,-,h0⟩ | ⟨o',-,hok⟩
    · exact ⟨hw,h0⟩
    · rw [hstate] at hok
      cases o' <;> simp [FutureOutcome.transient,FutureOutcome.final] at hok
  have hw : Works s s' i f (.decide f o k) (.store f o k) := by
    subst hs
    exact ⟨hi,rfl,fun g hg => by simp [FuturePc.future,Ne.symm hg],
      fun g hg => by simp [FuturePc.future,Ne.symm hg]⟩
  have hset := hw.settling
  simp only [FuturePc.settles,if_true,hnone.2] at hset
  have hcell : s'.cell f = { s.cell f with state := o.transient } := by
    subst hs
    exact update_self ..
  have hwins : s'.wins = (f,o) :: s.wins := by
    subst hs
    rfl
  refine h.change f hrefs (by subst hs; exact Nat.le_refl _) (by subst hs; exact h.listed)
    (fun g _ hg => by subst hs; exact hg) (fun g hg => by subst hs; exact update_of_ne hg ..)
    (.inr ⟨o,hnone.1,(h.alive hi rfl).1,hwins⟩) hw.tallies ?_
    (hw.pcs h ⟨h.pcs _ (mem_of_getElem? hi),winner_cons hwins⟩ (fun j q _ _ hf hq => ?_))
    (fun r hr => .inl (by subst hs; exact hr)) (fun r hr => .inl (by subst hs; exact hr))
  · rw [winner_cons hwins,hcell]
    exact .inl ⟨rfl,by omega⟩
  · -- nobody relies on a future that is still pending
    cases q <;> cases hf <;> simp only [FuturePc.Holds,hstate,hnone.1] at hq ⊢
    all_goals first | exact hq | exact absurd hq.2 (by simp) | exact absurd hq (by simp)

theorem works_step (hi : s.threads[i]? = some pc) (hthreads : s'.threads = s.threads.set i pc')
    (hpc : pc.future = some f) (hpc' : pc'.future = some f ∨ pc'.future = none) :
    Works s s' i f pc pc' := by
  refine ⟨hi,hthreads,fun g hg => by simp [hpc,Ne.symm hg],fun g hg => ?_⟩
  rcases hpc' with h | h <;> simp [h,Ne.symm hg]

theorem After.next_future (f : Nat) (k : After) : (k.next f : FuturePc V H).future = some f := by
  cases k <;> rfl

theorem After.next_settles (f g : Nat) (k : After) : (k.next f : FuturePc V H).settles g = 0 := by
  cases k <;> rfl

theorem After.next_reads (f g : Nat) (hk : k ≠ .wait) : (k.next f : FuturePc V H).reads g = 0 := by
  cases k
  case wait => exact absurd rfl hk
  all_goals rfl

theorem After.next_holds (f : Nat) (k : After) : (k.next f : FuturePc V H).Holds s := by
  cases k <;> trivial

theorem SettleOk.fill (h : SettleOk s) (hi : s.threads[i]? = some (.store f o k))
    (hrefs : RefcountOk s') (hs : futureThreadStep s i (.store f o k) = some s') : SettleStep s s' := by
  cases hs
  obtain ⟨hk,hwin⟩ := h.pcs _ (mem_of_getElem? hi)
  have hone : (FuturePc.store f o k).settles f = 1 := if_pos rfl
  obtain ⟨hset,o',hwin',hstate⟩ := h.transient hi hone
  obtain rfl : o = o' := by simpa [hwin] using hwin'
  have hw : Works s ((s.setCell f ((s.cell f).fill o)).setPc i (.publish f o k)) i f (.store f o k)
      (.publish f o k) := works_step hi rfl rfl (.inl rfl)
  have hsettle := hw.settling
  rw [hone,show (FuturePc.publish f o k).settles f = 1 from if_pos rfl] at hsettle
  refine h.write hrefs ⟨rfl,rfl,rfl,rfl⟩ hw.tallies (by omega) ?_
    (hw.pcs h ⟨hk,hwin,?_,?_⟩ (h.sole_settler hi hone)) (fun r hr => .inl hr) (fun q hq => .inl hq)
  · rw [hwin]
    refine .inl ⟨?_,by omega⟩
    cases o <;> exact hstate
  · rw [show (FutureSys.setPc (s.setCell f ((s.cell f).fill o)) i (.publish f o k)).cell f =
      (s.cell f).fill o from update_self ..]
    cases o <;> rfl
  · rintro v hp rfl
    rw [show (FutureSys.setPc (s.setCell f ((s.cell f).fill (.resolve v hp))) i _).cell f =
      (s.cell f).fill (.resolve v hp) from update_self ..]
    exact ⟨rfl,rfl⟩

theorem SettleOk.publish (h : SettleOk s) (hi : s.threads[i]? = some (.publish f o k))
    (hrefs : RefcountOk s') (hs : futureThreadStep s i (.publish f o k) = some s') :
    SettleStep s s' := by
  cases hs
  obtain ⟨hk,hwin,hbuf,hheap⟩ := h.pcs _ (mem_of_getElem? hi)
  have hone : (FuturePc.publish f o k).settles f = 1 := if_pos rfl
  obtain ⟨hset,-⟩ := h.transient hi hone
  have hw : Works s ((s.setCell f { s.cell f with state := o.final }).setPc i (k.next f)) i f
      (.publish f o k) (k.next f) := works_step hi rfl rfl (.inl (After.next_future f k))
  have hsettle := hw.settling
  rw [hone,After.next_settles] at hsettle
  refine h.write hrefs ⟨rfl,rfl,rfl,rfl⟩ hw.tallies (by omega) ?_
    (hw.pcs h (After.next_holds f k) (h.sole_settler hi hone)) (fun r hr => .inl hr)
    (fun q hq => .inl hq)
  rw [hwin]
  exact .inr ⟨rfl,by omega,fun _ => hbuf,fun v hp ho _ _ _ => hheap v hp ho⟩

theorem CellOk.read {c' : FutureCell V H} {b' : Nat} {l' : Prop} (h : CellOk c w a b l)
    (hb : 0 < b' ∨ ¬l') (hsame : c'.state = c.state ∧ c'.buf = c.buf ∧ c'.freed = c.freed) :
    CellOk c' w a b' l' := by
  obtain ⟨hstate,hbuf,hfreed⟩ := hsame
  unfold CellOk at h ⊢
  rw [hstate,hbuf,hfreed]
  cases w with
  | none => exact h
  | some o =>
    refine h.imp_right (fun ⟨h₁,h₂,h₃,_⟩ => ⟨h₁,h₂,h₃,fun _ _ _ hl h0 => ?_⟩)
    exact hb.elim (by omega) (absurd hl)

theorem CellOk.release (h : CellOk c w a b l) : CellOk c.release w a b l := by
  unfold FutureCell.release
  split
  · unfold CellOk at h ⊢
    cases w with
    | none => exact h
    | some o =>
      refine h.imp_right (fun ⟨h₁,h₂,_⟩ => ⟨h₁,h₂,fun h0 => ?_,fun _ _ _ _ _ h0 => ?_⟩) <;>
        exact absurd h0 (Nat.succ_ne_zero _)
  · exact h.congr ⟨rfl,rfl,rfl,rfl⟩ rfl

section

variable (h : SettleOk s)

include h

theorem SettleOk.release (hrefs : RefcountOk s') (hs : s'.cell = update
      s.cell f (s.cell f).release ∧ s'.made = s.made ∧ s'.table = s.table ∧ s'.wins = s.wins ∧
      s'.reads = s.reads ∧ s'.reasons = s.reasons)
    (htally : ∀ g,s'.settling g = s.settling g ∧ s'.reading g = s.reading g) (hpcs : ∀ pc ∈
      s'.threads,pc.Holds s' ∨ pc ∈ s.threads ∧ (pc.future = some f → (s.cell f).refcount ≠ 1)) :
    SettleStep s s' := by
  obtain ⟨hupd,hmade,htable,hwins,hreads,hreasons⟩ := hs
  refine h.write hrefs ⟨hupd,hmade,htable,hwins⟩ (fun g _ => htally g) (htally f).1.le ?_
    (fun pc hpc => ?_) (fun r hr => .inl (hreads ▸ hr)) (fun q hq => .inl (hreasons ▸ hq))
  · rw [(htally f).1,(htally f).2]
    exact (h.cells f).release
  · rcases hpcs pc hpc with hpc | ⟨hmem,hnot⟩
    · exact .inl hpc
    · by_cases hf : pc.future = some f
      · refine .inl ((h.pcs pc hmem).congr (fun g hg => ?_))
        obtain rfl : f = g := by simpa [hf] using hg
        refine ⟨?_,winner_congr hwins f,fun _ _ => (htally f).2⟩
        rw [hupd,update_self,FutureCell.release,if_neg (hnot hf)]
        exact ⟨rfl,rfl,rfl,rfl⟩
      · exact .inr ⟨hmem,hf⟩

theorem SettleOk.two_holders {q : FuturePc V H} (hf : q.future = some f)
    (hn : n + q.refs f ≤ s.holders f) (hpos : 0 < n) :
    (s.cell f).refcount ≠ 1 := by
  have hcount := h.refs.counted f
  have := FuturePc.refs_pos hf
  omega

theorem SettleOk.thread_release (hi : s.threads[i]? = some pc)
    (hpc : pc.future = some f) (hpc' : pc'.future = some f ∨ pc'.future = none)
    (hrefs : RefcountOk s') (hthreads : s'.threads = s.threads.set i pc') (hs : s'.cell =
      update s.cell f (s.cell f).release ∧ s'.made = s.made ∧ s'.table = s.table ∧ s'.wins
      = s.wins ∧ s'.reads = s.reads ∧ s'.reasons = s.reasons)
    (hquiet : pc.settles f = 0 ∧ pc.reads f = 0 ∧ pc'.settles f = 0 ∧ pc'.reads f = 0)
    (hnew : pc'.Holds s') : SettleStep s s' := by
  have hw : Works s s' i f pc pc' := works_step hi hthreads hpc hpc'
  have hset := hw.settling
  have hread := hw.reading
  refine h.release hrefs hs (fun g => ?_) (fun q hq => ?_)
  · by_cases hg : g = f
    · subst hg
      exact ⟨by omega,by omega⟩
    · exact hw.tallies g hg
  · rw [hthreads] at hq
    obtain ⟨j,hj⟩ := mem_iff_getElem?.mp hq
    by_cases hij : j = i
    · subst hij
      rw [eq_of_getElem?_set hj]
      exact .inl hnew
    · rw [getElem?_set_ne (Ne.symm hij)] at hj
      refine .inr ⟨mem_of_getElem? hj,fun hf => ?_⟩
      have htwo := add_le_tally hi hj (Ne.symm hij) (FuturePc.refs f)
      refine h.two_holders hf (n := pc.refs f) ?_ (FuturePc.refs_pos hpc)
      unfold FutureSys.holders
      omega

theorem SettleOk.removed (hi : s.threads[i]? = some (.remove f k))
    (hf : f ∈ s.table) (hrefs : RefcountOk s') (hs : futureThreadStep s i (.remove f k) = some s') :
    SettleStep s s' := by
  simp only [futureThreadStep,h.refs.remove_table hf,some.injEq] at hs
  have hw : Works s s' i f (.remove f k) (if k = .cleanup then .cleanup f else .release f 1) := by
    subst hs
    exact works_step hi rfl rfl (.inl (by split <;> rfl))
  have hset := hw.settling
  have hread := hw.reading
  have hsettles : (FuturePc.remove f k : FuturePc V H).settles f = 0 := rfl
  have hnew : (if k = .cleanup then .cleanup f else .release f 1 : FuturePc V H).settles f = 0 ∧
      (if k = .cleanup then .cleanup f else .release f 1 : FuturePc V H).reads f = 0 := by
    split <;> exact ⟨rfl,rfl⟩
  have hwin : ∀ g,s'.winner g = s.winner g := fun g => by
    subst hs
    rfl
  have hcell : ∀ g,s'.cell g = s.cell g := fun g => by
    subst hs
    rfl
  have htable : s'.table = s.table.erase f := by
    subst hs
    rfl
  refine h.change f hrefs (by subst hs; exact Nat.le_refl _) (htable ▸ h.listed.erase f)
    (fun g _ hg => mem_of_mem_erase (htable ▸ hg)) (fun g _ => hcell g)
    (.inl ⟨by subst hs; rfl,by omega⟩) hw.tallies ?_
    (hw.pcs h (by split <;> trivial) (fun j q hji hj hq hold => ?_))
    (fun r hr => .inl (by subst hs; exact hr)) (fun q hq => .inl (by subst hs; exact hq))
  · rw [hcell,hwin,show s'.settling f = s.settling f by omega,htable]
    exact (h.cells f).read (.inr h.listed.not_mem_erase) ⟨rfl,rfl,rfl⟩
  · refine hold.congr (fun g hg => ?_)
    obtain rfl : f = g := by simpa [hq] using hg
    refine ⟨.of_eq (hcell f),hwin f,fun hone hpos => ?_⟩
    -- a reader that counts itself only is not the thread that removes the future
    have htwo := add_le_tally hi hj (Ne.symm hji) (FuturePc.reads f)
    unfold FutureSys.reading at hone hread ⊢
    omega

theorem SettleOk.result (hi : s.threads[i]? = some (.waitRead f))
    (hf : f ∈ s.table) (hnone : s.reading f = 0) :
    ∃ x hp,s.winner f = some (.resolve x hp) ∧ (s.cell f).buf = some x ∧ (s.cell f).heap = hp ∧
      (s.cell f).heapLive = hp.isSome := by
  have hstate : (s.cell f).state = .resolved := h.pcs _ (mem_of_getElem? hi)
  obtain ⟨o,hwin,hfinal,-,hbuf,hheap⟩ := h.winner_of_final (.inl hstate)
  have hfreed := (h.alive hi rfl).2
  cases o with
  | resolve x hp =>
    obtain ⟨h₁,h₂⟩ := hheap x hp rfl hf hnone hfreed
    exact ⟨x,hp,hwin,hbuf hfreed,h₁,h₂⟩
  | fail x =>
    rw [hstate] at hfinal
    cases hfinal

theorem SettleOk.reads (hw : Works s s' i f (.waitRead f) pc')
    (hrefs : RefcountOk s') (hnone : s.reading f = 0) (hs : s'.cell = s.cell ∧ s'.made = s.made ∧
      s'.table = s.table ∧ s'.wins = s.wins ∧ s'.reasons = s.reasons) (hsettles : pc'.settles f = 0)
    (hone : pc'.reads f = 1) (hnew : s'.reading f = 1 → s'.winner f = s.winner f → pc'.Holds s')
      (hreads : ∀ r ∈ s'.reads,r ∈ s.reads ∨ ∃ x,s.winner r.future = some (.resolve x r.heap) ∧
      r.value = some x ∧ r.live = true) : SettleStep s s' := by
  obtain ⟨hcell,hmade,htable,hwins,hreasons⟩ := hs
  have hset := hw.settling
  have hread := hw.reading
  have h₀ : (FuturePc.waitRead f : FuturePc V H).settles f = 0 ∧
    (FuturePc.waitRead f : FuturePc V H).reads f = 0 := ⟨rfl,rfl⟩
  have hwin := winner_congr hwins f
  refine h.write hrefs (c := s.cell f)
    ⟨by rw [hcell,update_eq_self],hmade,htable,hwins⟩ hw.tallies (by omega) ?_
    (hw.pcs h (hnew (by omega) hwin) (fun j q hji hj hf hold => hold.congr (fun g hg => ?_)))
    hreads (fun q hq => .inl (hreasons ▸ hq))
  · rw [show s'.settling f = s.settling f by omega]
    exact (h.cells f).read (.inl (by omega)) ⟨rfl,rfl,rfl⟩
  · obtain rfl : f = g := by simpa [hf] using hg
    exact ⟨.of_eq (congrFun hcell f),hwin,fun hr => by omega⟩

theorem SettleOk.reader (hw : Works s s' i f pc pc') (hrefs : RefcountOk s')
    (hone : s.reading f = 1) (hs : s'.cell = update s.cell f c ∧ s'.made = s.made ∧
      s'.table = s.table ∧ s'.wins = s.wins ∧ s'.reasons = s.reasons)
    (hc : c.state = (s.cell f).state ∧ c.buf = (s.cell f).buf ∧ c.freed = (s.cell f).freed)
    (hstate : (s.cell f).state = .resolved) (hpc : pc.reads f = 1 ∧ pc'.reads f = 1)
    (hsettles : pc.settles f = 0 ∧ pc'.settles f = 0) (hnew : s'.reading f = 1 → pc'.Holds s')
      (hreads : ∀ r ∈ s'.reads,r ∈ s.reads ∨ ∃ x,s.winner r.future = some (.resolve x r.heap) ∧
      r.value = some x ∧ r.live = true) : SettleStep s s' := by
  obtain ⟨hcell,hmade,htable,hwins,hreasons⟩ := hs
  have hset := hw.settling
  have hread := hw.reading
  have hstate' : (s'.cell f).state = (s.cell f).state := by
    rw [hcell,update_self]
    exact hc.1
  refine h.write hrefs ⟨hcell,hmade,htable,hwins⟩ hw.tallies (by omega) ?_
    (hw.pcs h (hnew (by omega)) (fun j q hji hj hf hold => ?_)) hreads
    (fun q hq => .inl (hreasons ▸ hq))
  · rw [show s'.settling f = s.settling f by omega]
    exact (h.cells f).read (.inl (by omega)) hc
  · obtain ⟨-,-,-,hzero,-⟩ := h.winner_of_final (.inl hstate)
    have hle := le_tally hj (FuturePc.settles f)
    have htwo := add_le_tally hw.here hj (Ne.symm hji) (FuturePc.reads f)
    unfold FutureSys.reading at hone
    unfold FutureSys.settling at hzero
    exact hold.of_state hf (by omega) (by omega) hstate'

end

theorem FuturePc.Holds.of_failed (h : pc.Holds s) (hf : pc.future = some f)
    (hfailed : (s.cell f).state = .failed) (hsettles : pc.settles f ≠ 1)
    (hstate : (s'.cell f).state = (s.cell f).state) : pc.Holds s' := by
  cases pc <;> cases hf
  case store => exact absurd (if_pos rfl) hsettles
  case publish => exact absurd (if_pos rfl) hsettles
  case waitTake => exact absurd (hfailed.symm.trans h.1) nofun
  case waitCopy => exact absurd (hfailed.symm.trans h.1) nofun
  case waitRead => exact hstate.trans h
  case waitReason => exact hstate.trans h
  all_goals exact h

theorem SettleOk.reason (h : SettleOk s) (hw : Works s s' i f (.waitReason f) (.remove f .wait))
    (hrefs : RefcountOk s') (hs : s'.cell = s.cell ∧ s'.made = s.made ∧ s'.table = s.table ∧ s'.wins
      = s.wins ∧ s'.reads = s.reads ∧ s'.reasons = (f,(s.cell f).buf) :: s.reasons) :
    SettleStep s s' := by
  obtain ⟨hcell,hmade,htable,hwins,hreads,hreasons⟩ := hs
  have hstate : (s.cell f).state = .failed := h.pcs _ (mem_of_getElem? hw.here)
  obtain ⟨o,hwin,hfinal,hzero,hbuf,-⟩ := h.winner_of_final (.inr hstate)
  have hset := hw.settling
  have hread := hw.reading
  rw [show (FuturePc.waitReason f : FuturePc V H).settles f = 0 from rfl,
    show (FuturePc.remove f .wait : FuturePc V H).settles f = 0 from rfl] at hset
  rw [show (FuturePc.waitReason f : FuturePc V H).reads f = 0 from rfl,
    show (FuturePc.remove f .wait : FuturePc V H).reads f = 1 from if_pos rfl] at hread
  refine h.write hrefs (c := s.cell f)
    ⟨by rw [hcell,update_eq_self],hmade,htable,hwins⟩ hw.tallies (by omega) ?_
    (hw.pcs h trivial (fun j q hji hj hf hold => ?_)) (fun r hr => .inl (hreads ▸ hr))
    (fun q hq => ?_)
  · rw [show s'.settling f = s.settling f by omega]
    exact (h.cells f).read (.inl (by omega)) ⟨rfl,rfl,rfl⟩
  · have hle := le_tally hj (FuturePc.settles f)
    unfold FutureSys.settling at hzero
    exact hold.of_failed hf hstate (by omega) (by rw [hcell])
  · rw [hreasons] at hq
    rcases mem_cons.mp hq with rfl | hq
    · cases o with
      | resolve x hp =>
        rw [hstate] at hfinal
        cases hfinal
      | fail x => exact .inr ⟨x,hwin,hbuf (h.alive hw.here rfl).2⟩
    · exact .inl hq

theorem waitNext_holds (hcell : s'.cell = s.cell) (hpc : pc.Holds s') :
    (waitNext f (s.cell f).state pc).Holds s' := by
  cases hst : (s.cell f).state
  case resolved => exact (congrArg (fun c => (c f).state) hcell).trans hst
  case failed => exact (congrArg (fun c => (c f).state) hcell).trans hst
  all_goals exact hpc

theorem waitNext_quiet (f : Nat) (st : FutureState) (pc : FuturePc V H)
    (hpc : pc.future = some f ∧ pc.settles f = 0 ∧ pc.reads f = 0) :
    (waitNext f st pc).future = some f ∧ (waitNext f st pc).settles f = 0 ∧
      (waitNext f st pc).reads f = 0 := by
  cases st <;> first | exact hpc | exact ⟨rfl,rfl,rfl⟩

theorem SettleOk.thread_step (h : SettleOk s) (hi : s.threads[i]? = some pc)
    (hremove : ∀ f k,pc = .remove f k → f ∈ s.table)
    (hread : ∀ f,pc = .waitRead f → f ∈ s.table ∧ s.reading f = 0)
    (hs : futureThreadStep s i pc = some s') : SettleStep s s' := by
  have hrefs := h.refs.thread_step hi hremove hs
  have hpc := h.pcs pc (mem_of_getElem? hi)
  cases pc with
  | idle => cases hs
  | send f => cases hs
  | decide f o k =>
    by_cases hstate : (s.cell f).state = .pending
    · exact h.win hi hstate hs hrefs
    · simp only [futureThreadStep,hstate,if_false,some.injEq] at hs
      subst hs
      exact h.goes_on (works_step hi rfl rfl (.inl (After.next_future f k))) hrefs
        ⟨rfl,rfl,rfl,rfl,rfl,rfl⟩ (After.next_settles f f k) (After.next_reads f f hpc)
        (After.next_holds f k)
  | store f o k => exact h.fill hi hrefs hs
  | publish f o k => exact h.publish hi hrefs hs
  | remove f k => exact h.removed hi (hremove f k rfl) hrefs hs
  | release f n =>
    cases n with
    | zero =>
      cases hs
      exact h.thread_release hi rfl (.inr rfl) hrefs rfl ⟨rfl,rfl,rfl,rfl,rfl,rfl⟩
        ⟨rfl,rfl,rfl,rfl⟩ trivial
    | succ n =>
      cases hs
      exact h.thread_release hi rfl (.inl rfl) hrefs rfl ⟨rfl,rfl,rfl,rfl,rfl,rfl⟩
        ⟨rfl,rfl,rfl,rfl⟩ trivial
  | cleanup f =>
    cases hs
    exact h.thread_release hi rfl (.inr rfl) hrefs rfl ⟨rfl,rfl,rfl,rfl,rfl,rfl⟩
      ⟨rfl,rfl,rfl,rfl⟩ trivial
  | waitLoad f root =>
    cases hs
    have hquiet := waitNext_quiet f (s.cell f).state
      (if root then .release f 0 else .waitRecheck f : FuturePc V H)
      (by cases root <;> exact ⟨rfl,rfl,rfl⟩)
    exact h.goes_on (works_step hi rfl rfl (.inl hquiet.1)) hrefs ⟨rfl,rfl,rfl,rfl,rfl,rfl⟩
      hquiet.2.1 hquiet.2.2 (waitNext_holds rfl (by cases root <;> trivial))
  | waitRecheck f =>
    cases hs
    have hquiet := waitNext_quiet f (s.cell f).state (.release f 0 : FuturePc V H) ⟨rfl,rfl,rfl⟩
    exact h.goes_on (works_step hi rfl rfl (.inl hquiet.1)) hrefs ⟨rfl,rfl,rfl,rfl,rfl,rfl⟩
      hquiet.2.1 hquiet.2.2 (waitNext_holds rfl trivial)
  | waitRead f =>
    obtain ⟨hf,hnone⟩ := hread f rfl
    obtain ⟨x,hp,hwin,hbuf,hheap,hlive⟩ := h.result hi hf hnone
    simp only [futureThreadStep,hheap] at hs
    cases hp with
    | none =>
      cases hs
      refine h.reads (works_step hi rfl rfl (.inl rfl)) hrefs hnone ⟨rfl,rfl,rfl,rfl,rfl⟩ rfl
        (if_pos rfl) (fun _ _ => trivial) (fun r hr => ?_)
      rcases mem_cons.mp hr with rfl | hr
      · exact .inr ⟨x,hwin,hbuf,rfl⟩
      · exact .inl hr
    | some hp =>
      cases hs
      exact h.reads (works_step hi rfl rfl (.inl rfl)) hrefs hnone ⟨rfl,rfl,rfl,rfl,rfl⟩ rfl
        (if_pos rfl) (fun hone _ => ⟨hpc,⟨x,hbuf,hwin⟩,hlive,hone⟩) (fun r hr => .inl hr)
  | waitTake f v hp =>
    cases hs
    obtain ⟨hstate,hv,hlive,hone⟩ := hpc
    refine h.reader (works_step hi rfl rfl (.inl rfl)) hrefs hone ⟨rfl,rfl,rfl,rfl,rfl⟩
      ⟨rfl,rfl,rfl⟩ hstate ⟨if_pos rfl,if_pos rfl⟩ ⟨rfl,rfl⟩ (fun h₁ => ?_) (fun r hr => .inl hr)
    have hcell : (FutureSys.setPc (s.setCell f { s.cell f with heap := none }) i
        (.waitCopy f v hp)).cell f = { s.cell f with heap := none } := update_self ..
    refine ⟨?_,hv,?_,h₁⟩
    · rw [hcell]
      exact hstate
    · rw [hcell]
      exact hlive
  | waitCopy f v hp =>
    cases hs
    obtain ⟨hstate,⟨x,hv,hwin⟩,hlive,hone⟩ := hpc
    refine h.reader (works_step hi rfl rfl (.inl rfl)) hrefs hone ⟨rfl,rfl,rfl,rfl,rfl⟩
      ⟨rfl,rfl,rfl⟩ hstate ⟨if_pos rfl,if_pos rfl⟩ ⟨rfl,rfl⟩ (fun _ => trivial) (fun r hr => ?_)
    rcases mem_cons.mp hr with rfl | hr
    · exact .inr ⟨x,hwin,hv,hlive⟩
    · exact .inl hr
  | waitReason f =>
    cases hs
    exact h.reason (works_step hi rfl rfl (.inl rfl)) hrefs ⟨rfl,rfl,rfl,rfl,rfl,rfl⟩

theorem works_begin (hi : s.threads[i]? = some .idle) (hthreads : s'.threads = s.threads.set i pc')
    (hpc' : pc'.future = some f ∨ pc'.future = none) : Works s s' i f .idle pc' := by
  refine ⟨hi,hthreads,fun g _ => nofun,fun g hg => ?_⟩
  rcases hpc' with h | h <;> simp [h,Ne.symm hg]

theorem SettleOk.ask (h : SettleOk s) {i : Nat} (hi : s.threads[i]? = some .idle)
    (hrefs : RefcountOk s')
    (hs : s' = { (s.setCell s.made (.new s.nextId)).setPc i (.send s.made) with
      made := s.made + 1,nextId := inc32 s.nextId,table := s.made :: s.table }) :
    SettleStep s s' := by
  have hnone : ∀ (j : Nat) (q : FuturePc V H),s.threads[j]? = some q →
      q.future ≠ some s.made := fun j q hj hf =>
    absurd (h.alive hj hf).1 (Nat.lt_irrefl _)
  have hmem : s.made ∉ s.table := by
    intro hmem
    have hcount := h.refs.counted s.made
    have hzero := (h.refs.unmade s.made (Nat.le_refl _)).1
    have hpos := count_pos_iff.mpr hmem
    unfold FutureSys.holders at hcount
    omega
  have hw : Works s s' i s.made .idle (.send s.made) := by
    subst hs
    exact works_begin hi rfl (.inl rfl)
  have hset : s'.settling s.made = s.settling s.made := hw.settling
  have hfresh := h.cells s.made
  have hwin := h.fresh s.made (Nat.le_refl _)
  rw [hwin] at hfresh
  refine h.change s.made hrefs (by subst hs; exact Nat.le_succ _)
    (by subst hs; exact nodup_cons.mpr ⟨hmem,h.listed⟩) (fun g hg hmem => ?_)
    (fun g hg => by subst hs; exact update_of_ne hg ..) (.inl ⟨by subst hs; rfl,hset.le⟩)
    hw.tallies ?_ (hw.pcs h trivial (fun j q _ hj hf _ => absurd hf (hnone j q hj)))
    (fun r hr => .inl (by subst hs; exact hr)) (fun q hq => .inl (by subst hs; exact hq))
  · subst hs
    exact (mem_cons.mp hmem).resolve_left hg
  · have hwin' : s'.winner s.made = none := by
      subst hs
      exact hwin
    rw [hwin',show s'.cell s.made = .new s.nextId by subst hs; exact update_self ..]
    exact ⟨rfl,hset.trans hfresh.2⟩

theorem SettleOk.retain (h : SettleOk s) (hrefs : RefcountOk s') (hs : s'.cell =
      update s.cell f c ∧ s'.made = s.made ∧ s'.table = s.table ∧ s'.wins = s.wins ∧
      s'.reads = s.reads ∧ s'.reasons = s.reasons) (hres : SameResult (s.cell f) c)
    (hfreed : c.freed = (s.cell f).freed)
    (htally : ∀ g,s'.settling g = s.settling g ∧ s'.reading g = s.reading g)
    (hpcs : ∀ pc ∈ s'.threads,pc.Holds s' ∨ pc ∈ s.threads) : SettleStep s s' := by
  obtain ⟨hupd,hmade,htable,hwins,hreads,hreasons⟩ := hs
  refine h.write hrefs ⟨hupd,hmade,htable,hwins⟩ (fun g _ => htally g) (htally f).1.le ?_
    (fun pc hpc => .inl ?_) (fun r hr => .inl (hreads ▸ hr)) (fun q hq => .inl (hreasons ▸ hq))
  · rw [(htally f).1,(htally f).2]
    exact (h.cells f).congr hres hfreed
  · rcases hpcs pc hpc with hpc | hmem
    · exact hpc
    · refine (h.pcs pc hmem).congr (fun g _ => ⟨?_,winner_congr hwins g,fun _ _ => (htally g).2⟩)
      rw [hupd]
      by_cases hg : g = f
      · subst hg
        rwa [update_self]
      · exact .of_eq (update_of_ne hg ..)

theorem Purpose.next_begins (f : Nat) (p : Purpose V H) :
    ((p.next f).future = some f ∨ (p.next f).future = none) ∧ (∀ g,(p.next f).settles g = 0) ∧
      (∀ g,(p.next f).reads g = 0) ∧ (p.next f).Holds s := by
  cases p with
  | reply o => cases o <;> exact ⟨.inl rfl,fun _ => rfl,fun _ => rfl,by simp [next,FuturePc.Holds]⟩
  | crash r => cases r <;> exact ⟨.inl rfl,fun _ => rfl,fun _ => rfl,by simp [next,FuturePc.Holds]⟩
  | wait root => exact ⟨.inl rfl,fun _ => rfl,fun _ => rfl,trivial⟩
  | client => exact ⟨.inr rfl,fun _ => rfl,fun _ => rfl,trivial⟩

theorem SettleOk.drop (h : SettleOk s) (hrefs : RefcountOk s') (hs : s'.cell = update
      s.cell f (s.cell f).release ∧ s'.made = s.made ∧ s'.table = s.table ∧ s'.wins = s.wins ∧
      s'.reads = s.reads ∧ s'.reasons = s.reasons) (hthreads : s'.threads = s.threads)
    (hheld : f ∈ s.asked ∨ f ∈ s.lookups) : SettleStep s s' := by
  refine h.release hrefs hs (fun g => ?_) (fun pc hpc => ?_)
  · unfold FutureSys.settling FutureSys.reading
    rw [hthreads]
    exact ⟨rfl,rfl⟩
  · rw [hthreads] at hpc
    refine .inr ⟨hpc,fun hf => ?_⟩
    obtain ⟨j,hj⟩ := mem_iff_getElem?.mp hpc
    have hle := le_tally hj (FuturePc.refs f)
    refine h.two_holders hf (n := s.asked.count f + s.lookups.count f) ?_ ?_
    · unfold FutureSys.holders
      omega
    · rcases hheld with hm | hm <;>
        have := count_pos_iff.mpr hm <;> omega

theorem SettleOk.step (h : SettleOk s) {e : FutureEvent V H} (hok : readsOk s e = true)
    (hs : futureStep s e = some s') : SettleStep s s' := by
  have hfok : futureOk s e = true := by
    cases e with
    | step i =>
      simp only [readsOk,Bool.and_eq_true] at hok
      exact hok.1
    | _ => exact hok
  have hrefs := h.refs.step hfok hs
  cases e with
  | ask i =>
    simp only [futureStep] at hs
    split at hs <;> cases hs
    rename_i hi
    exact h.ask hi hrefs rfl
  | sent i =>
    simp only [futureStep] at hs
    split at hs <;> cases hs
    rename_i f hi
    exact h.goes_on (works_step hi rfl rfl (.inr rfl)) hrefs ⟨rfl,rfl,rfl,rfl,rfl,rfl⟩ rfl rfl
      trivial
  | sendFailed i reason =>
    simp only [futureStep] at hs
    split at hs <;> cases hs
    · rename_i f r hi
      exact h.goes_on (works_step hi rfl rfl (.inl rfl)) hrefs ⟨rfl,rfl,rfl,rfl,rfl,rfl⟩ rfl rfl
        (by simp [FuturePc.Holds])
    · rename_i f hi
      exact h.goes_on (works_step hi rfl rfl (.inl rfl)) hrefs ⟨rfl,rfl,rfl,rfl,rfl,rfl⟩ rfl rfl
        trivial
  | drop f =>
    simp only [futureStep] at hs
    split at hs <;> cases hs
    rename_i hmem
    exact h.drop hrefs ⟨rfl,rfl,rfl,rfl,rfl,rfl⟩ rfl (.inl hmem)
  | unlook f =>
    simp only [futureStep] at hs
    split at hs <;> cases hs
    rename_i hmem
    exact h.drop hrefs ⟨rfl,rfl,rfl,rfl,rfl,rfl⟩ rfl (.inr hmem)
  | lookup i id p =>
    simp only [futureStep] at hs
    split at hs
    · cases hs
      exact ⟨h,suffix_rfl,fun _ _ => rfl⟩
    · rename_i f hi hf
      obtain ⟨hfut,hset,hread,hholds⟩ := p.next_begins f (s := s')
      split at hs
      · cases hs
        exact h.retain hrefs ⟨rfl,rfl,rfl,rfl,rfl,rfl⟩ ⟨rfl,rfl,rfl,rfl⟩ rfl
          (fun _ => ⟨rfl,rfl⟩) (fun pc hpc => .inr hpc)
      · cases hs
        refine h.retain hrefs ⟨rfl,rfl,rfl,rfl,rfl,rfl⟩ ⟨rfl,rfl,rfl,rfl⟩ rfl (fun g => ?_)
          (fun pc hpc => ?_)
        · have h₁ := tally_set hi (p.next f) (FuturePc.settles g)
          have h₂ := tally_set hi (p.next f) (FuturePc.reads g)
          rw [hset] at h₁
          rw [hread] at h₂
          exact ⟨h₁,h₂⟩
        · rcases mem_or_eq_of_mem_set hpc with hpc | rfl
          · exact .inr hpc
          · exact .inl hholds
    · cases hs
  | step i =>
    simp only [futureStep,bind_eq_some_iff] at hs
    obtain ⟨pc,hi,hs⟩ := hs
    simp only [readsOk,futureOk,hi,Bool.and_eq_true] at hok
    refine h.thread_step hi (fun f k hpc => ?_) (fun f hpc => ?_) hs
    · subst hpc
      simpa using hok.1
    · subst hpc
      simpa using hok.2

theorem SettleOk.start (n : Nat) : SettleOk (FutureSys.start n : FutureSys V H) where
  refs := RefcountOk.start n
  listed := nodup_nil
  cells := by
    intro f
    exact ⟨rfl,by simp [FutureSys.settling,FutureSys.start,tally,FuturePc.settles]⟩
  pcs := by
    intro pc hpc
    rw [eq_of_mem_replicate hpc]
    trivial
  fresh := fun _ _ => rfl
  once := nodup_nil
  readings := nofun
  reasons := nofun

theorem SettleOk.run (h : Path futureStep (fun s e => readsOk s e = true) (FutureSys.start n) s) :
    SettleOk s :=
  h.invariant (SettleOk.start n) (fun _ _ _ hi hok hs => (hi.step hok hs).ok)

theorem SettleStep.run {t : FutureSys V H}
    (h : Path futureStep (fun s e => readsOk s e = true) (FutureSys.start n) s)
    (ht : Path futureStep (fun s e => readsOk s e = true) s t) : SettleStep s t := by
  induction ht with
  | refl => exact ⟨SettleOk.run h,suffix_rfl,fun _ _ => rfl⟩
  | @tail t u e hpath hok hs ih =>
    have hstep := ih.ok.step hok hs
    refine ⟨hstep.ok,ih.wins.trans hstep.wins,fun f hf => ?_⟩
    have hsame := ih.published f hf
    exact (hstep.published f (by rwa [FutureSys.Published,hsame])).trans hsame

theorem mem_of_winner (h : s.winner f = some o) : (f,o) ∈ s.wins := by
  obtain ⟨l,r,hl,-⟩ := lookup_eq_some_iff.mp h
  rw [hl]
  simp

theorem SettleOk.winner_of_mem (h : SettleOk s) (hmem : (f,o) ∈ s.wins) : s.winner f = some o := by
  cases hw : s.winner f with
  | none => exact absurd (List.mem_map.mpr ⟨_,hmem,rfl⟩) (not_mem_keys hw)
  | some o' =>
    have := congrArg Prod.snd (inj_on_of_nodup_map h.once (mem_of_winner hw) hmem rfl)
    exact congrArg some this

end

/-- `copy_future_result` after the read: none for freed memory, 0 for a copy that failed. -/
def copyFutureResult (p : CopyParams) (fuel : Nat) (r : Reading Oop Heap) (s : ActorSpace) :
    Option (ActorSpace × Oop) :=
  match r.value,r.heap with
  | none,_ => none
  | some v,none => some (s,v)
  | some v,some th =>
    if r.live then
      (staDeepCopy p fuel v s).map (fun (s,w) =>
        (s.setMem (s.mem.free th.base th.capacity),w.getD 0))
    else none

/-- What the result `x` stored in `m` leads to, the objects `objs`, is still there, and a copy fits.
-/
structure ResultReady (p : CopyParams) (room fuel : Nat) (m : Memory) (objs : List Oop) (x : Oop)
    (heap : Option Heap) (s : ActorSpace) : Prop where
  graph : GraphOk p.formats m objs
  value : isShared m x = true ∨ heap.isSome = true ∧ x ∈ objs
  objects : ∀ o ∈ objs,s.mem o = m o
  shared : ∀ v,isShared m v = true → isShared s.mem v = true
  transfer : ∀ th,heap = some th → ∀ o : Nat,th.base ≤ o → o < th.base + th.capacity →
    (s.heap.base + s.heap.capacity ≤ o ∨ o < s.heap.base) ∧
    ∀ h,s.mem o = some h → h.isImmutable = false
  ready : s.Ready
  fits : ∃ n,staDeepCopyEstimateRoots p.formats room (fuel + 1) s.mem [x] = some n ∧
    s.heap.used + n ≤ s.heap.capacity
  bounds : objs.length ≤ fuel ∧ objs.length < room ∧ objs.length < p.room

variable {m : Memory}

theorem isShared_free {base size : Nat} {v : Nat} (hv : isShared m v = true)
    (hregion : ∀ o : Nat,base ≤ o → o < base + size → ∀ h,m o = some h → h.isImmutable = false) :
    isShared (m.free base size) v = true := by
  by_cases hin : base ≤ v ∧ v < base + size
  · have hnot : ((m v).map Obj.isImmutable).getD false = false := by
      cases hm : m v with
      | none => rfl
      | some h => exact hregion v hin.1 hin.2 h hm
    simp only [isShared,hnot,Bool.or_false] at hv
    simp only [isShared,hv,Bool.true_or]
  · simp only [isShared,Memory.free,if_neg hin] at hv ⊢
    exact hv

theorem isShared_grow {m' : Memory} {v : Oop} (hv : isShared m v = true)
    (hm : ∀ o h,m o = some h → m' o = some h) : isShared m' v = true := by
  cases ho : m v with
  | none =>
    simp only [isShared,ho,map_none,getD_none,Bool.or_false] at hv
    simp only [isShared,hv,Bool.true_or]
  | some h =>
    simp only [isShared,ho,hm v h ho] at hv ⊢
    exact hv

theorem copyFutureResult_isomorphic {p : CopyParams} {room fuel : Nat} {objs : List Oop} {x : Oop}
    {r : Reading Oop Heap} {s : ActorSpace} (h : ResultReady p room fuel m objs x r.heap s)
    (hvalue : r.value = some x) (hlive : r.live = true) :
    ∃ s' w,copyFutureResult p fuel r s = some (s',w) ∧
      Isomorphic (mutableGraph p.formats m) [x] (mutableGraph p.formats s'.mem) [w] := by
  have hroot : ∀ v ∈ [x],isShared m v = true ∨ v ∈ objs := fun v hv => by
    rw [mem_singleton.mp hv]
    exact h.value.imp_right And.right
  have hkept := h.graph.kept h.objects h.shared hroot
  cases hheap : r.heap with
  | none => exact ⟨s,x,by simp [copyFutureResult,hvalue,hheap],hkept⟩
  | some th =>
    obtain ⟨n,hest,hfit⟩ := h.fits
    obtain ⟨hfuel,hroom,hp⟩ := h.bounds
    obtain ⟨s',w,hcopy,hspace,hsame,hiso⟩ := deepCopy_isomorphic (h.graph.congr h.objects h.shared)
      ((hroot x mem_cons_self).imp_left (h.shared x)) hest h.ready hfit hfuel hroom hp
    have hregion := h.transfer th hheap
    refine ⟨s'.setMem (s'.mem.free th.base th.capacity),w,
      by simp [copyFutureResult,hvalue,hheap,hlive,hcopy],hkept.trans (hiso _ ?_ ?_)⟩
    · intro o hlo hhi
      refine if_neg (fun hin => ?_)
      have := (hregion o hin.1 hin.2).1
      omega
    · intro v hv
      refine isShared_free (isShared_grow hv (fun o obj ho => ?_)) (fun o hlo hhi obj hobj => ?_)
      · rw [hsame o (fun hin => ?_)]
        · exact ho
        · rw [h.ready.free o hin.1 (by omega)] at ho
          cases ho
      · have hr := hregion o hlo hhi
        rw [hsame o (by omega)] at hobj
        exact hr.2 obj hobj

/-- If all steps meet the condition, a future has at most one winner, a published one has one; the
state and result published stay; a wait that reads a result returns a word isomorphic to the
winner's, and one that reads a reason has the winner's. -/
theorem future_single_assignment {n : Nat} {s : FutureSys Oop Heap}
    (h : Path futureStep (fun s e => readsOk s e = true) (FutureSys.start n) s) :
    (s.wins.map Prod.fst).Nodup ∧
    (∀ f,(s.cell f).state = .pending ↔ s.winner f = none) ∧
    (∀ f,s.Published f → ∃ o,s.winner f = some o ∧ (s.cell f).state = o.final ∧
      ((s.cell f).freed = 0 → (s.cell f).buf = some o.value)) ∧
    (∀ t,Path futureStep (fun s e => readsOk s e = true) s t → ∀ f,s.Published f →
      (t.cell f).state = (s.cell f).state ∧ t.winner f = s.winner f ∧
      ((t.cell f).freed = 0 → (s.cell f).freed = 0 → (t.cell f).buf = (s.cell f).buf)) ∧
    (∀ r ∈ s.reads,∃ x,s.winner r.future = some (.resolve x r.heap) ∧
      ∀ p room fuel m objs a,ResultReady p room fuel m objs x r.heap a →
        ∃ a' w,copyFutureResult p fuel r a = some (a',w) ∧
          Isomorphic (mutableGraph p.formats m) [x] (mutableGraph p.formats a'.mem) [w]) ∧
    ∀ q ∈ s.reasons,∃ x,s.winner q.1 = some (.fail x) ∧ q.2 = some x := by
  have hok := SettleOk.run h
  have hpub : ∀ f,s.Published f → ∃ o,s.winner f = some o ∧ (s.cell f).state = o.final ∧
      ((s.cell f).freed = 0 → (s.cell f).buf = some o.value) := fun f hf => by
    obtain ⟨o,hwin,hfinal,-,hbuf,-⟩ := hok.winner_of_final hf
    exact ⟨o,hwin,hfinal,hbuf⟩
  refine ⟨hok.once,fun f => ?_,hpub,fun t ht f hf => ?_,fun r hr => ?_,hok.reasons⟩
  · rcases hok.cell_cases f with ⟨hw,hst,-⟩ | ⟨o,hw,⟨hst,-⟩ | ⟨hst,-⟩⟩ <;> rw [hst,hw]
    · simp
    all_goals cases o <;> simp [FutureOutcome.transient,FutureOutcome.final]
  · obtain ⟨o,hwin,hfinal,hbuf⟩ := hpub f hf
    have hstep := SettleStep.run h ht
    have hstate := hstep.published f hf
    have hwin' := hstep.ok.winner_of_mem (hstep.wins.subset (mem_of_winner hwin))
    refine ⟨hstate,hwin'.trans hwin.symm,fun hfree hfree' => ?_⟩
    have htpub : t.Published f := by rwa [FutureSys.Published,hstate]
    obtain ⟨o',hwin'',-,-,hbuf',-⟩ := hstep.ok.winner_of_final htpub
    obtain rfl : o = o' := by simpa [hwin'] using hwin''
    rw [hbuf' hfree,hbuf hfree']
  · obtain ⟨x,hwin,hvalue,hlive⟩ := hok.readings r hr
    exact ⟨x,hwin,fun p room fuel m objs a ha => copyFutureResult_isomorphic ha hvalue hlive⟩

/-! A result that leads to itself, on a transfer heap of its own. -/

def ringHeap : Heap := ⟨4096,256,32⟩
def ringMemory : Memory := fun o => if o = 4096 then some ⟨clsArray,0,0,0,[4096]⟩ else none
def ringParams : CopyParams := ⟨fun _ => none,none,4⟩
def ringWaiter (m : Memory) : ActorSpace := ⟨⟨65536,64,0⟩,m,[],[]⟩

theorem ringMemory_ready :
    ResultReady ringParams 4 2 ringMemory [4096] 4096 (some ringHeap) (ringWaiter ringMemory) where
  graph := by
    intro o ho
    obtain rfl := mem_singleton.mp ho
    exact ⟨⟨clsArray,0,0,0,[4096]⟩,rfl,by decide,⟨by decide,nofun⟩,fun v hv => .inr hv⟩
  value := .inr ⟨rfl,mem_cons_self⟩
  objects := fun _ _ => rfl
  shared := fun _ hv => hv
  transfer := by
    intro th hth o hlo hhi
    obtain rfl := Option.some.inj hth
    refine ⟨.inr ?_,fun h hh => ?_⟩
    · simp only [ringHeap,ringWaiter] at hhi ⊢
      omega
    · simp only [ringWaiter,ringMemory] at hh
      split at hh <;> cases hh
      rfl
  ready := by
    refine ⟨by decide,by decide,fun o hlo _ => if_neg ?_⟩
    exact Nat.ne_of_gt (Nat.lt_of_lt_of_le (by decide) hlo)
  fits := ⟨32,by decide,by decide⟩
  bounds := by decide

theorem future_single_assignment_ring : ∃ (s : FutureSys Oop Heap) (r : Reading Oop Heap),
    r ∈ s.reads ∧ s.winner r.future = some (.resolve 4096 (some ringHeap)) ∧
    ∃ a' w,copyFutureResult ringParams 2 r (ringWaiter ringMemory) = some (a',w) ∧
      Isomorphic (mutableGraph ringParams.formats ringMemory) [4096]
        (mutableGraph ringParams.formats a'.mem) [w] := by
  have hs : Path futureStep (fun s e => readsOk s e = true)
      (FutureSys.start 2 : FutureSys Oop Heap) _ := runAll_path [.ask 0,.sent 0,
    .lookup 0 1 (.reply (some (.resolve 4096 (some ringHeap)))),.step 0,.step 0,.step 0,.step 0,
    .lookup 1 1 (.wait false),.step 1,.step 1,.step 1,.step 1] rfl
  obtain ⟨-,-,-,-,hresult,-⟩ := future_single_assignment hs
  obtain ⟨x,hwin,hcopy⟩ := hresult _ mem_cons_self
  obtain rfl : x = 4096 := by
    cases hwin
    rfl
  exact ⟨_,_,mem_cons_self,hwin,hcopy _ _ _ _ _ _ ringMemory_ready⟩

/-- While a first wait takes the transfer heap, a second one returns the address in it, which the
first one then frees. -/
theorem second_wait_dangles : ∃ (s : FutureSys Oop Heap) (r : Reading Oop Heap),
    Path futureStep (fun _ _ => True) (FutureSys.start 2) s ∧
    s.winner 0 = some (.resolve 4096 (some ringHeap)) ∧ r ∈ s.reads ∧ r.future = 0 ∧
    copyFutureResult ringParams 2 r (ringWaiter (ringMemory.free 4096 256)) =
      some (ringWaiter (ringMemory.free 4096 256),4096) ∧
    ¬ Isomorphic (mutableGraph ringParams.formats ringMemory) [4096]
      (mutableGraph ringParams.formats (ringMemory.free 4096 256)) [4096] := by
  refine ⟨_,⟨0,some 4096,none,true⟩,runAll_path [.ask 0,.sent 0,
    .lookup 0 1 (.reply (some (.resolve 4096 (some ringHeap)))),.step 0,.step 0,.step 0,.step 0,
    .lookup 0 1 (.wait false),.lookup 1 1 (.wait false),.step 0,.step 1,.step 0,.step 0,.step 1,
    .step 0] rfl,rfl,mem_of_getLast? rfl,rfl,rfl,?_⟩
  rintro ⟨R,hiso,hroots⟩
  cases hroots with
  | cons hrel _ =>
    rcases hrel with ⟨hatom,-⟩ | ⟨-,-,hr⟩
    · exact absurd hatom (show ¬ isShared ringMemory 4096 = true by decide)
    · obtain ⟨l,vs,ws,-,hnode,-⟩ := hiso.nodes _ _ hr
      cases hnode

end SmalltalkA
