import SmalltalkA.Scheduler.Model

/-! The work-stealing deque (`deque.c`), one step for each atomic operation: one owner pushes and
pops at the bottom, other threads steal from the top. -/

set_option autoImplicit false

namespace SmalltalkA

open Interleaving List Option

/-- `uint32_t` difference. -/
def sub32 (a b : Nat) : Nat := (a + (2 ^ 32 - b % 2 ^ 32)) % 2 ^ 32

/-- `(int32_t)x > 0`. -/
def positive32 (x : Nat) : Bool := decide (0 < x ∧ x < 2 ^ 31)

/-- `STA_WorkDeque`. The ring has `dequeCapacity` cells, NULL at first. -/
structure WorkDeque (α : Type) where
  top : Nat
  bottom : Nat
  buf : Nat → Option α

/-- The cell that index `i` is kept in: `i & STA_DEQUE_MASK`. -/
def dequeCell (i : Nat) : Nat := i % dequeCapacity

/-- Where the owner is in `sta_deque_push` and `sta_deque_pop`, with its local variables. -/
inductive OwnerPc (α : Type) where
  | idle
  | pushTop (a : α) (b : Nat)
  | pushStore (a : α) (b : Nat)
  | pushPublish (a : α) (b : Nat)
  | popStore (b : Nat)
  | popTop (b : Nat)
  | popRestore (b : Nat)
  | popLoad (b t : Nat)
  | popCas (a : Option α) (t : Nat)
  | popReset (t : Nat) (result : Option α)

/-- Where a thread is in `sta_deque_steal`. -/
inductive StealPc (α : Type) where
  | idle
  | bottom (t : Nat)
  | load (t : Nat)
  | cas (t : Nat) (a : Option α)

/-- A deque with its threads. The logs are of the accepted pushes, of what pops returned and of the
steals with the index taken, latest first; `pushes` counts the calls. -/
structure DequeSys (α : Type) where
  dq : WorkDeque α
  owner : OwnerPc α
  stealers : List (StealPc α)
  pushes : Nat
  accepted : List α
  popped : List (Option α)
  stolen : List (Nat × Option α)

inductive DequeEvent (α : Type) where
  | push (a : α)
  | pop
  | owner
  | steal (i : Nat)

section

variable {α : Type}

namespace DequeSys

def start (n : Nat) : DequeSys α :=
  ⟨⟨0,0,fun _ => none⟩,.idle,List.replicate n .idle,0,[],[],[]⟩

def setOwner (s : DequeSys α) (pc : OwnerPc α) : DequeSys α := { s with owner := pc }

def setBottom (s : DequeSys α) (b : Nat) : DequeSys α := { s with dq := { s.dq with bottom := b } }

def setTop (s : DequeSys α) (t : Nat) : DequeSys α := { s with dq := { s.dq with top := t } }

def setCell (s : DequeSys α) (i : Nat) (a : α) : DequeSys α :=
  { s with dq := { s.dq with buf := Function.update s.dq.buf (dequeCell i) (some a) } }

def popReturns (s : DequeSys α) (r : Option α) : DequeSys α :=
  { s with owner := .idle,popped := r :: s.popped }

end DequeSys

def ownerStep (s : DequeSys α) : Option (DequeSys α) :=
  match s.owner with
  | .idle => none
  | .pushTop a b =>
    if dequeCapacity ≤ sub32 b s.dq.top then some (s.setOwner .idle)
    else some (s.setOwner (.pushStore a b))
  | .pushStore a b => some ((s.setCell b a).setOwner (.pushPublish a b))
  | .pushPublish a b =>
    some { (s.setBottom ((b + 1) % 2 ^ 32)).setOwner .idle with accepted := a :: s.accepted }
  | .popStore b => some ((s.setBottom b).setOwner (.popTop b))
  | .popTop b =>
    if positive32 (sub32 s.dq.top b) then some (s.setOwner (.popRestore b))
    else some (s.setOwner (.popLoad b s.dq.top))
  | .popRestore b => some ((s.setBottom ((b + 1) % 2 ^ 32)).popReturns none)
  | .popLoad b t =>
    let a := s.dq.buf (dequeCell b)
    if t = b then some (s.setOwner (.popCas a t)) else some (s.popReturns a)
  | .popCas a t =>
    if s.dq.top = t then some ((s.setTop ((t + 1) % 2 ^ 32)).setOwner (.popReset t a))
    else some (s.setOwner (.popReset t none))
  | .popReset t r => some ((s.setBottom ((t + 1) % 2 ^ 32)).popReturns r)

/-- One atomic operation of a stealing thread; a steal that fails leaves no trace. -/
def stealerStep (s : DequeSys α) : StealPc α → DequeSys α × StealPc α
  | .idle => (s,.bottom s.dq.top)
  | .bottom t => if positive32 (sub32 s.dq.bottom t) then (s,.load t) else (s,.idle)
  | .load t => (s,.cas t (s.dq.buf (dequeCell t)))
  | .cas t a =>
    if s.dq.top = t then
      ({ s.setTop ((t + 1) % 2 ^ 32) with stolen := (t,a) :: s.stolen },.idle)
    else (s,.idle)

def dequeStep (s : DequeSys α) : DequeEvent α → Option (DequeSys α)
  | .push a =>
    match s.owner with
    | .idle => some { s.setOwner (.pushTop a s.dq.bottom) with pushes := s.pushes + 1 }
    | _ => none
  | .pop =>
    match s.owner with
    | .idle =>
      if s.dq.bottom = 0 then some (s.popReturns none)
      else some (s.setOwner (.popStore (s.dq.bottom - 1)))
    | _ => none
  | .owner => ownerStep s
  | .steal i =>
    (s.stealers[i]?).map (fun pc =>
      let (s,pc) := stealerStep s pc
      { s with stealers := s.stealers.set i pc })

/-! ### What is in the deque -/

/-- One past the last index that still holds an element. Until it is decided who gets the last
element, a pop has taken nothing. -/
def DequeSys.last (s : DequeSys α) : Nat :=
  match s.owner with
  | .popTop b | .popRestore b => b + 1
  | .popLoad b t => if t = b then b + 1 else b
  | .popCas _ t | .popReset t _ => t + 1
  | _ => s.dq.bottom

/-- The cells of the indices from `t` to before `b`. -/
def cells (buf : Nat → Option α) (t b : Nat) : List (Option α) :=
  (List.range' t (b - t)).map (fun i => buf (dequeCell i))

def DequeSys.contents (s : DequeSys α) : List (Option α) := cells s.dq.buf s.dq.top s.last

def DequeSys.underway (s : DequeSys α) : List (Option α) :=
  match s.owner with
  | .popLoad b t => if t = b then [] else [s.dq.buf (dequeCell b)]
  | .popReset _ (some a) => [some a]
  | _ => []

def OwnerPc.Fits (d : WorkDeque α) (stolen : List (Nat × Option α)) : OwnerPc α → Prop
  | .idle => True
  | .pushTop _ b => b = d.bottom
  | .pushStore _ b => b = d.bottom ∧ b < d.top + dequeCapacity
  | .pushPublish a b => b = d.bottom ∧ b < d.top + dequeCapacity ∧ d.buf (dequeCell b) = some a
  | .popStore b => d.bottom = b + 1
  | .popTop b => d.bottom = b
  | .popRestore b => d.bottom = b ∧ d.top = b + 1
  | .popLoad b t => d.bottom = b ∧ t ≤ b ∧ d.buf (dequeCell b) ≠ none ∧
      (t = b → d.top = t ∨ d.top = t + 1 ∧ ∃ a,(t,some a) ∈ stolen)
  | .popCas a t => d.bottom = t ∧ a = d.buf (dequeCell t) ∧ a ≠ none ∧
      (d.top = t ∨ d.top = t + 1 ∧ ∃ a,(t,some a) ∈ stolen)
  | .popReset t r => d.bottom = t ∧ d.top = t + 1 ∧ (r = none → ∃ a,(t,some a) ∈ stolen)

/-- A stealing thread has seen a `top` that may be old; if it is not, the element it has read is
there. -/
def StealPc.Fits (d : WorkDeque α) (last : Nat) : StealPc α → Prop
  | .idle => True
  | .bottom t => t ≤ d.top
  | .load t => t ≤ d.top ∧ (d.top = t → t < last)
  | .cas t a => t ≤ d.top ∧ (d.top = t → t < last ∧ a = d.buf (dequeCell t))

/-- The owner is inside `sta_deque_push`. -/
def OwnerPc.pushing : OwnerPc α → Nat
  | .pushTop _ _ | .pushStore _ _ | .pushPublish _ _ => 1
  | _ => 0

/-- Every accepted element has been returned once, is about to be, or is in the deque. -/
def DequeSys.EachOnce [DecidableEq α] (s : DequeSys α) : Prop :=
  ∀ a,s.accepted.count a = s.popped.count (some a) + (s.stolen.map Prod.snd).count (some a) +
    s.underway.count (some a) + s.contents.count (some a)

structure DequeOk [DecidableEq α] (s : DequeSys α) : Prop where
  order : s.dq.top ≤ s.last
  room : s.last ≤ s.dq.top + dequeCapacity
  below : s.last ≤ s.accepted.length
  calls : s.accepted.length + s.owner.pushing ≤ s.pushes
  owner : s.owner.Fits s.dq s.stolen
  stealers : ∀ pc ∈ s.stealers,pc.Fits s.dq s.last
  full : ∀ i,s.dq.top ≤ i → i < s.last → s.dq.buf (dequeCell i) ≠ none
  taken : ∀ x ∈ s.stolen,x.2 ≠ none
  once : s.EachOnce

/-! ### Indices and cells -/

variable {b t : Nat} {a : α} {e : DequeEvent α}

theorem sub32_of_le {a : Nat} (hb : b ≤ a) (ha : a < 2 ^ 32) : sub32 a b = a - b := by
  unfold sub32
  omega

theorem positive32_sub32 {a : Nat} (hab : a ≤ b + 1024) (hba : b ≤ a + 1024) :
    positive32 (sub32 a b) = decide (b < a) := by
  unfold positive32 sub32
  rw [decide_eq_decide]
  omega

theorem cells_empty (buf : Nat → Option α) (h : b ≤ t) : cells buf t b = [] := by
  simp [cells,Nat.sub_eq_zero_of_le h]

theorem cells_last (buf : Nat → Option α) (h : t ≤ b) :
    cells buf t (b + 1) = cells buf t b ++ [buf (dequeCell b)] := by
  have hb : t + (b - t) = b := by omega
  simp [cells,show b + 1 - t = b - t + 1 by omega,range'_concat,hb]

theorem cells_first (buf : Nat → Option α) (h : t < b) :
    cells buf t b = buf (dequeCell t) :: cells buf (t + 1) b := by
  simp [cells,show b - t = b - (t + 1) + 1 by omega,range'_succ]

theorem dequeCell_ne {i : Nat} (hi : i < b) (hb : b < i + dequeCapacity) :
    dequeCell i ≠ dequeCell b := by
  unfold dequeCell dequeCapacity at *
  omega

theorem cells_update {buf : Nat → Option α} (h : b < t + dequeCapacity) (v : Option α) :
    cells (Function.update buf (dequeCell b) v) t b = cells buf t b := by
  unfold cells
  refine map_congr_left (fun i hi => ?_)
  rw [mem_range'_1] at hi
  have hne : dequeCell i ≠ dequeCell b := dequeCell_ne (by omega) (by omega)
  simp [hne]

theorem StealPc.Fits.keep {d d' : WorkDeque α} {l l' : Nat} {pc : StealPc α} (h : pc.Fits d l)
    (htop : d.top ≤ d'.top) (hold : d'.top = d.top → d.top < l →
      d.top < l' ∧ d'.buf (dequeCell d.top) = d.buf (dequeCell d.top)) : pc.Fits d' l' := by
  cases pc with
  | idle => trivial
  | bottom t => exact Nat.le_trans h htop
  | load t =>
    refine ⟨Nat.le_trans h.1 htop,fun ht => ?_⟩
    have hsame : d.top = t := by
      have := h.1
      omega
    have hkeep := hold (by omega) (hsame ▸ h.2 hsame)
    omega
  | cas t a =>
    refine ⟨Nat.le_trans h.1 htop,fun ht => ?_⟩
    have hsame : d.top = t := by
      have := h.1
      omega
    obtain ⟨hlt,ha⟩ := h.2 hsame
    subst hsame
    have hkeep := hold ht hlt
    exact ⟨hkeep.1,ha.trans hkeep.2.symm⟩

theorem OwnerPc.Fits.stolen {d : WorkDeque α} {l : List (Nat × Option α)} {pc : OwnerPc α}
    (h : pc.Fits d l) (hlt : ∀ q b r,(pc = .popRestore b → d.top ≠ b + 1) ∧ (pc = .popReset q r →
      d.top ≠ q + 1) ∧ (pc = .popLoad q q ∨ pc = .popCas r q → d.top = q)) :
    pc.Fits { d with top := d.top + 1 } ((d.top,some a) :: l) := by
  cases pc with
  | idle => trivial
  | pushTop x b => exact h
  | pushStore x b => exact ⟨h.1,Nat.lt_trans h.2 (by simp only; omega)⟩
  | pushPublish x b => exact ⟨h.1,Nat.lt_trans h.2.1 (by simp only; omega),h.2.2⟩
  | popStore b => exact h
  | popTop b => exact h
  | popRestore b => exact absurd h.2 ((hlt 0 b none).1 rfl)
  | popLoad b q =>
    refine ⟨h.1,h.2.1,h.2.2.1,fun hq => ?_⟩
    have htop := (hlt q 0 none).2.2 (.inl (by rw [hq]))
    exact .inr ⟨by simp only; omega,a,by simp [htop]⟩
  | popCas x q =>
    have htop := (hlt q 0 x).2.2 (.inr rfl)
    exact ⟨h.1,h.2.1,h.2.2.1,.inr ⟨by simp only; omega,a,by simp [htop]⟩⟩
  | popReset q r => exact absurd h.2.1 ((hlt q 0 r).2.1 rfl)

theorem dequeStep_pushes {s s' : DequeSys α} {e : DequeEvent α} (h : dequeStep s e = some s') :
    s.pushes ≤ s'.pushes := by
  cases e with
  | push a =>
    simp only [dequeStep] at h
    split at h <;> cases h
    exact Nat.le_succ _
  | pop =>
    simp only [dequeStep] at h
    repeat' split at h
    all_goals
      cases h
      try exact Nat.le_refl _
  | owner =>
    simp only [dequeStep,ownerStep] at h
    repeat' split at h
    all_goals
      cases h
      try exact Nat.le_refl _
  | steal i =>
    simp only [dequeStep,map_eq_some_iff] at h
    obtain ⟨pc,-,rfl⟩ := h
    cases pc <;> simp only [stealerStep]
    case bottom => split <;> exact Nat.le_refl _
    case cas => split <;> exact Nat.le_refl _
    all_goals exact Nat.le_refl _

/-! ### One step -/

variable [DecidableEq α] {s s' : DequeSys α}

theorem DequeOk.push (hok : DequeOk s) (h : dequeStep s (.push a) = some s') : DequeOk s' := by
  obtain ⟨⟨top,bottom,buf⟩,owner,stealers,pushes,accepted,popped,stolen⟩ := s
  cases owner with
  | idle =>
    cases h
    obtain ⟨order,room,below,calls,howner,hsteal,full,taken,once⟩ := hok
    refine ⟨order,room,below,?_,rfl,hsteal,full,taken,once⟩
    simp only [OwnerPc.pushing,DequeSys.setOwner] at calls ⊢
    omega
  | _ => cases h

theorem DequeOk.pop (hok : DequeOk s) (h : dequeStep s .pop = some s') : DequeOk s' := by
  obtain ⟨⟨top,bottom,buf⟩,owner,stealers,pushes,accepted,popped,stolen⟩ := s
  cases owner with
  | idle =>
    obtain ⟨order,room,below,calls,howner,hsteal,full,taken,once⟩ := hok
    simp only [dequeStep] at h
    split at h <;> cases h
    · refine ⟨order,room,below,calls,trivial,hsteal,full,taken,fun a => ?_⟩
      have := once a
      simpa [DequeSys.popReturns,DequeSys.underway,DequeSys.contents,DequeSys.last] using this
    · next hb =>
      refine ⟨order,room,below,calls,?_,hsteal,full,taken,once⟩
      simp only [OwnerPc.Fits,DequeSys.setOwner]
      omega
  | _ => cases h

theorem DequeOk.quiet (hok : DequeOk s) {pc : OwnerPc α} {r : List (Option α)}
    (hlast : DequeSys.last { s with dq := { s.dq with bottom := b },owner := pc } = s.last)
    (hpush : pc.pushing ≤ s.owner.pushing) (hfits : pc.Fits { s.dq with bottom := b } s.stolen) (hr
      : ∀ a,r.count (some a) + (DequeSys.underway { s with owner := pc }).count (some a) =
      s.popped.count (some a) + s.underway.count (some a)) :
    DequeOk { s with dq := { s.dq with bottom := b },owner := pc,popped := r } := by
  obtain ⟨order,room,below,calls,howner,hsteal,full,taken,once⟩ := hok
  let t : DequeSys α := { s with dq := { s.dq with bottom := b },owner := pc,popped := r }
  have hlast' : t.last = s.last := hlast
  refine ⟨hlast' ▸ order,hlast' ▸ room,hlast' ▸ below,?_,hfits,fun p hp => ?_,
    fun i hi hl => full i hi (hlast' ▸ hl),taken,fun a => ?_⟩
  · simp only at calls ⊢
    omega
  · exact (hsteal p hp).keep (Nat.le_refl _) (fun _ hlt => ⟨hlast' ▸ hlt,rfl⟩)
  · have hcontents : t.contents = s.contents := by
      simp only [DequeSys.contents,hlast']
      rfl
    have hunder : t.underway = DequeSys.underway { s with owner := pc } := rfl
    have := once a
    have := hr a
    simp only [t] at hcontents hunder
    rw [hcontents,hunder]
    simp only
    omega

theorem DequeOk.pushing_step (hok : DequeOk s) (hp : s.pushes < 2 ^ 32)
    (hpc : s.owner = .pushTop a b ∨ s.owner = .pushStore a b ∨ s.owner = .pushPublish a b)
    (h : ownerStep s = some s') : DequeOk s' := by
  obtain ⟨⟨top,bottom,buf⟩,owner,stealers,pushes,accepted,popped,stolen⟩ := s
  rcases hpc with hpc | hpc | hpc <;> simp only at hpc <;> subst hpc
  · obtain ⟨order,room,below,calls,howner,hsteal,full,taken,once⟩ := hok
    simp only [DequeSys.last,OwnerPc.Fits,OwnerPc.pushing] at order below calls howner hp
    simp only [ownerStep] at h
    rw [sub32_of_le (by omega) (by omega)] at h
    have hok : DequeOk ⟨⟨top,bottom,buf⟩,.pushTop a b,stealers,pushes,accepted,popped,stolen⟩ :=
      ⟨order,room,below,calls,howner,hsteal,full,taken,once⟩
    split at h <;> cases h
    · exact hok.quiet rfl (Nat.zero_le _) trivial (fun _ => rfl)
    · refine hok.quiet rfl (Nat.le_refl _) ⟨howner,?_⟩ (fun _ => rfl)
      simp only
      omega
  · obtain ⟨order,room,below,calls,⟨rfl,hroom⟩,hsteal,full,taken,once⟩ := hok
    cases h
    simp only [DequeSys.last] at order hroom
    have hold : ∀ i,top ≤ i → i < b → dequeCell i ≠ dequeCell b :=
      fun i hi hib => dequeCell_ne hib (by omega)
    refine ⟨order,room,below,calls,⟨rfl,hroom,?_⟩,fun pc hpc => ?_,fun i hi hib => ?_,taken,
      fun x => ?_⟩
    · simp [DequeSys.setCell,DequeSys.setOwner]
    · refine (hsteal pc hpc).keep (Nat.le_refl _) (fun _ hlt => ⟨hlt,?_⟩)
      simp [DequeSys.setCell,DequeSys.setOwner,hold top (Nat.le_refl _) hlt]
    · have := full i hi hib
      simpa [DequeSys.setCell,DequeSys.setOwner,hold i hi hib] using this
    · have := once x
      simp only [DequeSys.contents,DequeSys.setCell,DequeSys.setOwner,DequeSys.last,
        DequeSys.underway] at this ⊢
      rw [cells_update hroom]
      exact this
  · obtain ⟨order,room,below,calls,⟨rfl,hroom,hcell⟩,hsteal,full,taken,once⟩ := hok
    cases h
    simp only [DequeSys.last,OwnerPc.pushing] at order room below calls hroom hp
    have hb : (b + 1) % 2 ^ 32 = b + 1 := by omega
    refine ⟨?_,?_,?_,?_,trivial,fun pc hpc => ?_,fun i hi hib => ?_,taken,fun x => ?_⟩
    all_goals simp only [DequeSys.last,DequeSys.setBottom,DequeSys.setOwner,hb,OwnerPc.pushing,
      length_cons] at *
    · omega
    · omega
    · omega
    · omega
    · exact (hsteal pc hpc).keep (Nat.le_refl _) (fun _ hlt => ⟨by simp only at hlt ⊢; omega,rfl⟩)
    · by_cases hi' : i = b
      · simp [hi',hcell]
      · exact full i hi (by omega)
    · have := once x
      simp only [DequeSys.contents,DequeSys.last,DequeSys.underway] at this ⊢
      rw [cells_last buf order,hcell]
      simp only [count_append,count_cons,count_nil] at this ⊢
      simp only [beq_iff_eq,some.injEq] at this ⊢
      omega

theorem DequeOk.take (hok : DequeOk s) {b : Nat} (hpc : s.owner = .popTop b)
    (ht : s.dq.top < b) : DequeOk (s.setOwner (.popLoad b s.dq.top)) := by
  obtain ⟨⟨top,bottom,buf⟩,owner,stealers,pushes,accepted,popped,stolen⟩ := s
  simp only at hpc ht
  subst hpc
  obtain ⟨order,room,below,calls,howner,hsteal,full,taken,once⟩ := hok
  simp only [OwnerPc.Fits] at howner
  subst howner
  simp only [DequeSys.last] at order room below full hsteal
  have hlast : DequeSys.last (DequeSys.setOwner ⟨⟨top,bottom,buf⟩,.popTop bottom,stealers,pushes,
      accepted,popped,stolen⟩ (.popLoad bottom top)) = bottom := by
    simp only [DequeSys.last,DequeSys.setOwner]
    exact if_neg (by omega)
  refine ⟨?_,?_,?_,calls,⟨rfl,?_,?_,?_⟩,fun p hp => ?_,fun i hi hl => ?_,taken,fun a => ?_⟩
  · rw [hlast]
    exact Nat.le_of_lt ht
  · rw [hlast]
    exact Nat.le_trans (Nat.le_succ _) room
  · rw [hlast]
    exact Nat.le_trans (Nat.le_succ _) below
  · exact Nat.le_of_lt ht
  · exact full bottom (Nat.le_of_lt ht) (Nat.lt_succ_self _)
  · exact fun heq => absurd heq (Nat.ne_of_lt ht)
  · rw [hlast]
    exact (hsteal p hp).keep (Nat.le_refl _) (fun _ _ => ⟨ht,rfl⟩)
  · rw [hlast] at hl
    exact full i hi (by omega)
  · have := once a
    simp only [DequeSys.contents,hlast] at this ⊢
    simp only [DequeSys.underway,DequeSys.setOwner,DequeSys.last] at this ⊢
    rw [cells_last buf (Nat.le_of_lt ht)] at this
    rw [if_neg (by omega)]
    simp only [count_append,count_nil] at this ⊢
    omega

theorem DequeOk.win (hok : DequeOk s) (hp : s.pushes < 2 ^ 32) {a : Option α}
    (hpc : s.owner = .popCas a t) (ht : s.dq.top = t) :
    DequeOk ((s.setTop ((t + 1) % 2 ^ 32)).setOwner (.popReset t a)) := by
  obtain ⟨⟨top,bottom,buf⟩,owner,stealers,pushes,accepted,popped,stolen⟩ := s
  simp only at hpc ht
  subst hpc ht
  obtain ⟨order,room,below,calls,⟨hb,ha,hne,-⟩,hsteal,full,taken,once⟩ := hok
  simp only [DequeSys.last,OwnerPc.pushing] at order room below calls hp hb ha
  have htop : (top + 1) % 2 ^ 32 = top + 1 := by omega
  rw [htop]
  refine ⟨Nat.le_refl _,Nat.le_add_right _ _,below,calls,⟨hb,rfl,fun hn => absurd hn hne⟩,
    fun p hp => ?_,fun i hi hl => ?_,taken,fun x => ?_⟩
  · refine (hsteal p hp).keep (Nat.le_succ _) (fun heq => ?_)
    simp only [DequeSys.setTop,DequeSys.setOwner] at heq
    omega
  · simp only [DequeSys.setTop,DequeSys.setOwner,DequeSys.last] at hi hl
    omega
  · have := once x
    obtain ⟨y,rfl⟩ := ne_none_iff_exists'.mp hne
    simp only [DequeSys.contents,DequeSys.last,DequeSys.underway,DequeSys.setTop,
      DequeSys.setOwner] at this ⊢
    rw [cells_first buf (Nat.lt_succ_self _),cells_empty buf (Nat.le_refl _),← ha] at this
    rw [cells_empty buf (Nat.le_refl _)]
    simp only [count_nil] at this ⊢
    omega

theorem DequeOk.owner_step (hok : DequeOk s) (hp : s.pushes < 2 ^ 32) (h : ownerStep s = some s') :
    DequeOk s' := by
  have hcap : dequeCapacity = 1024 := rfl
  have order := hok.order
  have room := hok.room
  have below := hok.below
  have calls := hok.calls
  have howner := hok.owner
  cases hpc : s.owner with
  | idle => simp [ownerStep,hpc] at h
  | pushTop a b => exact hok.pushing_step hp (.inl hpc) h
  | pushStore a b => exact hok.pushing_step hp (.inr (.inl hpc)) h
  | pushPublish a b => exact hok.pushing_step hp (.inr (.inr hpc)) h
  | popStore b =>
    simp only [ownerStep,hpc,some.injEq] at h
    subst h
    rw [hpc] at howner
    refine hok.quiet ?_ (Nat.zero_le _) rfl (fun _ => ?_)
    · simp only [DequeSys.last,hpc]
      exact howner.symm
    · simp [DequeSys.underway,DequeSys.setBottom,hpc]
  | popTop b =>
    rw [hpc] at howner
    simp only [DequeSys.last,hpc] at order room
    simp only [ownerStep,hpc] at h
    rw [positive32_sub32 (by omega) (by omega)] at h
    split at h
    · next hlt =>
      cases h
      have hlt := of_decide_eq_true hlt
      refine hok.quiet ?_ (Nat.zero_le _) ⟨howner,?_⟩ (fun _ => ?_)
      · simp [DequeSys.last,hpc]
      · simp only
        omega
      · simp [DequeSys.underway,hpc]
    · next hlt =>
      cases h
      simp only [decide_eq_true_eq,Nat.not_lt] at hlt
      by_cases heq : s.dq.top = b
      · refine hok.quiet ?_ (Nat.zero_le _) ⟨howner,hlt,?_,fun _ => .inl rfl⟩ (fun _ => ?_)
        · simp [DequeSys.last,hpc,heq]
        · exact hok.full b (by omega) (by simp [DequeSys.last,hpc])
        · simp [DequeSys.underway,hpc,heq]
      · exact hok.take hpc (by omega)
  | popRestore b =>
    rw [hpc] at howner
    obtain ⟨hb,ht⟩ := howner
    simp only [DequeSys.last,hpc] at below
    have hmod : (b + 1) % 2 ^ 32 = b + 1 := by omega
    simp only [ownerStep,hpc,hmod,some.injEq] at h
    subst h
    refine hok.quiet ?_ (Nat.zero_le _) trivial (fun _ => ?_)
    · simp [DequeSys.last,hpc]
    · simp [DequeSys.underway,DequeSys.setBottom,hpc]
  | popLoad b t =>
    rw [hpc] at howner
    obtain ⟨hb,ht,hne,hlast⟩ := howner
    simp only [ownerStep,hpc] at h
    split at h <;> cases h
    · next heq =>
      subst heq
      refine hok.quiet ?_ (Nat.zero_le _) ⟨hb,rfl,hne,hlast rfl⟩ (fun _ => ?_)
      · simp [DequeSys.last,hpc]
      · simp [DequeSys.underway,hpc]
    · next heq =>
      refine hok.quiet ?_ (Nat.zero_le _) trivial (fun _ => ?_)
      · simp [DequeSys.last,hpc,heq,hb]
      · simp [DequeSys.underway,hpc,heq,count_cons]
  | popCas a t =>
    rw [hpc] at howner
    obtain ⟨hb,ha,hne,hlast⟩ := howner
    simp only [ownerStep,hpc] at h
    split at h <;> cases h
    · next heq => exact hok.win hp hpc heq
    · next heq =>
      have hlost := hlast.resolve_left heq
      refine hok.quiet ?_ (Nat.zero_le _) ⟨hb,hlost.1,fun _ => hlost.2⟩ (fun _ => ?_)
      · simp [DequeSys.last,hpc]
      · simp [DequeSys.underway,hpc]
  | popReset t r =>
    rw [hpc] at howner
    obtain ⟨hb,ht,hnone⟩ := howner
    simp only [DequeSys.last,hpc] at below
    have hmod : (t + 1) % 2 ^ 32 = t + 1 := by omega
    simp only [ownerStep,hpc,hmod,some.injEq] at h
    subst h
    refine hok.quiet ?_ (Nat.zero_le _) trivial (fun _ => ?_)
    · simp [DequeSys.last,hpc]
    · cases r <;> simp [DequeSys.underway,DequeSys.setBottom,hpc,count_cons]

theorem DequeOk.bottom_le (hok : DequeOk s) : s.dq.bottom ≤ s.last ∧ s.last ≤ s.dq.bottom + 1 := by
  have howner := hok.owner
  cases hpc : s.owner <;> rw [hpc] at howner <;> simp only [DequeSys.last,hpc]
  case popTop b => exact ⟨howner ▸ Nat.le_succ _,howner ▸ Nat.le_refl _⟩
  case popRestore b => exact ⟨howner.1 ▸ Nat.le_succ _,howner.1 ▸ Nat.le_refl _⟩
  case popLoad b t =>
    have := howner.1
    split <;> omega
  case popCas a t => exact ⟨howner.1 ▸ Nat.le_succ _,howner.1 ▸ Nat.le_refl _⟩
  case popReset t r => exact ⟨howner.1 ▸ Nat.le_succ _,howner.1 ▸ Nat.le_refl _⟩
  all_goals exact ⟨Nat.le_refl _,Nat.le_succ _⟩

theorem DequeOk.set_stealer (hok : DequeOk s) (i : Nat) {pc : StealPc α}
    (hpc : pc.Fits s.dq s.last) : DequeOk { s with stealers := s.stealers.set i pc } := by
  obtain ⟨order,room,below,calls,howner,hsteal,full,taken,once⟩ := hok
  exact ⟨order,room,below,calls,howner,forall_mem_set hsteal hpc,full,taken,once⟩

theorem DequeOk.steal (hok : DequeOk s) (hp : s.pushes < 2 ^ 32) {a : Option α}
    (hlt : s.dq.top < s.last) (ha : a = s.dq.buf (dequeCell s.dq.top)) :
    DequeOk { s.setTop ((s.dq.top + 1) % 2 ^ 32) with stolen := (s.dq.top,a) :: s.stolen } := by
  have hne : a ≠ none := ha ▸ hok.full _ (Nat.le_refl _) hlt
  obtain ⟨order,room,below,calls,howner,hsteal,full,taken,once⟩ := hok
  obtain ⟨x,rfl⟩ := ne_none_iff_exists'.mp hne
  have htop : (s.dq.top + 1) % 2 ^ 32 = s.dq.top + 1 := by omega
  rw [htop]
  refine ⟨hlt,?_,below,calls,?_,fun p hp => ?_,fun i hi hl => full i (Nat.le_of_succ_le hi) hl,
    ?_,fun y => ?_⟩
  · exact Nat.le_trans room (by simp only [DequeSys.setTop]; omega)
  · refine howner.stolen (fun q b r => ⟨fun hpc => ?_,fun hpc => ?_,fun hpc => ?_⟩)
    · simp only [DequeSys.last,hpc] at hlt
      omega
    · simp only [DequeSys.last,hpc] at hlt
      omega
    · rcases hpc with hpc | hpc
      · simp only [DequeSys.last,hpc,if_true] at hlt
        rw [hpc] at howner
        rcases howner.2.2.2 rfl with h | h
        · exact h
        · omega
      · simp only [DequeSys.last,hpc] at hlt
        rw [hpc] at howner
        rcases howner.2.2.2 with h | h
        · exact h
        · omega
  · refine (hsteal p hp).keep (Nat.le_succ _) (fun heq => ?_)
    simp only [DequeSys.setTop] at heq
    omega
  · simp only [mem_cons,forall_eq_or_imp]
    exact ⟨hne,taken⟩
  · have hold := once y
    have hcontents : s.contents = some x :: cells s.dq.buf (s.dq.top + 1) s.last := by
      rw [DequeSys.contents,cells_first _ hlt,← ha]
    rw [hcontents] at hold
    have hnew : DequeSys.contents { s.setTop (s.dq.top + 1) with
        stolen := (s.dq.top,some x) :: s.stolen } = cells s.dq.buf (s.dq.top + 1) s.last := rfl
    have hunder : DequeSys.underway { s.setTop (s.dq.top + 1) with
        stolen := (s.dq.top,some x) :: s.stolen } = s.underway := rfl
    rw [hnew,hunder]
    simp only [DequeSys.setTop,map_cons,count_cons] at hold ⊢
    omega

theorem DequeOk.stealer_step (hok : DequeOk s) (hp : s.pushes < 2 ^ 32) {i : Nat}
    (h : dequeStep s (.steal i) = some s') : DequeOk s' := by
  simp only [dequeStep,map_eq_some_iff] at h
  obtain ⟨pc,hpc,rfl⟩ := h
  have hfits := hok.stealers pc (mem_of_getElem? hpc)
  have hcap : dequeCapacity = 1024 := rfl
  cases pc with
  | idle => exact hok.set_stealer i (Nat.le_refl _)
  | bottom t =>
    simp only [stealerStep]
    split
    · next hpos =>
      refine hok.set_stealer i ⟨hfits,fun ht => ?_⟩
      have hb := hok.bottom_le
      have horder := hok.order
      have hroom := hok.room
      rw [positive32_sub32 (by omega) (by omega)] at hpos
      have hpos := of_decide_eq_true hpos
      omega
    · exact hok.set_stealer i trivial
  | load t => exact hok.set_stealer i ⟨hfits.1,fun ht => ⟨hfits.2 ht,rfl⟩⟩
  | cas t a =>
    simp only [stealerStep]
    split
    · next ht =>
      subst ht
      obtain ⟨hlt,ha⟩ := hfits.2 rfl
      exact (hok.steal hp hlt ha).set_stealer i trivial
    · exact hok.set_stealer i trivial

theorem DequeOk.step (hok : DequeOk s) (hp : s.pushes < 2 ^ 32) (h : dequeStep s e = some s') :
    DequeOk s' := by
  cases e with
  | push a => exact hok.push h
  | pop => exact hok.pop h
  | owner => exact hok.owner_step hp h
  | steal i => exact hok.stealer_step hp h

/-- One operation on the list of elements: `dequePush` at the bottom, or the removal of the bottom
or the top one. -/
inductive ListStep (s s' : DequeSys α) : Prop where
  | none (h : s'.contents = s.contents)
  | push (a : α) (h : s'.contents = s.contents ++ [some a]) (hacc : s'.accepted = a :: s.accepted)
    (hroom : s.contents.length < dequeCapacity)
  | pop (a : Option α) (h : s.contents = s'.contents ++ [a])
  | steal (a : Option α) (h : s.contents = a :: s'.contents)

theorem DequeOk.owner_list_step (hok : DequeOk s) (hp : s.pushes < 2 ^ 32)
    (h : ownerStep s = some s') : ListStep s s' := by
  obtain ⟨⟨top,bottom,buf⟩,owner,stealers,pushes,accepted,popped,stolen⟩ := s
  obtain ⟨order,room,below,calls,howner,-,-,-,-⟩ := hok
  have hmod : ∀ i,i + 1 ≤ accepted.length → (i + 1) % 2 ^ 32 = i + 1 := fun i hi => by
    simp only at hp calls
    omega
  cases owner with
  | idle => cases h
  | pushTop a b =>
    simp only [ownerStep] at h
    split at h <;> cases h <;> exact .none rfl
  | pushStore a b =>
    cases h
    refine .none ?_
    have hb : b = bottom := howner.1
    subst hb
    exact cells_update howner.2 _
  | pushPublish a b =>
    cases h
    obtain ⟨hb,hroom,hcell⟩ := howner
    simp only [DequeSys.last,OwnerPc.pushing] at hb hcell order hroom calls below hp
    subst hb
    have hnext : (b + 1) % 2 ^ 32 = b + 1 := by omega
    refine .push a ?_ rfl ?_
    · simp only [DequeSys.contents,DequeSys.last,DequeSys.setBottom,DequeSys.setOwner]
      rw [hnext,cells_last buf order,hcell]
    · simp only [DequeSys.contents,DequeSys.last,cells,length_map,length_range']
      omega
  | popStore b =>
    cases h
    refine .none ?_
    simp only [DequeSys.contents,DequeSys.last,DequeSys.setBottom,DequeSys.setOwner]
    rw [show bottom = b + 1 from howner]
  | popTop b =>
    simp only [ownerStep] at h
    split at h <;> cases h
    · exact .none rfl
    · by_cases heq : top = b
      · exact .none (by simp [DequeSys.contents,DequeSys.last,DequeSys.setOwner,heq])
      · next hpos =>
        simp only [DequeSys.last] at order room
        have hcap : dequeCapacity = 1024 := rfl
        rw [positive32_sub32 (by omega) (by omega)] at hpos
        simp only [decide_eq_true_eq,Nat.not_lt] at hpos
        refine .pop (buf (dequeCell b)) ?_
        simp only [DequeSys.contents,DequeSys.last,DequeSys.setOwner,if_neg heq]
        exact cells_last buf hpos
  | popRestore b =>
    cases h
    refine .none ?_
    simp only [DequeSys.contents,DequeSys.last,DequeSys.setBottom,DequeSys.popReturns]
    rw [hmod b below]
  | popLoad b t =>
    simp only [ownerStep] at h
    have hb : bottom = b := howner.1
    split at h <;> cases h <;> refine .none ?_ <;> next ht =>
      simp [DequeSys.contents,DequeSys.last,DequeSys.setOwner,DequeSys.popReturns,ht,hb]
  | popCas a t =>
    simp only [ownerStep] at h
    split at h <;> cases h
    · next ht =>
      subst ht
      refine .pop (buf (dequeCell top)) ?_
      simp only [DequeSys.contents,DequeSys.last,DequeSys.setTop,DequeSys.setOwner]
      rw [hmod top below,cells_empty buf (Nat.le_refl _)]
      rw [cells_first buf (Nat.lt_succ_self _),cells_empty buf (Nat.le_refl _)]
      rfl
    · exact .none rfl
  | popReset t r =>
    cases h
    refine .none ?_
    simp only [DequeSys.contents,DequeSys.last,DequeSys.setBottom,DequeSys.popReturns]
    rw [hmod t below]

theorem DequeOk.list_step (hok : DequeOk s) (hp : s.pushes < 2 ^ 32) (h : dequeStep s e = some s') :
    ListStep s s' := by
  cases e with
  | push a =>
    simp only [dequeStep] at h
    split at h <;> cases h
    next hpc => exact .none (by simp [DequeSys.contents,DequeSys.last,DequeSys.setOwner,hpc])
  | pop =>
    simp only [dequeStep] at h
    split at h
    · next hpc =>
      split at h <;> cases h <;> refine .none ?_ <;>
        simp [DequeSys.contents,DequeSys.last,DequeSys.setOwner,DequeSys.popReturns,hpc]
    · cases h
  | owner => exact hok.owner_list_step hp h
  | steal i =>
    simp only [dequeStep,map_eq_some_iff] at h
    obtain ⟨pc,hpc,rfl⟩ := h
    have hfits := hok.stealers pc (mem_of_getElem? hpc)
    cases pc with
    | idle => exact .none rfl
    | bottom t =>
      simp only [stealerStep]
      split <;> exact .none rfl
    | load t => exact .none rfl
    | cas t a =>
      simp only [stealerStep]
      split
      · next ht =>
        subst ht
        obtain ⟨hlt,ha⟩ := hfits.2 rfl
        have hbelow := hok.below
        have hcalls := hok.calls
        have hmod : (s.dq.top + 1) % 2 ^ 32 = s.dq.top + 1 := by omega
        refine .steal a ?_
        rw [hmod,ha]
        exact cells_first s.dq.buf hlt
      · exact .none rfl

/-! ### Runs -/

theorem DequeOk.start (n : Nat) : DequeOk (DequeSys.start n : DequeSys α) := by
  refine ⟨Nat.le_refl _,Nat.zero_le _,Nat.le_refl _,Nat.le_refl _,trivial,fun pc hpc => ?_,
    fun i _ hi => absurd hi (Nat.not_lt_zero i),fun x hx => ?_,fun a => rfl⟩
  · rw [eq_of_mem_replicate hpc]
    trivial
  · exact absurd hx not_mem_nil

theorem DequeOk.run {n : Nat} (h : Path dequeStep (fun _ _ => True) (DequeSys.start n) s)
    (hp : s.pushes < 2 ^ 32) : DequeOk s := by
  induction h with
  | refl => exact DequeOk.start n
  | tail _ _ hs ih =>
    have hle := dequeStep_pushes hs
    exact (ih (by omega)).step (by omega) hs

theorem DequeOk.null_pop (hok : DequeOk s) (h : dequeStep s e = some s')
    (hnull : s'.popped = none :: s.popped) : s.contents = [] := by
  have hgrow : ∀ l : List (Option α),l ≠ none :: l := fun l hl => by
    have := congrArg List.length hl
    simp at this
  cases e with
  | push a =>
    simp only [dequeStep] at h
    split at h <;> cases h
    exact absurd hnull (hgrow _)
  | pop =>
    have horder := hok.order
    simp only [dequeStep] at h
    split at h
    · next hpc =>
      split at h <;> cases h
      · next hb => exact cells_empty _ (by simp only [DequeSys.last,hpc] at *; omega)
      · exact absurd hnull (hgrow _)
    · cases h
  | owner =>
    have howner := hok.owner
    simp only [dequeStep,ownerStep] at h
    cases hpc : s.owner <;> rw [hpc] at h howner <;> simp only at h
    case idle => cases h
    case popRestore b =>
      exact cells_empty _ (by simp only [DequeSys.last,hpc]; exact Nat.le_of_eq howner.2.symm)
    case popReset t r =>
      exact cells_empty _ (by simp only [DequeSys.last,hpc]; exact Nat.le_of_eq howner.2.1.symm)
    case popLoad b t =>
      split at h <;> cases h
      · exact absurd hnull (hgrow _)
      · exact absurd (List.cons.inj hnull).1 howner.2.2.1
    case pushTop => split at h <;> cases h <;> exact absurd hnull (hgrow _)
    case popTop => split at h <;> cases h <;> exact absurd hnull (hgrow _)
    case popCas => split at h <;> cases h <;> exact absurd hnull (hgrow _)
    all_goals
      cases h
      exact absurd hnull (hgrow _)
  | steal i =>
    simp only [dequeStep,map_eq_some_iff] at h
    obtain ⟨pc,-,rfl⟩ := h
    have hsame : ∀ pc,(stealerStep s pc).1.popped = s.popped := by
      intro pc
      cases pc <;> simp only [stealerStep]
      case bottom => split <;> rfl
      case cas => split <;> rfl
    exact absurd ((hsame pc).symm.trans hnull) (hgrow _)

/-- Each accepted actor is returned once or is still there, a steal returns an actor, and a pop that
returns NULL found the deque empty: when it saw one last element, a thread has that one. -/
theorem deque_exactly_once {n : Nat}
    (h : Path dequeStep (fun _ _ => True) (DequeSys.start n) s) (hp : s.pushes < 2 ^ 32) :
    s.EachOnce ∧ (∀ x ∈ s.stolen,x.2 ≠ none) ∧
      ∀ e s',dequeStep s e = some s' → s'.popped = none :: s.popped →
        s.contents = [] ∧ ∀ t,s.owner = .popReset t none → ∃ a,(t,some a) ∈ s.stolen := by
  have hok := DequeOk.run h hp
  refine ⟨hok.once,hok.taken,fun e s' hs hnull => ⟨hok.null_pop hs hnull,fun t ht => ?_⟩⟩
  have howner := hok.owner
  rw [ht] at howner
  exact howner.2.2 rfl

/-- In every run, a step leaves the elements as they are, or is one operation of the owner or of a
thief on the list of them. -/
theorem deque_refines_list {n : Nat} (h : Path dequeStep (fun _ _ => True) (DequeSys.start n) s)
    (hp : s.pushes < 2 ^ 32) (hs : dequeStep s e = some s') : ListStep s s' :=
  (DequeOk.run h hp).list_step hp hs

end

theorem deque_refines_list_push : ∃ s s' : DequeSys Nat,ListStep s s' ∧ s'.contents = [some 7] := by
  have h₁ : Path dequeStep (fun _ _ => True) (DequeSys.start 1) _ :=
    .tail (e := .push 7) .refl trivial rfl
  have h₂ := (h₁.tail (e := .owner) trivial rfl).tail (e := .owner) trivial rfl
  exact ⟨_,_,deque_refines_list (e := .owner) h₂ (by decide) rfl,rfl⟩

/-- A thread and the owner race for the only actor. -/
theorem deque_exactly_once_race : ∃ s : DequeSys Nat,
    s.popped = [none] ∧ s.stolen = [(0,some 7)] ∧ s.EachOnce := by
  have hrun : (runAll dequeStep (fun _ _ => true) [.push 7,.owner,.owner,.owner,.steal 0,.steal 0,
      .pop,.owner,.owner,.steal 0,.steal 0,.owner,.owner,.owner] (DequeSys.start 1)).map
      (fun s => (s.popped,s.stolen,s.pushes)) = some ([none],[(0,some 7)],1) := by
    decide
  obtain ⟨s,hs,hlog⟩ := runAll_map_path hrun
  simp only [Prod.mk.injEq] at hlog
  have hs : Path dequeStep (fun _ _ => True) (DequeSys.start 1) s := hs.mono (fun _ _ _ => trivial)
  exact ⟨s,hlog.1,hlog.2.1,(deque_exactly_once hs (by omega)).1⟩

end SmalltalkA
