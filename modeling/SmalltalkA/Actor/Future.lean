import SmalltalkA.Lib.Interleaving
import SmalltalkA.Actor.State

/-! Futures (`future.c`, `future_table.c`) and the routines that create, settle, read and give them
up, one step for each atomic operation and critical section. A future is known by the order of
creation. -/

set_option autoImplicit false

namespace SmalltalkA

open Interleaving List Function

/-- What a call of `sta_future_resolve` or `sta_future_fail` wants to store. -/
inductive FutureOutcome (V H : Type) where
  | resolve (value : V) (heap : Option H)
  | fail (reason : V)

/-- `STA_Future`: `buf` is the only entry of `result_buf`, `heap` the `transfer_heap` and `heapLive`
whether it is still allocated. -/
structure FutureCell (V H : Type) where
  id : Nat
  state : FutureState
  refcount : Nat
  buf : Option V
  heap : Option H
  heapLive : Bool
  freed : Nat

/-- Which routine goes on after the future has been settled: `route_reply`,
`fail_and_cleanup_future`, `fail_future_for_crash` or the wait primitive. -/
inductive After where
  | reply | cleanup | crash | wait
  deriving DecidableEq

/-- Where a thread is; at `release` it has `n` more releases to do. -/
inductive FuturePc (V H : Type) where
  | idle
  | send (f : Nat)
  | decide (f : Nat) (o : FutureOutcome V H) (k : After)
  | store (f : Nat) (o : FutureOutcome V H) (k : After)
  | publish (f : Nat) (o : FutureOutcome V H) (k : After)
  | remove (f : Nat) (k : After)
  | release (f n : Nat)
  | cleanup (f : Nat)
  | waitLoad (f : Nat) (root : Bool)
  | waitRecheck (f : Nat)
  | waitRead (f : Nat)
  | waitTake (f : Nat) (value : Option V) (heap : H)
  | waitCopy (f : Nat) (value : Option V) (heap : H)
  | waitReason (f : Nat)

/-- What a wait has taken from a future: the value, its heap, and whether that was still there. -/
structure Reading (V H : Type) where
  future : Nat
  value : Option V
  heap : Option H
  live : Bool

/-- The futures and the threads. `asked` lists the futures whose asker holds its reference,
`lookups` those a client has looked up and not released; the other lists are records: references
never released, settling calls that won, results and reasons read. -/
structure FutureSys (V H : Type) where
  cell : Nat → FutureCell V H
  made : Nat
  nextId : Nat
  table : List Nat
  threads : List (FuturePc V H)
  asked : List Nat
  lookups : List Nat
  lost : List Nat
  wins : List (Nat × FutureOutcome V H)
  reads : List (Reading V H)
  reasons : List (Nat × Option V)

/-- Why a thread looks a future up. Without memory `route_reply` gives up, and
`fail_future_for_crash` does not fail the future. -/
inductive Purpose (V H : Type) where
  | reply (o : Option (FutureOutcome V H))
  | crash (reason : Option V)
  | wait (root : Bool)
  | client

inductive FutureEvent (V H : Type) where
  | ask (i : Nat)
  | sent (i : Nat)
  | sendFailed (i : Nat) (reason : Option V)
  | drop (f : Nat)
  | lookup (i id : Nat) (p : Purpose V H)
  | unlook (f : Nat)
  | step (i : Nat)

section

variable {V H : Type}

def FutureOutcome.transient : FutureOutcome V H → FutureState
  | .resolve _ _ => .resolving
  | .fail _ => .failing

def FutureOutcome.final : FutureOutcome V H → FutureState
  | .resolve _ _ => .resolved
  | .fail _ => .failed

namespace FutureCell

def new (id : Nat) : FutureCell V H := ⟨id,.pending,2,none,none,false,0⟩

/-- `sta_future_release`. -/
def release (c : FutureCell V H) : FutureCell V H :=
  if c.refcount = 1 then
    { c with refcount := 0,buf := none,heapLive := c.heapLive && c.heap.isNone,freed := c.freed + 1 }
  else { c with refcount := dec32 c.refcount }

/-- The plain stores of the winner; a failure leaves `transfer_heap` alone. -/
def fill (c : FutureCell V H) : FutureOutcome V H → FutureCell V H
  | .resolve v h => { c with buf := some v,heap := h,heapLive := h.isSome }
  | .fail r => { c with buf := some r }

end FutureCell

namespace FutureSys

def start (n : Nat) : FutureSys V H where
  cell := fun _ => ⟨0,.pending,0,none,none,false,0⟩
  made := 0
  nextId := 1
  table := []
  threads := List.replicate n .idle
  asked := []
  lookups := []
  lost := []
  wins := []
  reads := []
  reasons := []

def setPc (s : FutureSys V H) (i : Nat) (pc : FuturePc V H) : FutureSys V H :=
  { s with threads := s.threads.set i pc }

def setCell (s : FutureSys V H) (f : Nat) (c : FutureCell V H) : FutureSys V H :=
  { s with cell := update s.cell f c }

def release (s : FutureSys V H) (f : Nat) : FutureSys V H := s.setCell f (s.cell f).release

/-- `sta_future_table_lookup` without the retain. -/
def find (s : FutureSys V H) (id : Nat) : Option Nat :=
  if id = 0 then none else s.table.find? (fun f => (s.cell f).id == id)

/-- `sta_future_table_remove`. -/
def remove (s : FutureSys V H) (id : Nat) : FutureSys V H :=
  if id = 0 then s else { s with table := s.table.eraseP (fun f => (s.cell f).id == id) }

end FutureSys

def After.next (f : Nat) : After → FuturePc V H
  | .reply => .release f 0
  | k => .remove f k

/-- What a routine does with a future it has looked up; a client just keeps the pointer. -/
def Purpose.next (f : Nat) : Purpose V H → FuturePc V H
  | .reply (some o) => .decide f o .reply
  | .reply none => .release f 0
  | .crash (some r) => .decide f (.fail r) .crash
  | .crash none => .remove f .crash
  | .wait root => .waitLoad f root
  | .client => .idle

def waitNext (f : Nat) (state : FutureState) (pending : FuturePc V H) : FuturePc V H :=
  match state with
  | .resolved => .waitRead f
  | .failed => .waitReason f
  | _ => pending

/-- One atomic operation of thread `i`, which is at `pc`. -/
def futureThreadStep (s : FutureSys V H) (i : Nat) : FuturePc V H → Option (FutureSys V H)
  | .idle | .send _ => none
  | .decide f o k =>
    if (s.cell f).state = .pending then
      some { (s.setCell f { s.cell f with state := o.transient }).setPc i (.store f o k) with
        wins := (f,o) :: s.wins }
    else some (s.setPc i (k.next f))
  | .store f o k => some ((s.setCell f ((s.cell f).fill o)).setPc i (.publish f o k))
  | .publish f o k => some ((s.setCell f { s.cell f with state := o.final }).setPc i (k.next f))
  | .remove f k =>
    some ((s.remove (s.cell f).id).setPc i (if k = .cleanup then .cleanup f else .release f 1))
  | .release f 0 => some ((s.release f).setPc i .idle)
  | .release f (n + 1) => some ((s.release f).setPc i (.release f n))
  | .cleanup f => some { (s.release f).setPc i .idle with lost := f :: s.lost }
  | .waitLoad f root =>
    some (s.setPc i (waitNext f (s.cell f).state (if root then .release f 0 else .waitRecheck f)))
  | .waitRecheck f => some (s.setPc i (waitNext f (s.cell f).state (.release f 0)))
  | .waitRead f =>
    match (s.cell f).heap with
    | some h => some (s.setPc i (.waitTake f (s.cell f).buf h))
    | none =>
      some { s.setPc i (.remove f .wait) with
        reads := ⟨f,(s.cell f).buf,none,true⟩ :: s.reads }
  | .waitTake f v h => some ((s.setCell f { s.cell f with heap := none }).setPc i (.waitCopy f v h))
  | .waitCopy f v h =>
    some { (s.setCell f { s.cell f with heapLive := false }).setPc i (.remove f .wait) with
      reads := ⟨f,v,some h,(s.cell f).heapLive⟩ :: s.reads }
  | .waitReason f =>
    some { s.setPc i (.remove f .wait) with reasons := (f,(s.cell f).buf) :: s.reasons }

def futureStep (s : FutureSys V H) : FutureEvent V H → Option (FutureSys V H)
  | .ask i =>
    match s.threads[i]? with
    | some .idle =>
      some { (s.setCell s.made (.new s.nextId)).setPc i (.send s.made) with
        made := s.made + 1
        nextId := inc32 s.nextId
        table := s.made :: s.table }
    | _ => none
  | .sent i =>
    match s.threads[i]? with
    | some (.send f) => some { s.setPc i .idle with asked := f :: s.asked }
    | _ => none
  | .sendFailed i reason =>
    match s.threads[i]?,reason with
    | some (.send f),some r => some (s.setPc i (.decide f (.fail r) .cleanup))
    | some (.send f),none => some (s.setPc i (.remove f .cleanup))
    | _,_ => none
  | .drop f =>
    if f ∈ s.asked then some { s.release f with asked := s.asked.erase f } else none
  | .lookup i id p =>
    match s.threads[i]?,s.find id with
    | some .idle,none => some s
    | some .idle,some f =>
      let s := s.setCell f { s.cell f with refcount := inc32 (s.cell f).refcount }
      match p with
      | .client => some { s with lookups := f :: s.lookups }
      | p => some (s.setPc i (p.next f))
    | _,_ => none
  | .unlook f =>
    if f ∈ s.lookups then some { s.release f with lookups := s.lookups.erase f } else none
  | .step i => (s.threads[i]?).bind (futureThreadStep s i)

/-! ### References -/

/-- How many references to `f` a thread holds, after the removal also the table's. -/
def FuturePc.refs (f : Nat) : FuturePc V H → Nat
  | .idle => 0
  | .release g n => if g = f then n + 1 else 0
  | .cleanup g => if g = f then 2 else 0
  | .send g | .decide g _ _ | .store g _ _ | .publish g _ _ | .remove g _ | .waitLoad g _
  | .waitRecheck g | .waitRead g | .waitTake g _ _ | .waitCopy g _ _ | .waitReason g =>
    if g = f then 1 else 0

/-- The references held: the table's, the askers', the clients' and the threads'. -/
def FutureSys.holders (s : FutureSys V H) (f : Nat) : Nat :=
  s.table.count f + s.asked.count f + s.lookups.count f + tally (FuturePc.refs f) s.threads

/-- A new id is not in use, a retain does not wrap around, and a routine that takes over the table's
reference finds the future in the table. -/
def futureOk (s : FutureSys V H) : FutureEvent V H → Bool
  | .ask _ => s.nextId != 0 && s.table.all (fun f => (s.cell f).id != s.nextId)
  | .lookup _ id _ =>
    match s.find id with
    | some f => decide ((s.cell f).refcount + 1 < 2 ^ 32)
    | none => true
  | .step i =>
    match s.threads[i]? with
    | some (.remove f _) => decide (f ∈ s.table)
    | _ => true
  | _ => true

def refsOk (s : FutureSys V H) : FutureEvent V H → Bool
  | .sendFailed _ _ => false
  | e => futureOk s e

structure RefcountOk (s : FutureSys V H) : Prop where
  counted : ∀ f,(s.cell f).refcount = s.holders f + s.lost.count f
  small : ∀ f,(s.cell f).refcount < 2 ^ 32
  unmade : ∀ f,s.made ≤ f → (s.cell f).refcount = 0 ∧ (s.cell f).freed = 0
  freed : ∀ f,f < s.made → (s.cell f).freed = 1 ∧ (s.cell f).refcount = 0 ∨
    (s.cell f).freed = 0 ∧ 0 < (s.cell f).refcount
  ids : ∀ f ∈ s.table,(s.cell f).id ≠ 0
  unique : ∀ f ∈ s.table,∀ g ∈ s.table,(s.cell f).id = (s.cell g).id → f = g

variable {s s' : FutureSys V H}

theorem RefcountOk.quiet (h : RefcountOk s) (hmade : s'.made = s.made) (htable : s'.table = s.table)
    (hcell : ∀ f,(s'.cell f).refcount = (s.cell f).refcount ∧ (s'.cell f).freed = (s.cell f).freed ∧
      (s'.cell f).id = (s.cell f).id)
    (htotal : ∀ f,s'.holders f + s'.lost.count f = s.holders f + s.lost.count f) : RefcountOk s' := by
  obtain ⟨counted,small,unmade,freed,ids,unique⟩ := h
  refine ⟨fun f => ?_,fun f => ?_,fun f hf => ?_,fun f hf => ?_,fun f hf => ?_,fun f hf g hg => ?_⟩
  · rw [(hcell f).1,htotal]
    exact counted f
  · rw [(hcell f).1]
    exact small f
  · rw [(hcell f).1,(hcell f).2.1]
    exact unmade f (hmade ▸ hf)
  · rw [(hcell f).1,(hcell f).2.1]
    exact freed f (hmade ▸ hf)
  · rw [(hcell f).2.2]
    exact ids f (htable ▸ hf)
  · rw [(hcell f).2.2,(hcell g).2.2]
    exact unique f (htable ▸ hf) g (htable ▸ hg)

variable {f i : Nat} {pc : FuturePc V H} {e : FutureEvent V H}

theorem RefcountOk.released (h : RefcountOk s) (hmade : s'.made = s.made)
    (htable : s'.table = s.table) (hcell : s'.cell = update s.cell f (s.cell f).release)
      (htotal : ∀ g,s'.holders g + s'.lost.count g + (if f = g then 1 else 0) = s.holders g +
      s.lost.count g) : RefcountOk s' := by
  obtain ⟨counted,small,unmade,freed,ids,unique⟩ := h
  have hpos : 0 < (s.cell f).refcount := by
    have := htotal f
    rw [if_pos rfl] at this
    rw [counted f]
    omega
  have hrel : (s.cell f).release.refcount = (s.cell f).refcount - 1 := by
    unfold FutureCell.release
    split
    · next h => simp [h]
    · exact dec32_of_pos hpos (small f)
  have hid : ∀ g,(s'.cell g).id = (s.cell g).id := fun g => by
    rw [hcell]
    by_cases hfg : g = f
    · subst hfg
      rw [update_self]
      unfold FutureCell.release
      split <;> rfl
    · rw [update_of_ne hfg]
  refine ⟨fun g => ?_,fun g => ?_,fun g hg => ?_,fun g hg => ?_,fun g hg => ?_,fun g hg k hk => ?_⟩
  · have ht := htotal g
    rw [hcell]
    by_cases hfg : g = f
    · subst hfg
      rw [update_self,hrel,counted]
      rw [if_pos rfl] at ht
      omega
    · rw [update_of_ne hfg,counted]
      rw [if_neg (Ne.symm hfg)] at ht
      omega
  · rw [hcell]
    by_cases hfg : g = f
    · subst hfg
      rw [update_self,hrel]
      have := small g
      omega
    · rw [update_of_ne hfg]
      exact small g
  · have hun := unmade g (hmade ▸ hg)
    have hfg : g ≠ f := fun heq => by
      rw [heq] at hun
      omega
    rw [hcell,update_of_ne hfg]
    exact hun
  · have hold := freed g (hmade ▸ hg)
    rw [hcell]
    by_cases hfg : g = f
    · subst hfg
      rw [update_self]
      unfold FutureCell.release
      split
      · refine .inl ⟨?_,rfl⟩
        simp only
        omega
      · next hne =>
        have hdec := dec32_of_pos hpos (small g)
        refine .inr ⟨?_,?_⟩ <;> simp only <;> omega
    · rw [update_of_ne hfg]
      exact hold
  · rw [hid]
    exact ids g (htable ▸ hg)
  · rw [hid,hid]
    exact unique g (htable ▸ hg) k (htable ▸ hk)

theorem RefcountOk.goes_on (h : RefcountOk s) {pc' : FuturePc V H} (hi : s.threads[i]? = some pc)
      (hs : s'.threads = s.threads.set i pc' ∧ s'.made = s.made ∧ s'.table = s.table ∧ s'.asked =
      s.asked ∧ s'.lookups = s.lookups ∧ s'.lost = s.lost) (hpc : ∀ f,pc'.refs f = pc.refs f) (hcell
      : ∀ f,(s'.cell f).refcount = (s.cell f).refcount ∧ (s'.cell f).freed = (s.cell f).freed ∧
      (s'.cell f).id = (s.cell f).id) : RefcountOk s' := by
  obtain ⟨hthreads,hmade,htable,hasked,hlookups,hlost⟩ := hs
  refine h.quiet hmade htable hcell (fun f => ?_)
  have hset := tally_set hi pc' (FuturePc.refs f)
  have := hpc f
  simp only [FutureSys.holders,hthreads,htable,hasked,hlookups,hlost]
  omega

theorem cell_update_same {c : FutureCell V H}
    (hc : c.refcount = (s.cell f).refcount ∧ c.freed = (s.cell f).freed ∧ c.id = (s.cell f).id)
    (g : Nat) :
    (update s.cell f c g).refcount = (s.cell g).refcount ∧
      (update s.cell f c g).freed = (s.cell g).freed ∧
      (update s.cell f c g).id = (s.cell g).id := by
  by_cases hfg : g = f
  · subst hfg
    rw [update_self]
    exact hc
  · rw [update_of_ne hfg]
    exact ⟨rfl,rfl,rfl⟩

theorem After.next_refs (f g : Nat) (k : After) :
    (k.next f : FuturePc V H).refs g = if f = g then 1 else 0 := by
  cases k <;> rfl

theorem waitNext_refs (f g : Nat) (st : FutureState) (hpc : pc.refs g = if f = g then 1 else 0) :
    (waitNext f st pc).refs g = if f = g then 1 else 0 := by
  cases st <;> first | exact hpc | rfl

theorem eraseP_id (id : Nat → Nat) {l : List Nat} (hl : ∀ g ∈ l,id g = id f → g = f) :
    l.eraseP (fun g => id g == id f) = l.erase f := by
  induction l with
  | nil => rfl
  | cons g l ih =>
    have ih := ih (fun k hk => hl k (mem_cons_of_mem _ hk))
    by_cases hg : g = f
    · subst hg
      simp
    · have hid : id g ≠ id f := fun heq => hg (hl g mem_cons_self heq)
      simp [hid,ih,hg]

theorem RefcountOk.remove_table (h : RefcountOk s) (hf : f ∈ s.table) :
    (s.remove (s.cell f).id) = { s with table := s.table.erase f } := by
  have hid := h.ids f hf
  have hu : ∀ g ∈ s.table,(s.cell g).id = (s.cell f).id → g = f :=
    fun g hg heq => h.unique g hg f hf heq
  simp only [FutureSys.remove,hid,if_false]
  rw [eraseP_id (fun g => (s.cell g).id) hu]

theorem count_erase_add {l : List Nat} (hf : f ∈ l) (g : Nat) :
    (l.erase f).count g + (if f = g then 1 else 0) = l.count g := by
  have hpos := count_pos_iff.mpr hf
  rw [count_erase]
  by_cases hfg : f = g
  · subst hfg
    simp
    omega
  · simp [hfg]

theorem RefcountOk.removed (h : RefcountOk s) {k : After} (hi : s.threads[i]? = some (.remove f k))
    (hf : f ∈ s.table) (hpc : ∀ g,pc.refs g = if f = g then 2 else 0) :
    RefcountOk ((s.remove (s.cell f).id).setPc i pc) := by
  rw [h.remove_table hf]
  obtain ⟨counted,small,unmade,freed,ids,unique⟩ := h
  refine ⟨fun g => ?_,small,unmade,freed,fun g hg => ids g (mem_of_mem_erase hg),
    fun g hg k hk => unique g (mem_of_mem_erase hg) k (mem_of_mem_erase hk)⟩
  have hset := tally_set hi pc (FuturePc.refs g)
  have hcount := count_erase_add hf g
  have hpcg := hpc g
  have hold : (FuturePc.remove f k : FuturePc V H).refs g = if f = g then 1 else 0 := rfl
  have hc := counted g
  simp only [FutureSys.holders,FutureSys.setPc] at hc ⊢
  rw [hold,hpcg] at hset
  split at hset <;> split at hcount <;> omega

theorem RefcountOk.thread_step (h : RefcountOk s) (hi : s.threads[i]? = some pc)
    (hok : ∀ f k,pc = .remove f k → f ∈ s.table) (hs : futureThreadStep s i pc = some s') :
    RefcountOk s' := by
  cases pc with
  | idle => cases hs
  | send f => cases hs
  | decide f o k =>
    simp only [futureThreadStep] at hs
    split at hs <;> cases hs
    · exact h.goes_on hi ⟨rfl,rfl,rfl,rfl,rfl,rfl⟩ (fun g => rfl) (cell_update_same ⟨rfl,rfl,rfl⟩)
    · exact h.goes_on hi ⟨rfl,rfl,rfl,rfl,rfl,rfl⟩ (After.next_refs f · k) (fun _ => ⟨rfl,rfl,rfl⟩)
  | store f o k =>
    cases hs
    refine h.goes_on hi ⟨rfl,rfl,rfl,rfl,rfl,rfl⟩ (fun g => rfl) (cell_update_same ?_)
    cases o <;> exact ⟨rfl,rfl,rfl⟩
  | publish f o k =>
    cases hs
    exact h.goes_on hi ⟨rfl,rfl,rfl,rfl,rfl,rfl⟩ (After.next_refs f · k)
      (cell_update_same ⟨rfl,rfl,rfl⟩)
  | remove f k =>
    cases hs
    refine h.removed hi (hok f k rfl) (fun g => ?_)
    split <;> rfl
  | release f n =>
    have hset := fun pc' g => tally_set hi pc' (FuturePc.refs g)
    cases n with
    | zero =>
      cases hs
      refine h.released (f := f) rfl rfl rfl (fun g => ?_)
      have := hset .idle g
      simp only [FuturePc.refs] at this
      simp only [FutureSys.holders,FutureSys.setPc,FutureSys.release,FutureSys.setCell]
      split at this <;> split <;> omega
    | succ n =>
      cases hs
      refine h.released (f := f) rfl rfl rfl (fun g => ?_)
      have := hset (.release f n) g
      simp only [FuturePc.refs] at this
      simp only [FutureSys.holders,FutureSys.setPc,FutureSys.release,FutureSys.setCell]
      split at this <;> split <;> omega
  | cleanup f =>
    cases hs
    refine h.released (f := f) rfl rfl rfl (fun g => ?_)
    have hset := tally_set hi .idle (FuturePc.refs g)
    simp only [FuturePc.refs] at hset
    simp only [FutureSys.holders,FutureSys.setPc,FutureSys.release,FutureSys.setCell,
      count_cons,beq_iff_eq]
    split at hset <;> split <;> omega
  | waitLoad f root =>
    cases hs
    refine h.goes_on hi ⟨rfl,rfl,rfl,rfl,rfl,rfl⟩ (fun g => waitNext_refs f g _ ?_)
      (fun _ => ⟨rfl,rfl,rfl⟩)
    cases root <;> rfl
  | waitRecheck f =>
    cases hs
    exact h.goes_on hi ⟨rfl,rfl,rfl,rfl,rfl,rfl⟩ (fun g => waitNext_refs f g _ rfl)
      (fun _ => ⟨rfl,rfl,rfl⟩)
  | waitRead f =>
    simp only [futureThreadStep] at hs
    split at hs <;> cases hs <;>
      exact h.goes_on hi ⟨rfl,rfl,rfl,rfl,rfl,rfl⟩ (fun g => rfl) (fun _ => ⟨rfl,rfl,rfl⟩)
  | waitTake f v hp | waitCopy f v hp =>
    cases hs
    exact h.goes_on hi ⟨rfl,rfl,rfl,rfl,rfl,rfl⟩ (fun g => rfl) (cell_update_same ⟨rfl,rfl,rfl⟩)
  | waitReason f =>
    cases hs
    exact h.goes_on hi ⟨rfl,rfl,rfl,rfl,rfl,rfl⟩ (fun g => rfl) (fun _ => ⟨rfl,rfl,rfl⟩)

theorem RefcountOk.ask (h : RefcountOk s) (hok : futureOk s (.ask i) = true)
    (hs : futureStep s (.ask i) = some s') : RefcountOk s' := by
  simp only [futureStep] at hs
  split at hs <;> cases hs
  next hi =>
  obtain ⟨counted,small,unmade,freed,ids,unique⟩ := h
  simp only [futureOk,Bool.and_eq_true,bne_iff_ne,List.all_eq_true] at hok
  obtain ⟨hid,hfresh⟩ := hok
  have hnew := unmade s.made (Nat.le_refl _)
  have hzero := counted s.made
  have htable : ∀ f ∈ s.table,f ≠ s.made := fun f hf heq => by
    have := count_pos_iff.mpr (heq ▸ hf)
    simp only [FutureSys.holders] at hzero
    omega
  have hold : ∀ f ∈ s.table,(update s.cell s.made (.new s.nextId) f) = s.cell f :=
    fun f hf => update_of_ne (htable f hf) ..
  refine ⟨fun f => ?_,fun f => ?_,fun f hf => ?_,fun f hf => ?_,fun f hf => ?_,fun f hf g hg => ?_⟩
  all_goals simp only [FutureSys.setPc,FutureSys.setCell] at *
  · have hset := tally_set hi (.send s.made) (FuturePc.refs f)
    have hc := counted f
    simp only [FuturePc.refs] at hset
    simp only [FutureSys.holders,count_cons,beq_iff_eq] at hzero hc ⊢
    by_cases hf : f = s.made
    · subst hf
      rw [update_self]
      simp only [if_true,FutureCell.new] at hset ⊢
      omega
    · rw [update_of_ne hf]
      simp only [Ne.symm hf,if_false] at hset ⊢
      omega
  · by_cases hf : f = s.made
    · subst hf
      rw [update_self]
      simp [FutureCell.new]
    · rw [update_of_ne hf]
      exact small f
  · rw [update_of_ne (by omega)]
    exact unmade f (by omega)
  · by_cases hfm : f = s.made
    · subst hfm
      rw [update_self]
      exact .inr ⟨rfl,Nat.zero_lt_two⟩
    · rw [update_of_ne hfm]
      exact freed f (by omega)
  · rcases mem_cons.mp hf with rfl | hf
    · rw [update_self]
      exact hid
    · rw [hold f hf]
      exact ids f hf
  · rcases mem_cons.mp hf with rfl | hf <;> rcases mem_cons.mp hg with rfl | hg
    · exact fun _ => rfl
    · rw [update_self,hold g hg]
      exact fun heq => absurd heq.symm (hfresh g hg)
    · rw [update_self,hold f hf]
      exact fun heq => absurd heq (hfresh f hf)
    · rw [hold f hf,hold g hg]
      exact unique f hf g hg

theorem find_mem {id : Nat} (h : s.find id = some f) : f ∈ s.table := by
  simp only [FutureSys.find] at h
  split at h
  · cases h
  · exact mem_of_find?_eq_some h

theorem RefcountOk.retained (h : RefcountOk s) (hlt : (s.cell f).refcount + 1 < 2 ^ 32)
    (hf : f ∈ s.table) (hmade : s'.made = s.made) (htable : s'.table = s.table) (hcell : s'.cell =
      update s.cell f { s.cell f with refcount := inc32 (s.cell f).refcount }) (htotal : ∀
      g,s'.holders g + s'.lost.count g = s.holders g + s.lost.count g + if f = g then 1 else 0) :
    RefcountOk s' := by
  obtain ⟨counted,small,unmade,freed,ids,unique⟩ := h
  have hinc := inc32_of_lt hlt
  have hpos : 0 < (s.cell f).refcount := by
    have := count_pos_iff.mpr hf
    rw [counted f]
    unfold FutureSys.holders
    omega
  have hid : ∀ g,(s'.cell g).id = (s.cell g).id ∧ (s'.cell g).freed = (s.cell g).freed := fun g => by
    rw [hcell]
    by_cases hfg : g = f
    · subst hfg
      rw [update_self]
      exact ⟨rfl,rfl⟩
    · rw [update_of_ne hfg]
      exact ⟨rfl,rfl⟩
  have href : ∀ g,(s'.cell g).refcount = (s.cell g).refcount + if f = g then 1 else 0 := fun g => by
    rw [hcell]
    by_cases hfg : g = f
    · subst hfg
      rw [update_self]
      simp [hinc]
    · rw [update_of_ne hfg]
      simp [Ne.symm hfg]
  refine ⟨fun g => ?_,fun g => ?_,fun g hg => ?_,fun g hg => ?_,fun g hg => ?_,fun g hg k hk => ?_⟩
  · rw [href,counted,htotal]
  · have := small g
    rw [href]
    split
    · next heq =>
      subst heq
      exact hlt
    · exact this
  · have hun := unmade g (hmade ▸ hg)
    have hfg : f ≠ g := fun heq => by
      subst heq
      omega
    rw [href,(hid g).2,if_neg hfg]
    exact hun
  · have hold := freed g (hmade ▸ hg)
    rw [href,(hid g).2]
    by_cases hfg : f = g
    · subst hfg
      rw [if_pos rfl]
      omega
    · rw [if_neg hfg]
      exact hold
  · rw [(hid g).1]
    exact ids g (htable ▸ hg)
  · rw [(hid g).1,(hid k).1]
    exact unique g (htable ▸ hg) k (htable ▸ hk)

theorem RefcountOk.lookup (h : RefcountOk s) {id : Nat} {p : Purpose V H}
    (hok : futureOk s (.lookup i id p) = true) (hs : futureStep s (.lookup i id p) = some s') :
    RefcountOk s' := by
  simp only [futureStep] at hs
  split at hs
  · cases hs
    exact h
  · next f hi hfind =>
    simp only [futureOk,hfind,decide_eq_true_eq] at hok
    split at hs <;> cases hs
    · refine h.retained hok (find_mem hfind) rfl rfl rfl (fun g => ?_)
      simp only [FutureSys.holders,FutureSys.setCell,count_cons,beq_iff_eq]
      omega
    · next hclient =>
      refine h.retained hok (find_mem hfind) rfl rfl rfl (fun g => ?_)
      have hset := tally_set hi (p.next f) (FuturePc.refs g)
      have hp : (p.next f).refs g = if f = g then 1 else 0 := by
        cases p with
        | reply o => cases o <;> rfl
        | crash r => cases r <;> rfl
        | wait root => rfl
        | client => exact absurd rfl hclient
      have hidle : (FuturePc.idle : FuturePc V H).refs g = 0 := rfl
      rw [hp,hidle] at hset
      simp only [FutureSys.holders,FutureSys.setPc,FutureSys.setCell]
      omega
  · cases hs

theorem RefcountOk.step (h : RefcountOk s) (hok : futureOk s e = true)
    (hs : futureStep s e = some s') : RefcountOk s' := by
  cases e with
  | ask i => exact h.ask hok hs
  | sent i =>
    simp only [futureStep] at hs
    split at hs <;> cases hs
    next f hi =>
    refine h.quiet rfl rfl (fun _ => ⟨rfl,rfl,rfl⟩) (fun g => ?_)
    have hset := tally_set hi .idle (FuturePc.refs g)
    simp only [FuturePc.refs] at hset
    simp only [FutureSys.holders,FutureSys.setPc,count_cons,beq_iff_eq]
    omega
  | sendFailed i reason =>
    simp only [futureStep] at hs
    split at hs <;> cases hs <;> next hi =>
      exact h.goes_on hi ⟨rfl,rfl,rfl,rfl,rfl,rfl⟩ (fun g => rfl) (fun _ => ⟨rfl,rfl,rfl⟩)
  | drop f | unlook f =>
    simp only [futureStep] at hs
    split at hs <;> cases hs
    next hf =>
    refine h.released rfl rfl rfl (fun g => ?_)
    have := count_erase_add hf g
    simp only [FutureSys.holders,FutureSys.release,FutureSys.setCell]
    omega
  | lookup i id p => exact h.lookup hok hs
  | step i =>
    simp only [futureStep,Option.bind_eq_some_iff] at hs
    obtain ⟨pc,hi,hs⟩ := hs
    refine h.thread_step hi (fun f k hpc => ?_) hs
    simpa [futureOk,hi,hpc] using hok

theorem RefcountOk.start (n : Nat) : RefcountOk (FutureSys.start n : FutureSys V H) := by
  refine ⟨fun f => ?_,fun f => Nat.two_pow_pos 32,fun f _ => ⟨rfl,rfl⟩,fun f hf => ?_,fun f hf => ?_,
    fun f hf => ?_⟩
  · have hzero : tally (FuturePc.refs f) (FutureSys.start n : FutureSys V H).threads = 0 := by
      by_contra hne
      obtain ⟨i,pc,hi,hpc⟩ := exists_of_tally_pos (Nat.pos_of_ne_zero hne)
      rw [eq_of_mem_replicate (mem_of_getElem? hi)] at hpc
      exact absurd hpc (Nat.lt_irrefl 0)
    rw [FutureSys.holders,hzero]
    rfl
  · exact absurd hf (Nat.not_lt_zero f)
  · exact absurd hf not_mem_nil
  · exact absurd hf not_mem_nil

theorem RefcountOk.run {n : Nat}
    (h : Path futureStep (fun s e => futureOk s e = true) (FutureSys.start n) s) : RefcountOk s :=
  h.invariant (RefcountOk.start n) (fun _ _ _ hi hok hs => hi.step hok hs)

/-! ### Without failed asks -/

/-- The thread is inside `fail_and_cleanup_future`, which gives up only one of a future's two
references. -/
def FuturePc.Cleaning : FuturePc V H → Prop
  | .decide _ _ k | .store _ _ k | .publish _ _ k | .remove _ k => k = .cleanup
  | .cleanup _ => True
  | _ => False

theorem After.next_cleaning {k : After} (hk : k ≠ .cleanup) :
    ¬ (k.next f : FuturePc V H).Cleaning := by
  cases k
  case cleanup => exact absurd rfl hk
  all_goals nofun

theorem waitNext_cleaning {st : FutureState} (hpc : ¬ pc.Cleaning) :
    ¬ (waitNext f st pc).Cleaning := by
  cases st <;> first | exact hpc | nofun

theorem futureThreadStep_tidy (hpc : ¬ pc.Cleaning) (hs : futureThreadStep s i pc = some s') :
    s'.lost = s.lost ∧ ∃ pc' : FuturePc V H,s'.threads = s.threads.set i pc' ∧ ¬ pc'.Cleaning := by
  cases pc with
  | idle => cases hs
  | send f => cases hs
  | decide f o k =>
    simp only [futureThreadStep] at hs
    split at hs <;> cases hs
    · exact ⟨rfl,_,rfl,hpc⟩
    · exact ⟨rfl,_,rfl,After.next_cleaning hpc⟩
  | store f o k =>
    cases hs
    exact ⟨rfl,_,rfl,hpc⟩
  | publish f o k =>
    cases hs
    exact ⟨rfl,_,rfl,After.next_cleaning hpc⟩
  | remove f k =>
    have hk : k ≠ .cleanup := hpc
    simp only [futureThreadStep,FutureSys.remove,hk,if_false] at hs
    cases hs
    split <;> exact ⟨rfl,_,rfl,nofun⟩
  | release f n =>
    cases n <;> cases hs <;> exact ⟨rfl,_,rfl,nofun⟩
  | cleanup f => exact absurd trivial hpc
  | waitLoad f root =>
    cases hs
    refine ⟨rfl,_,rfl,waitNext_cleaning ?_⟩
    cases root <;> nofun
  | waitRecheck f =>
    cases hs
    exact ⟨rfl,_,rfl,waitNext_cleaning nofun⟩
  | waitRead f =>
    simp only [futureThreadStep] at hs
    split at hs <;> cases hs <;> exact ⟨rfl,_,rfl,nofun⟩
  | waitTake f v hp | waitCopy f v hp | waitReason f =>
    cases hs
    exact ⟨rfl,_,rfl,nofun⟩

def FutureSys.Tidy (s : FutureSys V H) : Prop := s.lost = [] ∧ ∀ pc ∈ s.threads,¬ pc.Cleaning

theorem FutureSys.Tidy.step (h : s.Tidy) (hok : refsOk s e = true) (hs : futureStep s e = some s') :
    s'.Tidy := by
  cases e with
  | ask i | sent i =>
    simp only [futureStep] at hs
    split at hs <;> cases hs
    exact ⟨h.1,forall_mem_set h.2 nofun⟩
  | sendFailed i reason => cases hok
  | drop f | unlook f =>
    simp only [futureStep] at hs
    split at hs <;> cases hs
    exact h
  | lookup i id p =>
    simp only [futureStep] at hs
    split at hs
    · cases hs
      exact h
    · split at hs <;> cases hs
      · exact h
      · refine ⟨h.1,forall_mem_set h.2 ?_⟩
        cases p with
        | reply o => cases o <;> nofun
        | crash r => cases r <;> nofun
        | wait root => nofun
        | client => nofun
    · cases hs
  | step i =>
    simp only [futureStep,Option.bind_eq_some_iff] at hs
    obtain ⟨pc,hi,hs⟩ := hs
    obtain ⟨hlost,pc',hthreads,hpc'⟩ := futureThreadStep_tidy (h.2 pc (mem_of_getElem? hi)) hs
    refine ⟨hlost.trans h.1,?_⟩
    rw [hthreads]
    exact forall_mem_set h.2 hpc'

theorem futureOk_of_refsOk (h : refsOk s e = true) : futureOk s e = true := by
  cases e <;> first | exact h | rfl

/-- If all steps meet the condition, a future's count is the number of references held, and it has
been freed, once, exactly when nobody holds one. -/
theorem future_refcount_balanced {n : Nat}
    (h : Path futureStep (fun s e => refsOk s e = true) (FutureSys.start n) s) :
    ∀ f,f < s.made → (s.cell f).refcount = s.holders f ∧
      ((s.cell f).freed = 1 ∧ s.holders f = 0 ∨ (s.cell f).freed = 0 ∧ 0 < s.holders f) := by
  have hrefs := RefcountOk.run (h.mono (fun _ _ hok => futureOk_of_refsOk hok))
  have htidy : s.Tidy := by
    refine h.invariant ⟨rfl,fun pc hpc => ?_⟩ (fun _ _ _ hi hok hs => hi.step hok hs)
    rw [eq_of_mem_replicate hpc]
    nofun
  intro f hf
  have hcount := hrefs.counted f
  rw [htidy.1,count_nil,Nat.add_zero] at hcount
  have hfreed := hrefs.freed f hf
  rw [hcount] at hfreed
  exact ⟨hcount,hfreed⟩

end

/-- A future that is asked for, resolved, waited for and dropped by its asker. -/
theorem future_refcount_balanced_once : ∃ s : FutureSys Nat Nat,s.made = 1 ∧
    (s.cell 0).freed = 1 ∧ (s.cell 0).refcount = s.holders 0 := by
  have hs : Path futureStep (fun s e => refsOk s e = true) (FutureSys.start 2 : FutureSys Nat Nat) _ :=
    runAll_path [.ask 0,.sent 0,.lookup 0 1 (.reply (some (.resolve 5 none))),.step 0,.step 0,
      .step 0,.step 0,.lookup 1 1 (.wait false),.step 1,.step 1,.step 1,.step 1,.step 1,.drop 0] rfl
  exact ⟨_,rfl,rfl,(future_refcount_balanced hs 0 (by decide)).1⟩

/-- Two waits each give up the table's reference, so that the future is freed while its asker holds
one; and an ask that fails leaves its future with a count of 1. -/
theorem future_refcount_unbalanced :
    (∃ s : FutureSys Nat Nat,Path futureStep (fun _ _ => True) (FutureSys.start 2) s ∧
      (s.cell 0).freed = 1 ∧ s.holders 0 = 1) ∧
    ∃ s : FutureSys Nat Nat,Path futureStep (fun _ _ => True) (FutureSys.start 1) s ∧
      (s.cell 0).refcount = 1 ∧ s.holders 0 = 0 :=
  ⟨⟨_,runAll_path [.ask 0,.sent 0,.lookup 0 1 (.reply (some (.resolve 5 none))),.step 0,.step 0,
      .step 0,.step 0,.lookup 0 1 (.wait false),.lookup 1 1 (.wait false),.step 0,.step 1,.step 0,
      .step 1,.step 0,.step 0,.step 0,.step 1,.step 1,.step 1] rfl,rfl,rfl⟩,
    _,runAll_path [.ask 0,.sendFailed 0 (some 9),.step 0,.step 0,.step 0,.step 0,.step 0] rfl,
    rfl,rfl⟩

end SmalltalkA
