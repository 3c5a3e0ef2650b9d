import SmalltalkA.Scheduler.Model

/-! Who is responsible for a runnable actor. A run-queue entry, a worker that has taken one and a
thread about to make one each hold the actor; in orderly runs at most one of them exists. -/

set_option autoImplicit false

namespace SmalltalkA

open Interleaving List Function Option

def share (b a : Nat) : Nat := if b = a then 1 else 0

@[simp] def WorkerPc.holds : WorkerPc → Nat → Nat
  | .hold b,a | .push b,a => share b a
  | _,_ => 0

@[simp] def WorkerPc.runs : WorkerPc → Nat → Nat
  | .dispatch b,a | .dequeued b,a | .execute b,a | .waited b,a | .crashed b,a | .drained b,a
  | .returned b _,a | .idleCheck b,a | .requeue b,a | .suspend b,a => share b a
  | _,_ => 0

/-- Inside `sta_actor_process_one_preemptible` for the actor. -/
def WorkerPc.processes : WorkerPc → Nat → Bool
  | .dispatch b,a | .dequeued b,a | .execute b,a | .waited b,a | .crashed b,a
  | .drained b,a => b == a
  | _,_ => false

@[simp] def ClientPc.holds : ClientPc → Nat → Nat
  | .wakeRunning b,a | .enqueue b,a => share b a
  | _,_ => 0

@[simp] def Worker.entries (x : Worker) (a : Nat) : Nat := x.deque.count a + x.pc.holds a

/-- The list `l` is threaded through `next` from `head` on. -/
def Linked (next : Nat → Option Nat) : Option Nat → List Nat → Prop
  | none,[] => True
  | some a,b :: l => a = b ∧ Linked next (next a) l
  | _,_ => False

def Drain.firstShare : Option Drain → Nat → Nat
  | some ⟨_,some f⟩,a => share f a
  | _,_ => 0

def Drain.pointer (d : Option Drain) : Option Nat := d.bind Drain.list

/-- Entries in the overflow list `l` and in the rest `r` of a list being drained. -/
def overflowShare (d : Option Drain) (l r : List Nat) (a : Nat) : Nat :=
  l.count a + r.count a + Drain.firstShare d a

/-- All entries for the actor, and threads that hold it to queue or to claim it. -/
def queuedTally (s : Sys) (l r : List Nat) (a : Nat) : Nat :=
  overflowShare s.shared.drain l r a + tally (fun x => x.entries a) s.workers +
    (tally (fun c => c.holds a) s.clients + share rootActor a)

def runTally (s : Sys) (a : Nat) : Nat := tally (fun x => x.pc.runs a) s.workers

/-- At most one responsible party, in agreement with the state; with `p`, a READY actor has one. -/
structure Balanced (p : Prop) (st : ActorState) (q r : Nat) : Prop where
  atMostOne : q + r ≤ 1
  queued : q ≠ 0 → st = .ready ∨ st = .terminated
  run : r ≠ 0 → st = .running ∨ st = .suspended ∨ st = .terminated
  ready : p → st = .ready → q ≠ 0

def MustBeQueued (strict : Prop) (s : Sys) : Prop :=
  strict ∧ s.shared.running = true

/-- The run queues are in order, with the overflow list and the list being drained as ghosts. -/
def RunQueuesOk (strict : Prop) (s : Sys) : Prop :=
  ∃ l r,Linked s.shared.nextRunnable s.shared.overflowHead l ∧
    Linked s.shared.nextRunnable (Drain.pointer s.shared.drain) r ∧
    ∀ a,Balanced (MustBeQueued strict s) (s.shared.state a) (queuedTally s l r a) (runTally s a)

def unclaimed (s : Sys) (a : Nat) : Prop := ∀ x ∈ s.workers,x.pc.runs a = 0

/-- An actor is taken from SUSPENDED to READY only when unclaimed, and CREATED is stored only over
CREATED. -/
def orderly (s : Sys) : SysEvent → Prop
  | .worker w .go =>
    match (s.workers[w]?).map Worker.pc with
    | some (.rewake a) => s.shared.state a = .suspended → unclaimed s a
    | _ => True
  | .client i .go =>
    match s.clients[i]? with
    | some (.sendSuspended a) | some (.wake a) => s.shared.state a = .suspended → unclaimed s a
    | some (.restartStore a) => s.shared.state a = .created
    | _ => True
  | _ => True

def hasRoom (s : Sys) : SysEvent → Prop
  | .worker w .go =>
    match s.workers[w]? with
    | some ⟨.push _,d⟩ | some ⟨.drain,d⟩ => d.length < dequeCapacity
    | _ => True
  | _ => True

instance (s : Sys) (a : Nat) : Decidable (unclaimed s a) :=
  inferInstanceAs (Decidable (∀ x ∈ s.workers,x.pc.runs a = 0))

instance (s : Sys) (e : SysEvent) : Decidable (orderly s e) := by
  unfold orderly
  repeat' split
  all_goals infer_instance

instance (s : Sys) (e : SysEvent) : Decidable (hasRoom s e) := by
  unfold hasRoom
  repeat' split
  all_goals infer_instance

/-! ### Changes of responsibility -/

section

variable {p : Prop} {st : ActorState} {q q' r r' : Nat}

section

variable (h : Balanced p st q r)

include h

theorem Balanced.drop (hst : p → st ≠ .ready) (hq : q' ≤ q)
    (hr : r' ≤ r) : Balanced p st q' r' where
  atMostOne := by have := h.atMostOne; omega
  queued := fun _ => h.queued (by omega)
  run := fun _ => h.run (by omega)
  ready := fun hp hs => absurd hs (hst hp)

theorem Balanced.stopRun (hq : q' = q) (hr : r' ≤ r) :
    Balanced p st q' r' where
  atMostOne := by have := h.atMostOne; omega
  queued := fun _ => h.queued (by omega)
  run := fun _ => h.run (by omega)
  ready := fun hp hs => by have := h.ready hp hs; omega

theorem Balanced.terminate (hq : q' = q) (hr : r' = r) :
    Balanced p .terminated q' r' where
  atMostOne := by have := h.atMostOne; omega
  queued := fun _ => .inr rfl
  run := fun _ => .inr (.inr rfl)
  ready := fun _ hs => by cases hs

theorem Balanced.claim (hq : q = q' + 1) (hr : r' = r + 1) :
    Balanced p .running q' r' := by
  have := h.atMostOne
  exact ⟨by omega,by omega,fun _ => .inl rfl,fun _ hs => by cases hs⟩

theorem Balanced.requeue (hq : q' = q + 1) (hr : r = r' + 1) :
    Balanced p .ready q' r' := by
  have := h.atMostOne
  exact ⟨by omega,fun _ => .inl rfl,by omega,by omega⟩

theorem Balanced.suspend (hq : q' = q) (hr : r = r' + 1) :
    Balanced p .suspended q' r' := by
  have := h.atMostOne
  exact ⟨by omega,by omega,by omega,fun _ hs => by cases hs⟩

end

theorem Balanced.wait (h : Balanced p .running q r) (hq : q' = q) (hr : r' = r) :
    Balanced p .suspended q' r' := by
  have hq₀ : q = 0 := by
    by_contra hne
    rcases h.queued hne with h | h <;> cases h
  exact ⟨by have := h.atMostOne; omega,by omega,fun _ => .inr (.inl rfl),fun _ hs => by cases hs⟩

theorem Balanced.awaken (h : Balanced p st q r) (hst : st = .created ∨ st = .suspended ∧ r = 0)
    (hq : q' = q + 1) (hr : r' = r) : Balanced p .ready q' r' := by
  have hq₀ : q = 0 := by
    by_contra hne
    rcases h.queued hne with rfl | rfl <;> simp at hst
  have hr₀ : r = 0 := by
    by_contra hne
    rcases h.run hne with rfl | rfl | rfl <;> simp [hne] at hst
  exact ⟨by omega,fun _ => .inl rfl,by omega,by omega⟩

theorem Balanced.weaken {p' : Prop} (h : Balanced p st q r) (hp : p' → p) : Balanced p' st q r :=
  ⟨h.atMostOne,h.queued,h.run,fun h' => h.ready (hp h')⟩

end

/-! ### Threaded lists -/

variable {a b : Nat} {l : List Nat} {next : Nat → Option Nat}

theorem Linked.update {head : Option Nat} (h : Linked next head l) (ha : a ∉ l) (n : Option Nat) :
    Linked (update next a n) head l := by
  induction l generalizing head with
  | nil => cases head <;> exact h
  | cons b l ih =>
    cases head with
    | none => exact h
    | some c =>
      obtain ⟨rfl,h⟩ := h
      simp only [mem_cons,not_or] at ha
      refine ⟨rfl,?_⟩
      rw [update_of_ne (Ne.symm ha.1)]
      exact ih h ha.2

theorem linked_none (h : Linked next none l) : l = [] := by
  cases l with
  | nil => rfl
  | cons b l => exact h.elim

theorem linked_some (h : Linked next (some a) l) : ∃ l',l = a :: l' ∧ Linked next (next a) l' := by
  cases l with
  | nil => exact h.elim
  | cons b l =>
    obtain ⟨rfl,h⟩ := h
    exact ⟨l,rfl,h⟩

/-! ### One step -/

@[simp] theorem share_self (a : Nat) : share a a = 1 := if_pos rfl

@[simp] theorem share_of_ne (h : a ≠ b) : share b a = 0 := if_neg (Ne.symm h)

@[simp] theorem setState_self (s : Shared) (a : Nat) (st : ActorState) :
    (s.setState a st).state a = st :=
  update_self ..

@[simp] theorem setState_of_ne (s : Shared) (h : a ≠ b) (st : ActorState) :
    (s.setState b st).state a = s.state a :=
  update_of_ne h ..

@[simp] theorem count_dequePush_of_ne (d : List Nat) (h : a ≠ b) :
    (dequePush d b).count a = d.count a := by
  unfold dequePush
  split
  · exact count_cons_of_ne (Ne.symm h)
  · rfl

/-- A step that leaves the overflow list, the drain and the running flag alone. -/
structure SameLists (t s : Shared) : Prop where
  next : t.nextRunnable = s.nextRunnable
  head : t.overflowHead = s.overflowHead
  drain : t.drain = s.drain
  running : t.running = s.running

theorem SameLists.refl (s : Shared) : SameLists s s := ⟨rfl,rfl,rfl,rfl⟩

theorem SameLists.setState (s : Shared) (a : Nat) (st : ActorState) :
    SameLists (s.setState a st) s := ⟨rfl,rfl,rfl,rfl⟩

section

variable {strict : Prop} {s : Sys} {sh : Shared}

theorem runTally_eq_zero {a : Nat} (h : unclaimed s a) : runTally s a = 0 := by
  by_contra hne
  obtain ⟨w,x,hx,hpos⟩ := exists_of_tally_pos (Nat.pos_of_ne_zero hne)
  rw [h x (mem_of_getElem? hx)] at hpos
  exact Nat.lt_irrefl 0 hpos

variable {l r : List Nat} {w i : Nat} {x y : Worker} {c d : ClientPc}

section

variable (l' r' : List Nat) (h : ∀ a,Balanced (MustBeQueued strict s) (s.shared.state a)
  (queuedTally s l r a) (runTally s a))

include l' r' h

theorem RunQueuesOk.setWorker (hx : s.workers[w]? = some x)
    (hl : Linked sh.nextRunnable sh.overflowHead l')
    (hr : Linked sh.nextRunnable (Drain.pointer sh.drain) r') (hrun : sh.running = s.shared.running)
      (hb : ∀ a q n,x.pc.runs a + n = runTally s a → Balanced (MustBeQueued strict s)
      (s.shared.state a) (overflowShare s.shared.drain l r a + x.entries a + q) (x.pc.runs a + n) →
      Balanced (MustBeQueued strict s) (sh.state a) (overflowShare sh.drain l' r' a + y.entries a +
      q) (y.pc.runs a + n)) :
    RunQueuesOk strict { s with shared := sh,workers := s.workers.set w y } := by
  refine ⟨l',r',hl,hr,fun a => ?_⟩
  have hq := tally_set hx y (fun x => x.entries a)
  have hn := tally_set hx y (fun x => x.pc.runs a)
  have hq' := le_tally hx (fun x => x.entries a)
  have hn' := le_tally hx (fun x => x.pc.runs a)
  obtain ⟨q,hqe⟩ := Nat.le.dest hq'
  obtain ⟨n,hne⟩ := Nat.le.dest hn'
  have hbal := hb a (q + (tally (fun c => c.holds a) s.clients + share rootActor a)) n hne (by
      have := h a
      simp only [queuedTally,runTally,← hqe,← hne] at this
      simpa only [Nat.add_assoc] using this)
  have hp : MustBeQueued strict { s with shared := sh,workers := s.workers.set w y } =
      MustBeQueued strict s := by
    simp only [MustBeQueued,hrun]
  rw [hp]
  have hq₂ : tally (fun x => x.entries a) (s.workers.set w y) = y.entries a + q := by omega
  have hn₂ : tally (fun x => x.pc.runs a) (s.workers.set w y) = y.pc.runs a + n := by omega
  simp only [queuedTally,runTally,hq₂,hn₂]
  simpa only [Nat.add_assoc] using hbal

theorem RunQueuesOk.setClient (hc : s.clients[i]? = some c)
    (hl : Linked sh.nextRunnable sh.overflowHead l')
    (hr : Linked sh.nextRunnable (Drain.pointer sh.drain) r') (hrun : sh.running = s.shared.running)
      (hb : ∀ a q,Balanced (MustBeQueued strict s) (s.shared.state a) (overflowShare s.shared.drain
      l r a + c.holds a + q) (runTally s a) → Balanced (MustBeQueued strict s) (sh.state a)
      (overflowShare sh.drain l' r' a + d.holds a + q) (runTally s a)) :
    RunQueuesOk strict { s with shared := sh,clients := s.clients.set i d } := by
  refine ⟨l',r',hl,hr,fun a => ?_⟩
  have hq := tally_set hc d (fun c => c.holds a)
  have hq' := le_tally hc (fun c => c.holds a)
  obtain ⟨q,hqe⟩ := Nat.le.dest hq'
  have hbal := hb a (tally (fun x => x.entries a) s.workers + q + share rootActor a)
    ((h a).stopRun (by simp only [queuedTally,← hqe]; omega) (Nat.le_refl _))
  have hp : MustBeQueued strict { s with shared := sh,clients := s.clients.set i d } =
      MustBeQueued strict s := by
    simp only [MustBeQueued,hrun]
  rw [hp]
  have hq₂ : queuedTally { s with shared := sh,clients := s.clients.set i d } l' r' a =
      overflowShare sh.drain l' r' a + d.holds a +
        (tally (fun x => x.entries a) s.workers + q + share rootActor a) := by
    simp only [queuedTally]
    omega
  rw [hq₂]
  exact hbal

end

theorem RunQueuesOk.workerAt (h : RunQueuesOk strict s) (b : Nat) (hx : s.workers[w]? = some x)
    (hsame : SameLists sh s.shared) (hother : ∀ a,a ≠ b → sh.state a = s.shared.state a ∧ y.entries
      a = x.entries a ∧ y.pc.runs a = x.pc.runs a) (hb : ∀ q n,x.pc.runs b + n = runTally s b →
      Balanced (MustBeQueued strict s) (s.shared.state b) (x.entries b + q) (x.pc.runs b + n) →
      Balanced (MustBeQueued strict s) (sh.state b) (y.entries b + q) (y.pc.runs b + n)) :
    RunQueuesOk strict { s with shared := sh,workers := s.workers.set w y } := by
  obtain ⟨l,r,hl,hr,hbal⟩ := h
  refine RunQueuesOk.setWorker l r hbal hx ?_ ?_ hsame.running (fun a q n hn hB => ?_)
  · rwa [hsame.next,hsame.head]
  · rwa [hsame.next,hsame.drain]
  · rw [hsame.drain]
    by_cases hab : a = b
    · subst hab
      have := hb (overflowShare s.shared.drain l r a + q) n hn
        (by rwa [Nat.add_comm (overflowShare _ _ _ _),Nat.add_assoc] at hB)
      rwa [Nat.add_comm (overflowShare _ _ _ _),Nat.add_assoc]
    · obtain ⟨hst,he,hr⟩ := hother a hab
      rwa [hst,he,hr]

theorem RunQueuesOk.clientAt (h : RunQueuesOk strict s) (b : Nat) (hc : s.clients[i]? = some c)
    (hsame : SameLists sh s.shared)
    (hother : ∀ a,a ≠ b → sh.state a = s.shared.state a ∧ d.holds a = c.holds a) (hb : ∀ q,Balanced
      (MustBeQueued strict s) (s.shared.state b) (c.holds b + q) (runTally s b) → Balanced
      (MustBeQueued strict s) (sh.state b) (d.holds b + q) (runTally s b)) :
    RunQueuesOk strict { s with shared := sh,clients := s.clients.set i d } := by
  obtain ⟨l,r,hl,hr,hbal⟩ := h
  refine RunQueuesOk.setClient l r hbal hc ?_ ?_ hsame.running (fun a q hB => ?_)
  · rwa [hsame.next,hsame.head]
  · rwa [hsame.next,hsame.drain]
  · rw [hsame.drain]
    by_cases hab : a = b
    · subst hab
      have := hb (overflowShare s.shared.drain l r a + q)
        (by rwa [Nat.add_comm (overflowShare _ _ _ _),Nat.add_assoc] at hB)
      rwa [Nat.add_comm (overflowShare _ _ _ _),Nat.add_assoc]
    · obtain ⟨hst,he⟩ := hother a hab
      rwa [hst,he]

theorem not_mem_of_drained {p : Prop} {st : ActorState} {n : Nat} {a : Nat}
    (h : Balanced p st (queuedTally s l (a :: r) a) n) : a ∉ l ∧ a ∉ r := by
  have h1 := h.atMostOne
  simp only [queuedTally,overflowShare,count_cons_self] at h1
  exact ⟨count_eq_zero.mp (by omega),count_eq_zero.mp (by omega)⟩

section

variable (h : RunQueuesOk strict s)

include h

theorem worker_drain_ok {d : List Nat}
    (hx : s.workers[w]? = some ⟨.drain,d⟩) (hs : workerStep s.shared ⟨.drain,d⟩ .go = some (sh,y))
    (hroom : strict → d.length < dequeCapacity) :
    RunQueuesOk strict { s with shared := sh,workers := s.workers.set w y } := by
  obtain ⟨l,r,hl,hr,hbal⟩ := h
  simp only [workerStep] at hs
  split at hs
  · cases hs
  · rename_i b hd
    cases hs
    simp only [hd,Drain.pointer,bind_some] at hr
    obtain ⟨r',rfl,hr'⟩ := linked_some hr
    obtain ⟨hbl,hbr⟩ := not_mem_of_drained (hbal b)
    refine RunQueuesOk.setWorker l r' hbal hx (hl.update hbl none)
      (hr'.update hbr none) rfl (fun a q n hn hB => ?_)
    have he : overflowShare (some ⟨s.shared.nextRunnable b,some b⟩) l r' a =
        overflowShare s.shared.drain l (b :: r') a := by
      simp only [hd,overflowShare,Drain.firstShare,count_cons,share,beq_iff_eq]
      omega
    rw [← he] at hB
    exact hB
  · rename_i b f hd
    cases hs
    simp only [hd,Drain.pointer,bind_some] at hr
    obtain ⟨r',rfl,hr'⟩ := linked_some hr
    obtain ⟨hbl,hbr⟩ := not_mem_of_drained (hbal b)
    refine RunQueuesOk.setWorker l r' hbal hx (hl.update hbl none)
      (hr'.update hbr none) rfl (fun a q n hn hB => ?_)
    have ho : overflowShare s.shared.drain l (b :: r') a =
        overflowShare (some ⟨s.shared.nextRunnable b,some f⟩) l r' a + share b a := by
      simp only [hd,overflowShare,Drain.firstShare,count_cons,share,beq_iff_eq]
      omega
    rw [ho] at hB
    by_cases hlen : d.length < dequeCapacity
    · have he : (dequePush d b).count a = d.count a + share b a := by
        simp only [dequePush,if_pos hlen,count_cons,share,beq_iff_eq]
      simp only [Worker.entries,WorkerPc.holds,he] at hB ⊢
      exact hB.stopRun (by omega) (Nat.le_refl _)
    · have hnot : ¬ strict := fun hst => hlen (hroom hst)
      refine hB.drop (fun hp => absurd hp.1 hnot) ?_ (Nat.le_refl _)
      simp only [dequePush,if_neg hlen]
      omega
  · rename_i f hd
    cases hs
    simp only [hd,Drain.pointer,bind_some] at hr
    obtain rfl := linked_none hr
    refine RunQueuesOk.setWorker l [] hbal hx hl trivial rfl (fun a q n hn hB => ?_)
    simp only [hd,overflowShare,Drain.firstShare,Worker.entries,WorkerPc.holds,WorkerPc.runs]
      at hB ⊢
    exact hB.stopRun (by omega) (Nat.le_refl _)
  · rename_i hd
    cases hs
    simp only [hd,Drain.pointer,bind_some] at hr
    obtain rfl := linked_none hr
    refine RunQueuesOk.setWorker l [] hbal hx hl trivial rfl (fun a q n hn hB => ?_)
    simpa only [hd,overflowShare,Drain.firstShare,Worker.entries,WorkerPc.holds,WorkerPc.runs]
      using hB

theorem worker_go_ok (hx : s.workers[w]? = some x)
    (hs : workerStep s.shared x .go = some (sh,y)) (hord : orderly s (.worker w .go))
    (hroom : strict → hasRoom s (.worker w .go)) :
    RunQueuesOk strict { s with shared := sh,workers := s.workers.set w y } := by
  obtain ⟨pc,d⟩ := x
  cases pc with
  | poll => cases hs
  | execute a => cases hs
  | drain => exact worker_drain_ok h hx hs (fun hst => by simpa [hasRoom,hx] using hroom hst)
  | hold b =>
    simp only [workerStep] at hs
    split at hs
    · cases hs
      refine h.workerAt b hx (.setState ..) (fun a hab => ?_) (fun q n hn hB => ?_)
      · simp [hab]
      · simp at hB ⊢
        exact hB.claim (by omega) (by omega)
    · rename_i hst
      cases hs
      refine h.workerAt b hx (.refl _) (fun a hab => ?_) (fun q n hn hB => ?_)
      · simp [hab]
      · simp at hB ⊢
        exact hB.drop (fun _ => hst) (by omega) (by omega)
  | dispatch b =>
    simp only [workerStep] at hs
    repeat' split at hs
    all_goals
      cases hs
      exact h.workerAt b hx (by constructor <;> rfl) (fun _ _ => ⟨rfl,rfl,rfl⟩) (fun _ _ _ hB => hB)
  | crashed b =>
    simp only [workerStep] at hs
    split at hs
    all_goals
      cases hs
      exact h.workerAt b hx (by constructor <;> rfl) (fun _ _ => ⟨rfl,rfl,rfl⟩) (fun _ _ _ hB => hB)
  | dequeued b | waited b | drained b =>
    cases hs
    exact h.workerAt b hx (by constructor <;> rfl) (fun _ _ => ⟨rfl,rfl,rfl⟩) (fun _ _ _ hB => hB)
  | returned b rc =>
    simp only [workerStep] at hs
    repeat' split at hs
    all_goals cases hs
    · refine h.workerAt b hx (.refl _) (fun a hab => ?_) (fun q n hn hB => ?_)
      · simp [hab]
      · exact hB.stopRun rfl (by simp)
    · exact h.workerAt b hx (.refl _) (fun _ _ => ⟨rfl,rfl,rfl⟩) (fun _ _ _ hB => hB)
    · exact h.workerAt b hx (.refl _) (fun _ _ => ⟨rfl,rfl,rfl⟩) (fun _ _ _ hB => hB)
  | idleCheck b | recheck b =>
    simp only [workerStep] at hs
    split at hs
    all_goals
      cases hs
      exact h.workerAt b hx (.refl _) (fun _ _ => ⟨rfl,rfl,rfl⟩) (fun _ _ _ hB => hB)
  | requeue b =>
    cases hs
    refine h.workerAt b hx (.setState ..) (fun a hab => ?_) (fun q n hn hB => ?_)
    · simp [hab]
    · simp at hB ⊢
      exact hB.requeue (by omega) (by omega)
  | push b =>
    cases hs
    refine h.workerAt b hx (.refl _) (fun a hab => ?_) (fun q n hn hB => ?_)
    · simp [hab]
    · by_cases hd : d.length < dequeCapacity
      · simpa [dequePush,hd] using hB
      · have hnot : ¬ strict := fun hst => hd (by simpa [hasRoom,hx] using hroom hst)
        exact hB.drop (fun hp => absurd hp.1 hnot) (by simp [dequePush,hd]) (by simp)
  | suspend b =>
    cases hs
    refine h.workerAt b hx (.setState ..) (fun a hab => ?_) (fun q n hn hB => ?_)
    · simp [hab]
    · simp at hB ⊢
      exact hB.suspend rfl (by omega)
  | rewake b =>
    simp only [workerStep] at hs
    split at hs
    · rename_i hst
      cases hs
      refine h.workerAt b hx (.setState ..) (fun a hab => ?_) (fun q n hn hB => ?_)
      · simp [hab]
      · simp at hB ⊢
        have hfree := runTally_eq_zero (by simp only [orderly,hx,map_some] at hord; exact hord hst)
        exact hB.awaken (.inr ⟨hst,by simpa [hfree] using hn⟩) (by omega) rfl
    · cases hs
      exact h.workerAt b hx (.refl _) (fun _ _ => ⟨rfl,rfl,rfl⟩) (fun _ _ _ hB => hB)

/-- `pop`, `overflow` and the ends of an execution. -/
theorem worker_choice_ok {c : WorkerChoice} (hx : s.workers[w]? = some x)
    (hs : workerStep s.shared x c = some (sh,y)) (hord : orderly s (.worker w c))
    (hroom : strict → hasRoom s (.worker w c)) :
    RunQueuesOk strict { s with shared := sh,workers := s.workers.set w y } := by
  cases c with
  | go => exact worker_go_ok h hx hs hord hroom
  | steal v => cases hs
  | pop =>
    simp only [workerStep] at hs
    split at hs
    · rename_i b d hpc hd
      split at hs
      · cases hs
        refine h.workerAt b hx (.refl _) (fun a hab => ?_) (fun q n hn hB => ?_)
        · simp [hpc,hd,hab,Ne.symm hab]
        · simpa [hpc,hd] using hB
      · cases hs
    · cases hs
  | overflow =>
    simp only [workerStep] at hs
    split at hs
    · rename_i hpre
      obtain ⟨hpc,-,hd,-⟩ := hpre
      cases hs
      obtain ⟨l,r,hl,hr,hbal⟩ := h
      simp only [hd,Drain.pointer,bind_none] at hr
      obtain rfl := linked_none hr
      refine RunQueuesOk.setWorker [] l hbal hx trivial hl rfl (fun a q n hn hB => ?_)
      simp only [hd,overflowShare,Drain.firstShare,Worker.entries,hpc,WorkerPc.holds,
        WorkerPc.runs,count_nil] at hB ⊢
      exact hB.stopRun (by omega) (Nat.le_refl _)
    · cases hs
  | finish rc =>
    obtain ⟨pc,d⟩ := x
    simp only [workerStep] at hs
    split at hs
    any_goals cases hs
    all_goals
      rename_i b
      refine h.workerAt b hx (by constructor <;> rfl) ?_ (fun _ _ _ hB => hB)
      exact fun _ _ => ⟨rfl,rfl,rfl⟩
  | wait =>
    obtain ⟨pc,d⟩ := x
    cases pc with
    | execute b =>
      simp only [workerStep] at hs
      split at hs
      · rename_i hst
        cases hs
        refine h.workerAt b hx (.setState ..) (fun a hab => ?_) (fun q n hn hB => ?_)
        · exact ⟨setState_of_ne _ hab _,rfl,rfl⟩
        · rw [setState_self]
          rw [hst] at hB
          exact hB.wait rfl rfl
      · cases hs
        exact h.workerAt b hx (.refl _) (fun _ _ => ⟨rfl,rfl,rfl⟩) (fun _ _ _ hB => hB)
    | _ => cases hs
  | crash =>
    obtain ⟨pc,d⟩ := x
    cases pc with
    | execute b =>
      simp only [workerStep] at hs
      split at hs
      · cases hs
        refine h.workerAt b hx (by constructor <;> rfl) (fun a hab => ?_) (fun q n hn hB => ?_)
        · exact ⟨setState_of_ne _ hab _,rfl,rfl⟩
        · rw [setState_self]
          exact hB.terminate rfl rfl
      · cases hs
        exact h.workerAt b hx (by constructor <;> rfl) (fun _ _ => ⟨rfl,rfl,rfl⟩)
          (fun _ _ _ hB => hB)
    | _ => cases hs

theorem steal_ok {v b : Nat} {d : List Nat} (hx : s.workers[w]? = some x)
    (hy : s.workers[v]? = some y) (hpc : x.pc = .poll) (hne : v ≠ w) (hd : y.deque = d ++ [b]) :
    RunQueuesOk strict
      { s with workers := (s.workers.set v ⟨y.pc,d⟩).set w ⟨.hold b,x.deque⟩ } := by
  obtain ⟨l,r,hl,hr,hbal⟩ := h
  refine ⟨l,r,hl,hr,fun a => ?_⟩
  have hx' : (s.workers.set v ⟨y.pc,d⟩)[w]? = some x := by rw [getElem?_set_ne hne,hx]
  have h₁ := tally_set hy ⟨y.pc,d⟩ (fun x => x.entries a)
  have h₂ := tally_set hx' ⟨.hold b,x.deque⟩ (fun x => x.entries a)
  have h₃ := tally_set hy ⟨y.pc,d⟩ (fun x => x.pc.runs a)
  have h₄ := tally_set hx' ⟨.hold b,x.deque⟩ (fun x => x.pc.runs a)
  have hye : y.entries a = Worker.entries ⟨y.pc,d⟩ a + share b a := by
    simp [hd,count_cons,share]
    omega
  have hxe : Worker.entries ⟨.hold b,x.deque⟩ a = x.entries a + share b a := by
    simp [hpc]
  have hrun : x.pc.runs a = 0 := by simp [hpc]
  have hrun' : (Worker.mk (.hold b) x.deque).pc.runs a = 0 := rfl
  simp only [hrun,hrun'] at h₃ h₄
  refine (hbal a).stopRun ?_ ?_
  · simp only [queuedTally]
    omega
  · simp only [runTally]
    omega

theorem client_begin_ok {c : ClientChoice} {pc : ClientPc}
    (hi : s.clients[i]? = some .idle) (hs : clientBegin s.shared c = some (sh,pc)) :
    RunQueuesOk strict { s with shared := sh,clients := s.clients.set i pc } := by
  cases c with
  | go => cases hs
  | _ b =>
    simp only [clientBegin] at hs
    split at hs <;> cases hs
    exact h.clientAt b hi (by constructor <;> rfl) (fun _ _ => ⟨rfl,rfl⟩) (fun _ hB => hB)

theorem client_enqueue_ok {b : Nat} {pc : ClientPc}
    (hi : s.clients[i]? = some (.enqueue b)) (hs : clientGo s.shared i (.enqueue b) = some (sh,pc))
    :
    RunQueuesOk strict { s with shared := sh,clients := s.clients.set i pc } := by
  obtain ⟨l,r,hl,hr,hbal⟩ := h
  simp only [clientGo] at hs
  split at hs
  · rename_i hd
    cases hs
    have hheld := le_tally hi (fun c => c.holds b)
    have hone := (hbal b).atMostOne
    have hshare : (ClientPc.enqueue b).holds b = 1 := share_self b
    simp only [queuedTally,overflowShare] at hone
    have hbl : b ∉ l := count_eq_zero.mp (by omega)
    have hbr : b ∉ r := count_eq_zero.mp (by omega)
    refine RunQueuesOk.setClient (b :: l) r hbal hi ⟨rfl,?_⟩ (hr.update hbr _) rfl
      (fun a q hB => ?_)
    · have := hl.update hbl s.shared.overflowHead
      simpa [Shared.setNext] using this
    · refine hB.stopRun ?_ (Nat.le_refl _)
      simp only [overflowShare,ClientPc.holds,count_cons,share,beq_iff_eq,Shared.setNext]
      omega
  · cases hs

theorem client_go_ok (hi : s.clients[i]? = some c)
    (hs : clientGo s.shared i c = some (sh,d)) (hord : orderly s (.client i .go)) :
    RunQueuesOk strict { s with shared := sh,clients := s.clients.set i d } := by
  cases c with
  | idle => cases hs
  | enqueue b => exact client_enqueue_ok h hi hs
  | check b late | mailCount k b | sendRunning b | restartRunning b =>
    simp only [clientGo] at hs
    split at hs <;> cases hs
    all_goals
      exact h.clientAt b hi (by constructor <;> rfl) (fun _ _ => ⟨rfl,rfl⟩) (fun _ hB => hB)
  | mailFull k b | mailLink k b =>
    cases hs
    cases k
    all_goals
      exact h.clientAt b hi (by constructor <;> rfl) (fun _ _ => ⟨rfl,rfl⟩) (fun _ hB => hB)
  | mailExchange k b | unregister b =>
    cases hs
    exact h.clientAt b hi (by constructor <;> rfl) (fun _ _ => ⟨rfl,rfl⟩) (fun _ hB => hB)
  | sendSuspended b | wake b =>
    simp only [clientGo] at hs
    split at hs <;> cases hs
    · rename_i hst
      have hfree := runTally_eq_zero (by simp only [orderly,hi] at hord; exact hord hst)
      refine h.clientAt b hi (.setState ..) (fun a hab => ?_) (fun q hB => ?_)
      · simp [hab]
      · simp at hB ⊢
        exact hB.awaken (.inr ⟨hst,hfree⟩) (by omega) rfl
    · exact h.clientAt b hi (.refl _) (fun _ _ => ⟨rfl,rfl⟩) (fun _ hB => hB)
  | sendCreated b | restartCas b =>
    simp only [clientGo] at hs
    split at hs <;> cases hs
    · rename_i hst
      refine h.clientAt b hi (.setState ..) (fun a hab => ?_) (fun q hB => ?_)
      · simp [hab]
      · simp at hB ⊢
        exact hB.awaken (.inl hst) (by omega) rfl
    · exact h.clientAt b hi (.refl _) (fun _ _ => ⟨rfl,rfl⟩) (fun _ hB => hB)
  | wakeRunning b =>
    simp only [clientGo] at hs
    split at hs <;> cases hs
    · exact h.clientAt b hi (.refl _) (fun _ _ => ⟨rfl,rfl⟩) (fun _ hB => hB)
    · rename_i hr
      refine h.clientAt b hi (.refl _) (fun a hab => ?_) (fun q hB => ?_)
      · simp [hab]
      · exact hB.drop (fun hp => absurd hp.2 hr) (by simp) (Nat.le_refl _)
  | restartStore b =>
    cases hs
    refine h.clientAt b hi (.setState ..) (fun a hab => ?_) (fun q hB => ?_)
    · simp [hab]
    · simp only [orderly,hi] at hord
      rw [setState_self,← hord]
      exact hB
  | terminate b | exceeded b =>
    cases hs
    refine h.clientAt b hi (.setState ..) (fun a hab => ?_) (fun q hB => ?_)
    · simp [hab]
    · rw [setState_self]
      exact hB.terminate rfl rfl

theorem RunQueuesOk.step {e : SysEvent} {t : Sys}
    (hord : orderly s e) (hroom : strict → hasRoom s e) (hs : sysStep s e = some t) :
    RunQueuesOk strict t := by
  cases sysStep_moves hs with
  | worker hx hw => exact worker_choice_ok h hx hw hord hroom
  | steal hx hy hpc hne hd => exact steal_ok h hx hy hpc hne hd
  | go hi hc => exact client_go_ok h hi hc hord
  | call hi hc => exact client_begin_ok h hi hc
  | stop =>
    obtain ⟨l,r,hl,hr,hbal⟩ := h
    exact ⟨l,r,hl,hr,fun a => (hbal a).weaken (fun hp => absurd hp.2 (by simp))⟩

end

end

/-! ### Whole runs -/

section

variable {s t : Sys}

theorem Started.tally_workers (h : Started s) (f : Worker → Nat) (hf : f ⟨.poll,[]⟩ = 0) :
    tally f s.workers = 0 := by
  by_contra hne
  obtain ⟨w,x,hx,hpos⟩ := exists_of_tally_pos (Nat.pos_of_ne_zero hne)
  rw [h.workers x (mem_of_getElem? hx),hf] at hpos
  exact Nat.lt_irrefl 0 hpos

theorem Started.tally_clients (h : Started s) (f : ClientPc → Nat) (hf : f .idle = 0) :
    tally f s.clients = 0 := by
  by_contra hne
  obtain ⟨i,c,hc,hpos⟩ := exists_of_tally_pos (Nat.pos_of_ne_zero hne)
  rw [h.clients c (mem_of_getElem? hc),hf] at hpos
  exact Nat.lt_irrefl 0 hpos

theorem Started.runQueuesOk (h : Started s) (strict : Prop) : RunQueuesOk strict s := by
  refine ⟨[],[],by rw [h.overflow]; trivial,by rw [h.drain]; trivial,fun a => ?_⟩
  have hq : queuedTally s [] [] a = share rootActor a := by
    rw [queuedTally,overflowShare,h.drain,h.tally_workers (fun x => x.entries a) rfl,
      h.tally_clients (fun c => c.holds a) rfl]
    simp [Drain.firstShare]
  have hr : runTally s a = 0 := h.tally_workers (fun x => x.pc.runs a) rfl
  rw [hq,hr]
  by_cases ha : a = rootActor
  · subst ha
    rw [share_self,h.root]
    exact ⟨by omega,fun _ => .inl rfl,by omega,by omega⟩
  · rw [share_of_ne ha]
    refine ⟨by omega,by omega,by omega,fun _ hst => ?_⟩
    rcases h.states a ha with hs | hs | hs <;> simp [hs] at hst

/-- Two idle workers, two other threads and one actor besides the root actor, not yet run. -/
def twoWorkers : Sys where
  shared :=
    { running := true
      state := fun a => if a = rootActor then .ready else .created
      saved := fun _ => false
      fresh := fun a => decide (2 < a)
      registered := fun a => decide (a = rootActor ∨ a = 2)
      count := fun _ => 0
      queue := fun _ => []
      nextRunnable := fun _ => none
      overflowHead := none
      drain := none }
  workers := [⟨.poll,[]⟩,⟨.poll,[]⟩]
  clients := [.idle,.idle]

theorem twoWorkers_started : Started twoWorkers where
  running := rfl
  root := rfl
  states := fun a ha => .inl (if_neg ha)
  counts := fun _ => ⟨rfl,Nat.zero_le _⟩
  nodes := fun _ _ h => by cases h
  overflow := rfl
  drain := rfl
  workers := by decide
  clients := by decide

def sendAndClaim : List SysEvent :=
  .client 0 (.send 2) :: List.replicate 8 (.client 0 .go) ++
  .worker 0 .overflow :: List.replicate 5 (.worker 0 .go)

def waitThenWake : List SysEvent :=
  [.worker 0 .wait,.client 1 (.wake 2),.client 1 .go,.client 1 .go,.client 1 .go]

theorem runs_of_processes {pc : WorkerPc} {a : Nat} (h : pc.processes a = true) :
    pc.runs a = 1 := by
  cases pc <;> simp_all [WorkerPc.processes]

/-- In a run whose steps are all orderly no two workers process one actor. -/
theorem single_execution (h₀ : Started s) (h : Path sysStep orderly s t) (a w v : Nat)
    (x y : Worker) (hx : t.workers[w]? = some x) (hy : t.workers[v]? = some y)
    (hxa : x.pc.processes a = true) (hya : y.pc.processes a = true) : w = v := by
  obtain ⟨l,r,-,-,hbal⟩ := h.invariant (h₀.runQueuesOk False)
    (fun _ _ _ hi hord hs => hi.step hord (fun hf => hf.elim) hs)
  by_contra hne
  have hle := add_le_tally hx hy hne (fun x => x.pc.runs a)
  have hone := (hbal a).atMostOne
  simp only [runs_of_processes hxa,runs_of_processes hya] at hle
  unfold runTally at hone
  omega

theorem single_execution_after_claim : ∃ t : Sys,Path sysStep orderly twoWorkers t ∧
    (t.workers[0]?).map Worker.pc = some (.execute 2) ∧
    ∀ (v : Nat) (y : Worker),t.workers[v]? = some y → y.pc.processes 2 = true → 0 = v := by
  have hpath : Path sysStep orderly twoWorkers _ := runAll_path sendAndClaim rfl
  exact ⟨_,hpath,rfl,fun v y hy hya =>
    single_execution twoWorkers_started hpath 2 0 v _ y rfl hy rfl hya⟩

/-- Worker 1 takes the woken actor while worker 0 is still inside the wait. -/
theorem waiting_actor_claimed_twice : ∃ s t : Sys,Started s ∧ Path sysStep (fun _ _ => True) s t ∧
      ∃ (a w v : Nat) (x y : Worker),t.workers[w]? = some x ∧ t.workers[v]? = some y ∧
        x.pc.processes a = true ∧ y.pc.processes a = true ∧ w ≠ v :=
  ⟨twoWorkers,_,twoWorkers_started,runAll_path (sendAndClaim ++ waitThenWake ++
    .worker 1 .overflow :: List.replicate 3 (.worker 1 .go)) rfl,2,0,1,_,_,rfl,rfl,rfl,rfl,
    by decide⟩

/-- If all steps are orderly and all pushes have room, every READY actor is queued or held exactly
once while the scheduler runs, and the overflow list has no cycle. -/
theorem runnable_queued_once (h₀ : Started s)
    (h : Path sysStep (fun s e => orderly s e ∧ hasRoom s e) s t) :
    ∃ l r,Linked t.shared.nextRunnable t.shared.overflowHead l ∧
      Linked t.shared.nextRunnable (Drain.pointer t.shared.drain) r ∧ (l ++ r).Nodup ∧
      (t.shared.running = true → ∀ a,t.shared.state a = .ready → queuedTally t l r a = 1) := by
  obtain ⟨l,r,hl,hr,hbal⟩ := h.invariant (h₀.runQueuesOk True)
    (fun _ _ _ hi hok hs => hi.step hok.1 (fun _ => hok.2) hs)
  refine ⟨l,r,hl,hr,nodup_iff_count_le_one.2 (fun a => ?_),fun hrun a hst => ?_⟩
  · have := (hbal a).atMostOne
    simp only [queuedTally,overflowShare] at this
    rw [count_append]
    omega
  · have hne := (hbal a).ready ⟨trivial,hrun⟩ hst
    have hone := (hbal a).atMostOne
    omega

theorem runnable_queued_once_after_send :
    ∃ t : Sys,t.shared.running = true ∧ t.shared.state 2 = .ready ∧
      ∃ l r,Linked t.shared.nextRunnable t.shared.overflowHead l ∧ queuedTally t l r 2 = 1 := by
  have hpath : Path sysStep (fun s e => orderly s e ∧ hasRoom s e) twoWorkers _ :=
    runAll_path (.client 0 (.send 2) :: List.replicate 8 (.client 0 .go)) rfl
  obtain ⟨l,r,hl,-,-,hone⟩ := runnable_queued_once twoWorkers_started hpath
  exact ⟨_,rfl,rfl,l,r,hl,hone rfl 2 rfl⟩

/-- Worker 0 puts the actor, which the waker has enqueued, into its own deque as well. -/
theorem waiting_actor_queued_twice :
    ∃ s t : Sys,Started s ∧ Path sysStep (fun _ _ => True) s t ∧ t.shared.running = true ∧
      t.shared.state 2 = .ready ∧ ∀ l r,Linked t.shared.nextRunnable t.shared.overflowHead l →
        queuedTally t l r 2 ≠ 1 := by
  have hrun : (runAll sysStep (fun _ _ => True) (sendAndClaim ++ waitThenWake ++
      List.replicate 4 (.worker 0 .go)) twoWorkers).map (fun t => (t.shared.running,
        t.shared.state 2,t.shared.overflowHead,t.workers)) =
      some (true,.ready,some 2,[⟨.poll,[2]⟩,⟨.poll,[]⟩]) := by rfl
  obtain ⟨t,hpath,ht⟩ := runAll_map_path hrun
  simp only [Prod.mk.injEq] at ht
  obtain ⟨hr,hst,hhead,hworkers⟩ := ht
  refine ⟨twoWorkers,t,twoWorkers_started,hpath,hr,hst,fun l r hl => ?_⟩
  rw [hhead] at hl
  obtain ⟨l',rfl,-⟩ := linked_some hl
  have hdeque : tally (fun x => x.entries 2) t.workers = 1 := by
    rw [hworkers]
    rfl
  simp only [queuedTally,overflowShare,count_cons_self,hdeque]
  omega

end

end SmalltalkA
