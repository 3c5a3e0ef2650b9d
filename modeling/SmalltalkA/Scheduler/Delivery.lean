import SmalltalkA.Scheduler.RunQueues

/-! Delivery. A mailbox is empty by its counter, increased before a node is exchanged in and
decreased after one is taken out. So an actor with a linked message is running, queued, or has a
thread on the way to see to it. -/

set_option autoImplicit false

namespace SmalltalkA

open Interleaving List Function

/-! ### The counter -/

/-- In `sta_mailbox_dequeue`, between the node and the counter. -/
def WorkerPc.counts : WorkerPc → Nat → Nat
  | .dequeued b,a | .drained b,a => share b a
  | _,_ => 0

/-- In `sta_mailbox_enqueue`, between the counter and the node. -/
def ClientPc.counts : ClientPc → Nat → Nat
  | .mailFull _ b,a | .mailExchange _ b,a => share b a
  | _,_ => 0

/-- The counter of each mailbox is the number of nodes and of calls in progress. -/
def CountsOk (s : Sys) : Prop :=
  ∀ a,s.shared.count a < 2 ^ 32 ∧ s.shared.count a = (s.shared.queue a).length +
    tally (fun x => x.pc.counts a) s.workers + tally (fun c => c.counts a) s.clients

def noWrap (s : Sys) : SysEvent → Prop
  | .client i .go =>
    match s.clients[i]? with
    | some (.mailCount _ a) => s.shared.count a + 1 < 2 ^ 32
    | _ => True
  | _ => True

/-- The mailbox an event is about to count a message in. -/
def countedIn (s : Sys) : SysEvent → Option Nat
  | .client i .go =>
    match s.clients[i]? with
    | some (.mailCount _ a) => some a
    | _ => none
  | _ => none

theorem noWrap_iff (s : Sys) (e : SysEvent) :
    (∀ a ∈ countedIn s e,s.shared.count a + 1 < 2 ^ 32) ↔ noWrap s e := by
  unfold countedIn noWrap
  repeat' split
  all_goals simp_all

instance (s : Sys) (e : SysEvent) : Decidable (noWrap s e) :=
  decidable_of_iff _ (noWrap_iff s e)

/-- What a worker's step does to the mailboxes. -/
inductive WorkerMail (s t : Shared) (x y : WorkerPc) : Prop where
  | same : t.queue = s.queue → t.count = s.count → (∀ a,y.counts a = x.counts a) →
      WorkerMail s t x y
  | take {b : Nat} {n : MbNode} {rest : List MbNode} : s.queue b = n :: rest →
      t.queue = update s.queue b rest → t.count = s.count → (∀ a,x.counts a = 0) →
      (∀ a,y.counts a = share b a) → WorkerMail s t x y
  | dec {b : Nat} : t.queue = s.queue → t.count = (s.decCount b).count →
      (∀ a,x.counts a = share b a) → (∀ a,y.counts a = 0) → WorkerMail s t x y

/-- What a step of another thread does to them. -/
inductive ClientMail (s t : Shared) (i : Nat) : ClientPc → ClientPc → Prop where
  | same {c d : ClientPc} : t.queue = s.queue → t.count = s.count →
      (∀ a,d.counts a = c.counts a) → ClientMail s t i c d
  | inc {k : MailKind} {b : Nat} {d : ClientPc} : t.queue = s.queue →
      t.count = (s.incCount b).count → (∀ a,d.counts a = share b a) →
      ClientMail s t i (.mailCount k b) d
  | dec {c d : ClientPc} {b : Nat} : t.queue = s.queue → t.count = (s.decCount b).count →
      (∀ a,c.counts a = share b a) → (∀ a,d.counts a = 0) → ClientMail s t i c d
  | put {k : MailKind} {b : Nat} :
      t.queue = update s.queue b (s.queue b ++ [⟨i,false,k.late⟩]) →
      t.count = s.count → ClientMail s t i (.mailExchange k b) (.mailLink k b)
  | link {k : MailKind} {b : Nat} :
      t.queue = update s.queue b ((s.queue b).map (linkNode i k)) →
      t.count = s.count → ClientMail s t i (.mailLink k b) (afterLink k b)

section

variable {s t : Shared}

theorem workerStep_mail {x y : Worker} {c : WorkerChoice} (h : workerStep s x c = some (t,y)) :
    WorkerMail s t x.pc y.pc := by
  obtain ⟨pc,d⟩ := x
  cases c with
  | steal v => cases h
  | pop | overflow | finish rc =>
    simp only [workerStep] at h
    repeat' split at h
    all_goals cases h
    all_goals
      simp_all only
      exact .same rfl rfl (fun _ => rfl)
  | wait | crash =>
    cases pc with
    | execute b =>
      simp only [workerStep] at h
      split at h <;> cases h <;> exact .same rfl rfl (fun _ => rfl)
    | _ => cases h
  | go =>
    cases pc with
    | dispatch b | crashed b =>
      simp only [workerStep] at h
      repeat' split at h
      all_goals cases h
      all_goals first
        | exact .same rfl rfl (fun _ => rfl)
        | exact .take ‹_› rfl rfl (fun _ => rfl) (fun _ => rfl)
    | dequeued b | drained b =>
      cases h
      exact .dec rfl rfl (fun _ => rfl) (fun _ => rfl)
    | _ =>
      simp only [workerStep] at h
      repeat' split at h
      all_goals
        cases h
        try exact .same rfl rfl (fun _ => rfl)

variable {d : ClientPc} {i a r : Nat}

theorem clientGo_mail {c : ClientPc} (h : clientGo s i c = some (t,d)) : ClientMail s t i c d := by
  cases c with
  | mailCount k b =>
    simp only [clientGo] at h
    split at h <;> cases h <;> exact .inc rfl rfl (fun _ => rfl)
  | mailFull k b =>
    cases h
    cases k <;> exact .dec rfl rfl (fun _ => rfl) (fun _ => rfl)
  | mailExchange k b =>
    cases h
    exact .put rfl rfl
  | mailLink k b =>
    cases h
    exact .link rfl rfl
  | _ =>
    simp only [clientGo] at h
    repeat' split at h
    all_goals
      cases h
      try exact .same rfl rfl (fun _ => rfl)

theorem clientBegin_mail {c : ClientChoice} (h : clientBegin s c = some (t,d)) :
    ClientMail s t i .idle d := by
  cases c with
  | go => cases h
  | _ =>
    simp only [clientBegin] at h
    split at h <;> cases h
    exact .same rfl rfl (fun _ => rfl)

theorem decCount_count {b : Nat} (hlt : s.count a < 2 ^ 32) (hc : s.count a = r + share b a) :
    (s.decCount b).count a = r := by
  by_cases hab : a = b
  · subst hab
    simp only [Shared.decCount,Shared.addCount,update_self]
    rw [share_self] at hc
    omega
  · simp only [Shared.decCount,Shared.addCount,update_of_ne hab]
    rw [share_of_ne hab] at hc
    omega

theorem incCount_count {b : Nat} (hlt : s.count a < 2 ^ 32) (hb : s.count b + 1 < 2 ^ 32) :
    (s.incCount b).count a = s.count a + share b a ∧ (s.incCount b).count a < 2 ^ 32 := by
  by_cases hab : a = b
  · subst hab
    simp only [Shared.incCount,Shared.addCount,update_self,share_self]
    omega
  · simp only [Shared.incCount,Shared.addCount,update_of_ne hab,share_of_ne hab]
    omega

theorem WorkerMail.count {x y : WorkerPc} (h : WorkerMail s t x y) (hlt : s.count a < 2 ^ 32)
    (hc : s.count a = (s.queue a).length + x.counts a + r) :
    t.count a < 2 ^ 32 ∧ t.count a = (t.queue a).length + y.counts a + r := by
  cases h with
  | same hq hn hk =>
    rw [hq,hn,hk]
    exact ⟨hlt,hc⟩
  | @take b n rest hb hq hn hx hy =>
    rw [hx] at hc
    rw [hq,hn,hy]
    refine ⟨hlt,?_⟩
    by_cases hab : a = b
    · subst hab
      rw [update_self,share_self]
      rw [hb,length_cons] at hc
      omega
    · rw [update_of_ne hab,share_of_ne hab]
      exact hc
  | @dec b hq hn hx hy =>
    rw [hx] at hc
    have := decCount_count (b := b) (r := (s.queue a).length + r) hlt (by omega)
    rw [hq,hn,hy,this]
    omega

theorem ClientMail.count {c : ClientPc} (h : ClientMail s t i c d)
    (hwrap : ∀ k b,c = .mailCount k b → s.count b + 1 < 2 ^ 32) (hlt : s.count a < 2 ^ 32)
    (hc : s.count a = (s.queue a).length + c.counts a + r) :
    t.count a < 2 ^ 32 ∧ t.count a = (t.queue a).length + d.counts a + r := by
  cases h with
  | same hq hn hk =>
    rw [hq,hn,hk]
    exact ⟨hlt,hc⟩
  | @inc k b d hq hn hk =>
    obtain ⟨he,hlt'⟩ := incCount_count hlt (hwrap k b rfl)
    have hzero : (ClientPc.mailCount k b).counts a = 0 := rfl
    rw [hq,hn,hk]
    omega
  | @dec c d b hq hn hx hy =>
    rw [hx] at hc
    have := decCount_count (b := b) (r := (s.queue a).length + r) hlt (by omega)
    rw [hq,hn,hy,this]
    omega
  | @put k b hq hn =>
    have hone : (ClientPc.mailExchange k b).counts a = share b a := rfl
    have hzero : (ClientPc.mailLink k b).counts a = 0 := rfl
    rw [hq,hn]
    refine ⟨hlt,?_⟩
    by_cases hab : a = b
    · subst hab
      rw [update_self,length_append,length_singleton]
      rw [share_self] at hone
      omega
    · rw [update_of_ne hab]
      rw [share_of_ne hab] at hone
      omega
  | @link k b hq hn =>
    have hone : (ClientPc.mailLink k b).counts a = 0 := rfl
    have hzero : (afterLink k b).counts a = 0 := by cases k <;> rfl
    have hlen : (t.queue a).length = (s.queue a).length := by
      rw [hq]
      by_cases hab : a = b
      · subst hab
        rw [update_self,length_map]
      · rw [update_of_ne hab]
    rw [hn,hlen]
    omega

end

theorem CountsOk.step {s t : Sys} {e : SysEvent} (h : CountsOk s) (he : noWrap s e)
    (hs : sysStep s e = some t) : CountsOk t := by
  intro a
  obtain ⟨hlt,hc⟩ := h a
  cases sysStep_moves hs with
  | @worker w c x y sh hx hw =>
    have hset := tally_set hx y (fun x => x.pc.counts a)
    have hle := le_tally hx (fun x => x.pc.counts a)
    obtain ⟨q,hq⟩ := Nat.le.dest hle
    have := (workerStep_mail hw).count (a := a)
      (r := q + tally (fun c => c.counts a) s.clients) hlt (by omega)
    refine ⟨this.1,?_⟩
    rw [this.2]
    dsimp only
    omega
  | @steal w v b x y d hx hy hpc hne hd =>
    have hx' : (s.workers.set v ⟨y.pc,d⟩)[w]? = some x := by rw [getElem?_set_ne hne,hx]
    have h₁ := tally_set hy ⟨y.pc,d⟩ (fun x => x.pc.counts a)
    have h₂ := tally_set hx' ⟨.hold b,x.deque⟩ (fun x => x.pc.counts a)
    have hpoll : x.pc.counts a = 0 := by rw [hpc]; rfl
    have hhold : (Worker.mk (.hold b) x.deque).pc.counts a = 0 := rfl
    refine ⟨hlt,?_⟩
    dsimp only at h₁ h₂ hhold ⊢
    omega
  | @go i c d sh hi hc' =>
    have hset := tally_set hi d (fun c => c.counts a)
    obtain ⟨q,hq⟩ := Nat.le.dest (le_tally hi (fun c => c.counts a))
    have := (clientGo_mail hc').count (a := a) (r := q + tally (fun x => x.pc.counts a) s.workers)
      (fun k b hk => by simpa only [noWrap,hi,hk] using he) hlt (by omega)
    refine ⟨this.1,?_⟩
    rw [this.2]
    dsimp only
    omega
  | @call i c d sh hi hc' =>
    have hset := tally_set hi d (fun c => c.counts a)
    obtain ⟨q,hq⟩ := Nat.le.dest (le_tally hi (fun c => c.counts a))
    have := (clientBegin_mail (i := i) hc').count (a := a)
      (r := q + tally (fun x => x.pc.counts a) s.workers)
      (fun k b hk => by cases hk) hlt (by omega)
    refine ⟨this.1,?_⟩
    rw [this.2]
    dsimp only
    omega
  | stop => exact ⟨hlt,hc⟩

/-! ### Positions and states -/

def WorkerPc.engaged : WorkerPc → Nat → Bool
  | .dispatch b,a | .dequeued b,a | .execute b,a => b == a
  | _,_ => false

def WorkerPc.afterCrash : WorkerPc → Nat → Bool
  | .crashed b,a | .drained b,a | .returned b .exception,a => b == a
  | _,_ => false

def PlacedOk (st : ActorState) (pc : WorkerPc) (a : Nat) : Prop :=
  (pc.engaged a = true → st = .running ∨ st = .terminated) ∧
  (pc.afterCrash a = true → st = .terminated)

def PositionsOk (s : Sys) : Prop :=
  ∀ (w : Nat) (x : Worker),s.workers[w]? = some x → ∀ a,PlacedOk (s.shared.state a) x.pc a

variable {a : Nat}

theorem runs_of_placed {pc : WorkerPc} (h : pc.engaged a = true ∨ pc.afterCrash a = true) :
    pc.runs a = 1 := by
  cases pc with
  | returned b rc => cases rc <;> simp_all [WorkerPc.engaged,WorkerPc.afterCrash,WorkerPc.runs]
  | _ => simp_all [WorkerPc.engaged,WorkerPc.afterCrash,WorkerPc.runs]

theorem PlacedOk.elsewhere {st : ActorState} {pc : WorkerPc} (he : pc.engaged a = false)
    (hc : pc.afterCrash a = false) : PlacedOk st pc a :=
  ⟨fun h => by simp [he] at h,fun h => by simp [hc] at h⟩

theorem workerStep_placed {s t : Shared} {x y : Worker} {c : WorkerChoice}
    (h : workerStep s x c = some (t,y)) (hx : PlacedOk (s.state a) x.pc a) :
    PlacedOk (t.state a) y.pc a := by
  obtain ⟨pc,d⟩ := x
  cases c with
  | steal v => cases h
  | pop | overflow | finish rc =>
    simp only [workerStep] at h
    repeat' split at h
    all_goals
      cases h
      try exact .elsewhere rfl rfl
  | wait =>
    cases pc with
    | execute b =>
      cases h
      exact .elsewhere rfl rfl
    | _ => cases h
  | crash =>
    cases pc with
    | execute b =>
      simp only [workerStep] at h
      split at h <;> cases h
      · refine ⟨fun he => (Bool.noConfusion he),fun hc => ?_⟩
        obtain rfl : b = a := by simpa [WorkerPc.afterCrash] using hc
        exact setState_self ..
      · rename_i hne
        refine ⟨fun he => (Bool.noConfusion he),fun hc => ?_⟩
        obtain rfl : b = a := by simpa [WorkerPc.afterCrash] using hc
        rcases hx.1 (by simp [WorkerPc.engaged]) with hst | hst
        · exact absurd hst hne
        · exact hst
    | _ => cases h
  | go =>
    cases pc with
    | hold b =>
      simp only [workerStep] at h
      split at h <;> cases h
      · refine ⟨fun he => .inl ?_,fun hc => (Bool.noConfusion hc)⟩
        obtain rfl : b = a := by simpa [WorkerPc.engaged] using he
        exact setState_self ..
      · exact .elsewhere rfl rfl
    | dispatch b =>
      simp only [workerStep] at h
      repeat' split at h
      all_goals cases h
      · exact hx
      · exact hx
      · exact .elsewhere rfl rfl
    | crashed b =>
      simp only [workerStep] at h
      split at h <;> cases h <;> exact hx
    | dequeued b | drained b =>
      cases h
      exact hx
    | _ =>
      simp only [workerStep] at h
      repeat' split at h
      all_goals
        cases h
        try exact .elsewhere rfl rfl

section

variable {s t : Sys}

variable {a : Nat}

theorem RunQueuesOk.runs_unique {strict : Prop} (h : RunQueuesOk strict s) {w v : Nat}
    {x y : Worker} (hx : s.workers[w]? = some x) (hy : s.workers[v]? = some y) (hwv : w ≠ v) :
    x.pc.runs a + y.pc.runs a ≤ 1 := by
  obtain ⟨l,r,-,-,hbal⟩ := h
  have hle := add_le_tally hx hy hwv (fun x => x.pc.runs a)
  have hone := (hbal a).atMostOne
  unfold runTally at hone
  omega

theorem PlacedOk.workerStore {sh sh' : Shared} {pc x y : WorkerPc} {c : WorkerChoice} {b : Nat}
    {st : ActorState} (h : PlacedOk (sh.state a) pc a) (hstore : WorkerStore sh c x y b st)
    (hrun : x.runs a + pc.runs a ≤ 1) (ht : sh'.state = update sh.state b st) :
    PlacedOk (sh'.state a) pc a := by
  by_cases hab : a = b
  · subst hab
    rw [ht,update_self]
    have hfree : x.runs a = 1 → pc.engaged a = false ∧ pc.afterCrash a = false := by
      intro hx
      constructor
      · by_contra hne
        have := runs_of_placed (.inl (by simpa using hne))
        omega
      · by_contra hne
        have := runs_of_placed (.inr (by simpa using hne))
        omega
    cases hstore with
    | crash => exact ⟨fun _ => .inr rfl,fun _ => rfl⟩
    | wait | requeue | suspend =>
      obtain ⟨he,hc⟩ := hfree (by simp [WorkerPc.runs])
      exact .elsewhere he hc
    | claim hst | rewake hst =>
      refine .elsewhere ?_ ?_
      · by_contra hne
        rcases h.1 (by simpa using hne) with h | h <;> simp [hst] at h
      · by_contra hne
        have := h.2 (by simpa using hne)
        simp [hst] at this
  · rwa [ht,update_of_ne hab]

theorem PlacedOk.clientStore {sh sh' : Shared} {pc : WorkerPc} {c : ClientPc} {b : Nat}
    {st : ActorState} (h : PlacedOk (sh.state a) pc a) (hstore : ClientStore sh c b st)
    (hord : c = .restartStore b → sh.state b = .created)
    (ht : sh'.state = update sh.state b st) : PlacedOk (sh'.state a) pc a := by
  by_cases hab : a = b
  · subst hab
    rw [ht,update_self]
    have hfree : sh.state a ≠ .running → sh.state a ≠ .terminated →
        pc.engaged a = false ∧ pc.afterCrash a = false := by
      intro h₁ h₂
      constructor
      · by_contra hne
        rcases h.1 (by simpa using hne) with h | h
        · exact h₁ h
        · exact h₂ h
      · by_contra hne
        exact h₂ (h.2 (by simpa using hne))
    cases hstore with
    | terminate | exceeded => exact ⟨fun _ => .inr rfl,fun _ => rfl⟩
    | restart =>
      have hst := hord rfl
      obtain ⟨he,hc⟩ := hfree (by simp [hst]) (by simp [hst])
      exact .elsewhere he hc
    | send hst | first hst | wake hst | restarted hst =>
      obtain ⟨he,hc⟩ := hfree (by simp [hst]) (by simp [hst])
      exact .elsewhere he hc
  · rwa [ht,update_of_ne hab]

theorem PositionsOk.step {strict : Prop} {e : SysEvent} (h : PositionsOk s)
    (hq : RunQueuesOk strict s) (hord : orderly s e) (hs : sysStep s e = some t) :
    PositionsOk t := by
  intro v z hz a
  cases sysStep_moves hs with
  | @worker w c x y sh hx hw =>
    by_cases hwv : w = v
    · subst hwv
      obtain rfl : y = z := by
        have hlt := (List.getElem?_eq_some_iff.mp hx).1
        simpa [hlt] using hz
      exact workerStep_placed hw (h w x hx a)
    · rw [getElem?_set_ne hwv] at hz
      rcases workerStep_state hw with hsame | ⟨b,st,hstore,hupd⟩
      · rw [hsame]
        exact h v z hz a
      · exact (h v z hz a).workerStore hstore (hq.runs_unique hx hz hwv) hupd
  | @steal w v' b x y d hx hy hpc hne hd =>
    by_cases hwv : w = v
    · subst hwv
      have hlt := (List.getElem?_eq_some_iff.mp hx).1
      obtain rfl : ⟨.hold b,x.deque⟩ = z := by simpa [hlt] using hz
      exact .elsewhere rfl rfl
    · rw [getElem?_set_ne hwv] at hz
      by_cases hv : v' = v
      · subst hv
        have hlt := (List.getElem?_eq_some_iff.mp hy).1
        obtain rfl : ⟨y.pc,d⟩ = z := by simpa [hlt] using hz
        exact h v' y hy a
      · rw [getElem?_set_ne hv] at hz
        exact h v z hz a
  | @go i c d sh hi hc =>
    rcases clientGo_state hc with hsame | ⟨b,st,hstore,hupd⟩
    · rw [hsame]
      exact h v z hz a
    · refine (h v z hz a).clientStore hstore ?_ hupd
      rintro rfl
      simpa only [orderly,hi] using hord
  | @call i c d sh hi hc =>
    rw [clientBegin_state hc]
    exact h v z hz a
  | stop => exact h v z hz a

end

/-! ### Attendance -/

def hasLate (s : Shared) (a : Nat) : Prop := ∃ n ∈ s.queue a,n.linked = true ∧ n.late = true

/-- A worker that will store READY or look at the counter before it lets the actor go. -/
def WorkerPc.attends : WorkerPc → Nat → Bool
  | .dispatch b,a | .dequeued b,a | .execute b,a | .waited b,a | .crashed b,a | .drained b,a
  | .returned b _,a | .idleCheck b,a | .requeue b,a | .suspend b,a | .recheck b,a
  | .rewake b,a => b == a
  | _,_ => false

def ClientPc.wakes : ClientPc → Nat → Bool
  | .sendRunning b,a | .sendSuspended b,a => b == a
  | _,_ => false

def ClientPc.starts : ClientPc → Nat → Bool
  | .sendRunning b,a | .sendSuspended b,a | .sendCreated b,a => b == a
  | _,_ => false

/-- A send that began while the scheduler was running, before its message is linked. -/
def ClientPc.sendsLate : ClientPc → Nat → Bool
  | .check b late,a => late && b == a
  | .mailCount k b,a | .mailFull k b,a | .mailExchange k b,a | .mailLink k b,a =>
    k.late && b == a
  | _,_ => false

/-- An idle actor with a message has a thread on the way to see to it. -/
structure Attended (s : Sys) : Prop where
  suspended : ∀ a,hasLate s.shared a → s.shared.state a = .suspended →
    (∃ x ∈ s.workers,x.pc.attends a = true) ∨ ∃ c ∈ s.clients,c.wakes a = true
  created : ∀ a,hasLate s.shared a → s.shared.state a = .created →
    ∃ c ∈ s.clients,c.starts a = true
  root : ¬ hasLate s.shared rootActor ∧ ∀ c ∈ s.clients,c.sendsLate rootActor = false

def notToRoot (s : Sys) : SysEvent → Prop
  | .client _ (.send a) => s.shared.running = true → a ≠ rootActor
  | _ => True

instance (s : Sys) (e : SysEvent) : Decidable (notToRoot s e) := by
  unfold notToRoot
  split <;> infer_instance

section

variable {s t : Shared} {a : Nat}

theorem WorkerMail.late {x y : WorkerPc} (h : WorkerMail s t x y) (hl : hasLate t a) :
    hasLate s a := by
  obtain ⟨n,hn,hlate⟩ := hl
  cases h with
  | same hq _ _ | dec hq _ _ _ => exact ⟨n,hq ▸ hn,hlate⟩
  | @take b m rest hb hq _ _ _ =>
    rw [hq] at hn
    by_cases hab : a = b
    · subst hab
      rw [update_self] at hn
      exact ⟨n,by rw [hb]; exact mem_cons_of_mem _ hn,hlate⟩
    · rw [update_of_ne hab] at hn
      exact ⟨n,hn,hlate⟩

variable {c d : ClientPc} {i : Nat}

theorem ClientMail.late (h : ClientMail s t i c d) (hl : hasLate t a) :
    hasLate s a ∨ c = .mailLink (.send true) a ∧ d = .sendRunning a := by
  obtain ⟨n,hn,hlinked,hlate⟩ := hl
  cases h with
  | same hq _ _ | inc hq _ _ | dec hq _ _ _ => exact .inl ⟨n,hq ▸ hn,hlinked,hlate⟩
  | @put k b hq _ =>
    refine .inl ?_
    rw [hq] at hn
    by_cases hab : a = b
    · subst hab
      rw [update_self,mem_append,mem_singleton] at hn
      rcases hn with hn | rfl
      · exact ⟨n,hn,hlinked,hlate⟩
      · cases hlinked
    · rw [update_of_ne hab] at hn
      exact ⟨n,hn,hlinked,hlate⟩
  | @link k b hq _ =>
    rw [hq] at hn
    by_cases hab : a = b
    · subst hab
      rw [update_self,List.mem_map] at hn
      obtain ⟨m,hm,rfl⟩ := hn
      unfold linkNode at hlinked hlate
      split at hlate
      · cases k with
        | restart => cases hlate
        | send late =>
          obtain rfl : late = true := hlate
          exact .inr ⟨rfl,rfl⟩
      · rename_i hne
        rw [if_neg hne] at hlinked
        exact .inl ⟨m,hm,hlinked,hlate⟩
    · rw [update_of_ne hab] at hn
      exact .inl ⟨n,hn,hlinked,hlate⟩

theorem workerStep_attends {x y : Worker} {c : WorkerChoice} (h : workerStep s x c = some (t,y))
    (hx : x.pc.attends a = true) (hst : s.state a = .suspended) (hst' : t.state a = .suspended)
    (hcount : s.count a ≠ 0) (hplaced : PlacedOk (s.state a) x.pc a) : y.pc.attends a = true := by
  obtain ⟨pc,d⟩ := x
  cases c with
  | steal v => cases h
  | pop | overflow | finish rc =>
    simp only [workerStep] at h
    repeat' split at h
    all_goals cases h
    all_goals first
      | exact hx
      | simp_all [WorkerPc.attends]
  | wait | crash =>
    cases pc with
    | execute b =>
      cases h
      exact hx
    | _ => cases h
  | go =>
    cases pc with
    | returned b rc =>
      obtain rfl : b = a := by simpa [WorkerPc.attends] using hx
      simp only [workerStep] at h
      split at h
      · rename_i hend
        exfalso
        rcases hend with rfl | hend
        · have := hplaced.2 (by simp [WorkerPc.afterCrash])
          simp [hst] at this
        · simp [hst] at hend
      · split at h <;> cases h <;> exact hx
    | requeue b =>
      obtain rfl : b = a := by simpa [WorkerPc.attends] using hx
      cases h
      simp at hst'
    | suspend b =>
      cases h
      exact hx
    | recheck b =>
      obtain rfl : b = a := by simpa [WorkerPc.attends] using hx
      simp only [workerStep,if_pos hcount] at h
      cases h
      exact hx
    | rewake b =>
      obtain rfl : b = a := by simpa [WorkerPc.attends] using hx
      simp only [workerStep,if_pos hst] at h
      cases h
      simp at hst'
    | _ =>
      simp only [workerStep] at h
      repeat' split at h
      all_goals
        cases h <;> first | exact hx | cases hx

theorem clientGo_wakes (h : clientGo s i c = some (t,d)) (hc : c.wakes a = true)
    (hrun : t.running = true) (hst : s.state a = .suspended) (hst' : t.state a = .suspended) :
    d.wakes a = true := by
  cases c with
  | sendRunning b =>
    simp only [clientGo] at h
    split at h <;> cases h
    · exact hc
    · rename_i hstop
      exact absurd hrun hstop
  | sendSuspended b =>
    obtain rfl : b = a := by simpa [ClientPc.wakes] using hc
    simp only [clientGo,if_pos hst] at h
    cases h
    simp at hst'
  | _ => cases hc

theorem clientGo_starts (h : clientGo s i c = some (t,d)) (hc : c.starts a = true)
    (hrun : t.running = true) (hst : s.state a = .created) (hst' : t.state a = .created) :
    d.starts a = true := by
  cases c with
  | sendRunning b =>
    simp only [clientGo] at h
    split at h <;> cases h
    · exact hc
    · rename_i hstop
      exact absurd hrun hstop
  | sendSuspended b =>
    obtain rfl : b = a := by simpa [ClientPc.starts] using hc
    simp only [clientGo,hst,reduceCtorEq,if_false] at h
    cases h
    exact hc
  | sendCreated b =>
    obtain rfl : b = a := by simpa [ClientPc.starts] using hc
    simp only [clientGo,if_pos hst] at h
    cases h
    simp at hst'
  | _ => cases hc

theorem clientGo_sendsLate (h : clientGo s i c = some (t,d)) (hc : c.sendsLate a = false) :
    d.sendsLate a = false := by
  cases c with
  | check b late | mailCount k b =>
    simp only [clientGo] at h
    split at h <;> cases h <;> first | rfl | exact hc
  | mailExchange k b =>
    cases h
    exact hc
  | mailFull k b | mailLink k b =>
    cases h
    cases k <;> rfl
  | _ =>
    simp only [clientGo] at h
    repeat' split at h
    all_goals
      cases h
      try rfl

end

section

variable {s t : Sys}

variable {a : Nat} {c : WorkerChoice} {sh sh' : Shared}

theorem CountsOk.count_ne_zero (h : CountsOk s) (hl : hasLate s.shared a) :
    s.shared.count a ≠ 0 := by
  obtain ⟨n,hn,-⟩ := hl
  have hlen := length_pos_of_mem hn
  have := (h a).2
  omega

theorem WorkerStore.ne_created {x y : WorkerPc} {st : ActorState} (h : WorkerStore sh c x y a st) :
    st ≠ .created := by
  cases h <;> simp

theorem WorkerStore.attends {x y : WorkerPc} (h : WorkerStore sh c x y a .suspended) :
    y.attends a = true := by
  cases h <;> simp [WorkerPc.attends]

theorem Attended.worker (h : Attended s) (hcounts : CountsOk s) (hpos : PositionsOk s)
    {w : Nat} {c : WorkerChoice} {x y : Worker} {sh : Shared} (hx : s.workers[w]? = some x)
    (hw : workerStep s.shared x c = some (sh,y)) :
    Attended { s with shared := sh,workers := s.workers.set w y } := by
  have hlate := fun a => (workerStep_mail hw).late (a := a)
  refine ⟨fun a hl hst => ?_,fun a hl hst => ?_,fun hl => h.root.1 (hlate _ hl),h.root.2⟩
  · have hold : y.pc.attends a = true ∨ s.shared.state a = .suspended := by
      rcases workerStep_state hw with hsame | ⟨b,st,hstore,hupd⟩
      · exact .inr (hsame ▸ hst)
      · dsimp only at hst
        by_cases hab : a = b
        · subst hab
          rw [hupd,update_self] at hst
          subst hst
          exact .inl hstore.attends
        · rw [hupd,update_of_ne hab] at hst
          exact .inr hst
    rcases hold with hatt | hold
    · exact .inl ⟨y,mem_set_new hx,hatt⟩
    · rcases h.suspended a (hlate a hl) hold with hz | hc
      · exact .inl (exists_mem_set hx hz (fun hza => workerStep_attends hw hza hold hst
          (hcounts.count_ne_zero (hlate a hl)) (hpos w x hx a)))
      · exact .inr hc
  · refine h.created a (hlate a hl) ?_
    rcases workerStep_state hw with hsame | ⟨b,st,hstore,hupd⟩
    · exact hsame ▸ hst
    · dsimp only at hst
      by_cases hab : a = b
      · subst hab
        rw [hupd,update_self] at hst
        exact absurd hst hstore.ne_created
      · rwa [hupd,update_of_ne hab] at hst

theorem ClientStore.ne_suspended {c : ClientPc} {st : ActorState} (h : ClientStore sh c a st) :
    st ≠ .suspended := by
  cases h <;> simp

theorem ClientStore.created {c : ClientPc} (h : ClientStore sh c a .created) :
    c = .restartStore a := by
  cases h
  rfl

theorem Attended.go (h : Attended s) {i : Nat} {c d : ClientPc} {sh : Shared}
    (hi : s.clients[i]? = some c) (hc : clientGo s.shared i c = some (sh,d))
    (hord : orderly s (.client i .go)) (hrun : sh.running = true) :
    Attended { s with shared := sh,clients := s.clients.set i d } := by
  have hlate := fun a => (clientGo_mail hc).late (a := a)
  refine ⟨fun a hl hst => ?_,fun a hl hst => ?_,fun hl => ?_,?_⟩
  · have hold : s.shared.state a = .suspended := by
      rcases clientGo_state hc with hsame | ⟨b,st,hstore,hupd⟩
      · exact hsame ▸ hst
      · dsimp only at hst
        by_cases hab : a = b
        · subst hab
          rw [hupd,update_self] at hst
          exact absurd hst hstore.ne_suspended
        · rwa [hupd,update_of_ne hab] at hst
    rcases hlate a hl with hl | ⟨-,rfl⟩
    · rcases h.suspended a hl hold with hz | hz
      · exact .inl hz
      · exact .inr (exists_mem_set hi hz (fun hca => clientGo_wakes hc hca hrun hold hst))
    · exact .inr ⟨_,mem_set_new hi,by simp [ClientPc.wakes]⟩
  · have hold : s.shared.state a = .created := by
      rcases clientGo_state hc with hsame | ⟨b,st,hstore,hupd⟩
      · exact hsame ▸ hst
      · dsimp only at hst
        by_cases hab : a = b
        · subst hab
          rw [hupd,update_self] at hst
          subst hst
          simpa only [orderly,hi,hstore.created] using hord
        · rwa [hupd,update_of_ne hab] at hst
    rcases hlate a hl with hl | ⟨-,rfl⟩
    · exact exists_mem_set hi (h.created a hl hold)
        (fun hca => clientGo_starts hc hca hrun hold hst)
    · exact ⟨_,mem_set_new hi,by simp [ClientPc.starts]⟩
  · rcases hlate _ hl with hl | ⟨rfl,-⟩
    · exact h.root.1 hl
    · have := h.root.2 _ (mem_of_getElem? hi)
      simp [ClientPc.sendsLate,MailKind.late] at this
  · exact forall_mem_set h.root.2 (clientGo_sendsLate hc (h.root.2 _ (mem_of_getElem? hi)))

theorem Attended.call (h : Attended s) {i : Nat} {c : ClientChoice} {d : ClientPc} {sh : Shared}
    (hi : s.clients[i]? = some .idle) (hc : clientBegin s.shared c = some (sh,d))
    (hroot : notToRoot s (.client i c)) :
    Attended { s with shared := sh,clients := s.clients.set i d } := by
  have hst := clientBegin_state hc
  have hlate : ∀ a,hasLate sh a → hasLate s.shared a := by
    intro a hl
    rcases (clientBegin_mail (i := i) hc).late hl with hl | ⟨hidle,-⟩
    · exact hl
    · cases hidle
  refine ⟨fun a hl hs => ?_,fun a hl hs => ?_,fun hl => h.root.1 (hlate _ hl),?_⟩
  · rcases h.suspended a (hlate a hl) (hst ▸ hs) with hz | hz
    · exact .inl hz
    · exact .inr (exists_mem_set hi hz (fun hz => by cases hz))
  · exact exists_mem_set hi (h.created a (hlate a hl) (hst ▸ hs)) (fun hz => by cases hz)
  · refine forall_mem_set h.root.2 ?_
    cases c with
    | go => cases hc
    | send a =>
      simp only [clientBegin] at hc
      split at hc <;> cases hc
      by_cases hrun : s.shared.running = true
      · simp [ClientPc.sendsLate,hroot hrun]
      · simp [ClientPc.sendsLate,hrun]
    | _ =>
      simp only [clientBegin] at hc
      split at hc <;> cases hc
      rfl

theorem Attended.steal (h : Attended s) {w v b : Nat} {x y : Worker} {d : List Nat}
    (hx : s.workers[w]? = some x) (hy : s.workers[v]? = some y) (hpc : x.pc = .poll)
    (hne : v ≠ w) :
    Attended { s with workers := (s.workers.set v ⟨y.pc,d⟩).set w ⟨.hold b,x.deque⟩ } := by
  refine ⟨fun a hl hst => ?_,h.created,h.root⟩
  rcases h.suspended a hl hst with hz | hc
  · have hx' : (s.workers.set v ⟨y.pc,d⟩)[w]? = some x := by rw [getElem?_set_ne hne,hx]
    have hz' : ∃ z ∈ s.workers.set v ⟨y.pc,d⟩,z.pc.attends a = true := exists_mem_set hy hz id
    refine .inl (exists_mem_set hx' hz' (fun hxa => ?_))
    rw [hpc] at hxa
    cases hxa
  · exact .inr hc

def deliverable (s : Sys) (e : SysEvent) : Prop :=
  orderly s e ∧ hasRoom s e ∧ noWrap s e ∧ notToRoot s e

instance (s : Sys) (e : SysEvent) : Decidable (deliverable s e) :=
  inferInstanceAs (Decidable (orderly s e ∧ hasRoom s e ∧ noWrap s e ∧ notToRoot s e))

structure DeliveryOk (s : Sys) : Prop where
  queues : RunQueuesOk True s
  counts : CountsOk s
  positions : PositionsOk s
  attended : s.shared.running = true → Attended s

theorem workerStep_running {x y : Worker} (h : workerStep sh x c = some (sh',y)) :
    sh'.running = sh.running := by
  cases c <;> simp only [workerStep] at h <;> repeat' split at h
  all_goals
    cases h
    try rfl

theorem clientGo_running {i : Nat} {c d : ClientPc} (h : clientGo sh i c = some (sh',d)) :
    sh'.running = sh.running := by
  cases c <;> simp only [clientGo] at h <;> repeat' split at h
  all_goals
    cases h
    try rfl

theorem clientBegin_running {c : ClientChoice} {d : ClientPc} (h : clientBegin sh c = some (sh',d)) :
    sh'.running = sh.running := by
  cases c <;> simp only [clientBegin] at h <;> repeat' split at h
  all_goals
    cases h
    try rfl

theorem DeliveryOk.step {e : SysEvent} (h : DeliveryOk s) (he : deliverable s e)
    (hs : sysStep s e = some t) : DeliveryOk t := by
  obtain ⟨hord,hroom,hwrap,hroot⟩ := he
  refine ⟨h.queues.step hord (fun _ => hroom) hs,h.counts.step hwrap hs,
    h.positions.step h.queues hord hs,fun hrun => ?_⟩
  cases sysStep_moves hs with
  | worker hx hw =>
    exact (h.attended (workerStep_running hw ▸ hrun)).worker h.counts h.positions hx hw
  | steal hx hy hpc hne hd => exact (h.attended hrun).steal hx hy hpc hne
  | go hi hc => exact (h.attended (clientGo_running hc ▸ hrun)).go hi hc hord hrun
  | call hi hc => exact (h.attended (clientBegin_running hc ▸ hrun)).call hi hc hroot
  | stop => cases hrun

theorem Started.deliveryOk (h : Started s) : DeliveryOk s where
  queues := h.runQueuesOk True
  counts := by
    intro a
    obtain ⟨hc,hcap⟩ := h.counts a
    have hw : tally (fun x => x.pc.counts a) s.workers = 0 := h.tally_workers _ rfl
    have hcl : tally (fun c => c.counts a) s.clients = 0 := h.tally_clients _ rfl
    unfold mailboxCapacity at hcap
    rw [hw,hcl]
    omega
  positions := by
    intro w x hx a
    rw [h.workers x (mem_of_getElem? hx)]
    exact .elsewhere rfl rfl
  attended := by
    have hnone : ∀ a,¬ hasLate s.shared a := by
      rintro a ⟨n,hn,-,hlate⟩
      simp [(h.nodes a n hn).2] at hlate
    refine fun _ => ⟨fun a hl => absurd hl (hnone a),fun a hl => absurd hl (hnone a),hnone _,?_⟩
    intro c hc
    rw [h.clients c hc]
    rfl

end

end SmalltalkA
