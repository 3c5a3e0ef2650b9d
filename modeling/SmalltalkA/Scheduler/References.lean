import SmalltalkA.Scheduler.RunQueues

/-! Actor reference counts, on top of the scheduler: `sta_registry_lookup`, `sta_scheduler_enqueue`
and `sta_actor_release` with the counter's atomic operations as steps, and who holds a reference. -/

set_option autoImplicit false

namespace SmalltalkA

open Interleaving List Function Option

/-- The references a thread holds: the one of its lookup, and the one taken for the queue. -/
structure ActorRefs where
  lookup : Option Nat
  queue : Option Nat
  deriving DecidableEq

/-- The scheduler with the counters; `loose` are the references yet to be released. -/
structure RefSys where
  sys : Sys
  refs : Nat → Nat
  /-- how often `sta_actor_free` ran -/
  freed : Nat → Nat
  /-- the creator's reference: `sta_actor_terminate` has not come to its release -/
  owned : Nat → Bool
  calls : List ActorRefs
  loose : List Nat

inductive RefEvent where
  | sys (e : SysEvent)
  | lookup (a : Nat)
  | retain (i : Nat)
  | release (a : Nat)

namespace RefSys

def retainRef (s : RefSys) (a : Nat) : RefSys :=
  { s with refs := update s.refs a (inc32 (s.refs a)) }

/-- `sta_actor_release`. -/
def releaseRef (s : RefSys) (a : Nat) : RefSys :=
  { s with
    refs := update s.refs a (dec32 (s.refs a))
    freed := if s.refs a = 1 then update s.freed a (s.freed a + 1) else s.freed }

/-- A call is over when its thread is idle again; its lookup is still to be released. -/
def endCall (s : RefSys) (i : Nat) (call : ActorRefs) : RefSys :=
  if s.sys.clients[i]? = some .idle then
    { s with calls := s.calls.set i ⟨none,none⟩,loose := call.lookup.toList ++ s.loose }
  else s

end RefSys

def letsGo (s : Shared) : WorkerPc → Option Nat
  | .hold a => if s.state a = .ready then none else some a
  | .returned a rc => if rc = .exception ∨ s.state a = .terminated then some a else none
  | .recheck a => if s.count a ≠ 0 then none else some a
  | .rewake a => if s.state a = .suspended then none else some a
  | _ => none

def released (s : Sys) : SysEvent → Option Nat
  | .worker w .go => (s.workers[w]?).bind (fun x => letsGo s.shared x.pc)
  | _ => none

/-- What a call's step does to the references; `t` is the scheduler after it. -/
def callStep (s : RefSys) (t : Sys) (i : Nat) (call : ActorRefs) :
    ClientChoice → Option ClientPc → Option RefSys
  | .send a,_ | .wake a,_ =>
    some { s.retainRef a with sys := t,calls := s.calls.set i ⟨some a,none⟩ }
  | .create a,_ | .restart a,_ =>
    some { s with
      sys := t
      refs := update s.refs a 1
      owned := update s.owned a true }
  | .go,some (.enqueue a) =>
    if call.queue = some a then some ({ s with sys := t }.endCall i call) else none
  | .go,some (.unregister a) =>
    some ({ s with
      sys := t
      owned := update s.owned a false
      loose := a :: s.loose }.endCall i call)
  | .go,_ => some ({ s with sys := t }.endCall i call)
  | .terminate _,_ | .exceed _,_ => some { s with sys := t }

def refStep (s : RefSys) : RefEvent → Option RefSys
  | .sys (.client i c) =>
    (s.calls[i]?).bind (fun call => (sysStep s.sys (.client i c)).bind (fun t =>
      callStep s t i call c s.sys.clients[i]?))
  | .sys e =>
    (sysStep s.sys e).map (fun t =>
      { s with sys := t,loose := (released s.sys e).toList ++ s.loose })
  | .lookup a =>
    if s.sys.shared.registered a then some { s.retainRef a with loose := a :: s.loose } else none
  | .retain i =>
    match s.sys.clients[i]?,s.calls[i]? with
    | some (.enqueue a),some ⟨lookup,none⟩ =>
      some { s.retainRef a with calls := s.calls.set i ⟨lookup,some a⟩ }
    | _,_ => none
  | .release a =>
    if a ∈ s.loose then some { s.releaseRef a with loose := s.loose.erase a } else none

/-! ### The references there are -/

def ActorRefs.share (c : ActorRefs) (a : Nat) : Nat :=
  c.lookup.toList.count a + c.queue.toList.count a

def WorkerPc.claims : WorkerPc → Nat → Nat
  | .hold b,a | .dispatch b,a | .dequeued b,a | .execute b,a | .waited b,a | .crashed b,a
  | .drained b,a | .returned b _,a | .idleCheck b,a | .requeue b,a | .push b,a | .suspend b,a
  | .recheck b,a | .rewake b,a => share b a
  | .poll,_ | .drain,_ => 0

def Worker.claims (x : Worker) (a : Nat) : Nat := x.deque.count a + x.pc.claims a

def claimTally (s : Sys) (l r : List Nat) (a : Nat) : Nat :=
  overflowShare s.shared.drain l r a + tally (fun x => x.claims a) s.workers

/-- All references: the owner's, those of lookups and enqueues, entries and claims. -/
def references (s : RefSys) (l r : List Nat) (a : Nat) : Nat :=
  (s.owned a).toNat + s.loose.count a + tally (fun c => c.share a) s.calls +
    claimTally s.sys l r a

/-- The counter is the number of references, and the actor is freed once when there are none. -/
structure Counted (s : RefSys) (l r : List Nat) (a : Nat) : Prop where
  count : s.refs a = references s l r a
  freed : s.freed a = if references s l r a = 0 then 1 else 0
  alive : s.sys.shared.registered a = true → s.freed a = 0

/-- Every actor but the root actor was made by `sta_actor_create`; `sta_vm_create` makes that one by
`calloc`. -/
structure RefStarted (s : RefSys) : Prop where
  sys : Started s.sys
  registered : ∀ a,s.sys.shared.registered a = true → s.owned a = true
  owned : ∀ a,s.owned a = true → s.sys.shared.fresh a = false
  refs : ∀ a,a ≠ rootActor → s.refs a = (s.owned a).toNat
  root : s.refs rootActor = 0 ∧ s.owned rootActor = true
  freed : ∀ a,s.freed a = if s.owned a ∨ s.sys.shared.fresh a then 0 else 1
  calls : s.calls = List.replicate s.sys.clients.length ⟨none,none⟩
  loose : s.loose = []

/-- No counter is about to wrap, an actor is terminated once by its owner, and `restart_child`
enqueues the new actor before it is terminated. -/
def countOk (s : RefSys) : RefEvent → Prop
  | .sys (.client _ (.send a)) | .sys (.client _ (.wake a)) | .lookup a => s.refs a < 2 ^ 32 - 1
  | .sys (.client i .go) =>
    match s.sys.clients[i]? with
    | some (.unregister a) => s.owned a = true
    | _ => True
  | .retain i =>
    match s.sys.clients[i]?,s.calls[i]? with
    | some (.enqueue a),some call =>
      s.refs a < 2 ^ 32 - 1 ∧ (call.lookup = some a ∨ s.owned a = true)
    | _,_ => True
  | _ => True

def refOk (s : RefSys) : RefEvent → Prop
  | .sys e => countOk s (.sys e) ∧ orderly s.sys e ∧ hasRoom s.sys e
  | e => countOk s e

instance (s : RefSys) (e : RefEvent) : Decidable (countOk s e) := by
  unfold countOk
  repeat' split
  all_goals infer_instance

instance (s : RefSys) (e : RefEvent) : Decidable (refOk s e) := by
  unfold refOk
  split <;> infer_instance

/-! ### Entries and claims -/

theorem linked_unique {next : Nat → Option Nat} {head : Option Nat} {l l' : List Nat}
    (h : Linked next head l) (h' : Linked next head l') : l = l' := by
  induction l generalizing head l' with
  | nil =>
    cases head with
    | none => exact (linked_none h').symm
    | some a => exact h.elim
  | cons b l ih =>
    cases head with
    | none => exact h.elim
    | some a =>
      obtain ⟨rfl,h⟩ := h
      obtain ⟨r,rfl,hr⟩ := linked_some h'
      rw [ih h hr]

theorem count_toList_some (b a : Nat) : (some b).toList.count a = share b a := by
  simp [share,count_singleton,beq_iff_eq]

section

variable {sh sh' : Shared} {x y : Worker} {c : WorkerChoice} {s t : Sys} {l r : List Nat}

theorem count_dequePush {d : List Nat} (h : d.length < dequeCapacity) (b a : Nat) :
    (dequePush d b).count a = d.count a + share b a := by
  rw [dequePush,if_pos h]
  simp [share,count_cons]

theorem workerStep_claims (hs : workerStep sh x c = some (sh',y))
    (hroom : ∀ b,x.pc = .push b → x.deque.length < dequeCapacity) (hdrain : x.pc ≠ .drain)
    (hover : c ≠ .overflow) :
    SameLists sh' sh ∧ ∀ a,
      y.claims a + (if c = .go then letsGo sh x.pc else none).toList.count a = x.claims a := by
  obtain ⟨pc,d⟩ := x
  cases c with
  | steal v => cases hs
  | overflow => exact absurd rfl hover
  | pop =>
    simp only [workerStep] at hs
    repeat' split at hs
    all_goals cases hs
    exact ⟨.refl _,fun a => by simp [Worker.claims,WorkerPc.claims,share,count_cons]⟩
  | finish rc =>
    cases pc with
    | execute b => cases rc <;> cases hs <;> exact ⟨⟨rfl,rfl,rfl,rfl⟩,fun a => rfl⟩
    | _ => cases rc <;> cases hs
  | wait | crash =>
    cases pc with
    | execute b =>
      simp only [workerStep] at hs
      split at hs <;> cases hs <;> exact ⟨⟨rfl,rfl,rfl,rfl⟩,fun a => rfl⟩
    | _ => cases hs
  | go =>
    rw [if_pos rfl]
    cases pc with
    | drain => exact absurd rfl hdrain
    | push b =>
      cases hs
      refine ⟨.refl _,fun a => ?_⟩
      simp [Worker.claims,WorkerPc.claims,letsGo,count_dequePush (hroom b rfl)]
    | poll | execute b => cases hs
    | hold b | returned b rc | recheck b | rewake b =>
      simp only [workerStep] at hs
      repeat' split at hs
      all_goals
        cases hs
        refine ⟨⟨rfl,rfl,rfl,rfl⟩,fun a => ?_⟩
        simp_all [Worker.claims,WorkerPc.claims,letsGo,share,count_singleton]
    | _ =>
      simp only [workerStep] at hs
      repeat' split at hs
      all_goals
        cases hs
        exact ⟨⟨rfl,rfl,rfl,rfl⟩,fun a => rfl⟩

variable {w i : Nat} {d : ClientPc}

theorem claimTally_set {l' r' : List Nat} {a k : Nat} (hx : s.workers[w]? = some x) (h :
      overflowShare sh.drain l' r' a + y.claims a + k = overflowShare s.shared.drain l r a +
      x.claims a) :
    claimTally { s with shared := sh,workers := s.workers.set w y } l' r' a + k =
      claimTally s l r a := by
  have := tally_set hx y (fun x => x.claims a)
  simp only [claimTally]
  omega

theorem drain_claims (hq : RunQueuesOk True s) {d : List Nat} (hx : s.workers[w]? = some ⟨.drain,d⟩)
    (hs : workerStep s.shared ⟨.drain,d⟩ .go = some (sh,y)) (hroom : d.length < dequeCapacity)
    (hl : Linked s.shared.nextRunnable s.shared.overflowHead l)
    (hr : Linked s.shared.nextRunnable (Drain.pointer s.shared.drain) r) :
    ∃ l' r',Linked sh.nextRunnable sh.overflowHead l' ∧
      Linked sh.nextRunnable (Drain.pointer sh.drain) r' ∧
      ∀ a,claimTally { s with shared := sh,workers := s.workers.set w y } l' r' a =
        claimTally s l r a := by
  obtain ⟨l₀,r₀,hl₀,hr₀,hbal⟩ := hq
  obtain rfl := linked_unique hl hl₀
  obtain rfl := linked_unique hr hr₀
  simp only [workerStep] at hs
  split at hs
  · cases hs
  · rename_i b hd
    cases hs
    simp only [hd,Drain.pointer,bind_some] at hr
    obtain ⟨r',rfl,hr'⟩ := linked_some hr
    obtain ⟨hbl,hbr⟩ := not_mem_of_drained (hbal b)
    refine ⟨l,r',hl.update hbl none,hr'.update hbr none,fun a => claimTally_set (k := 0) hx ?_⟩
    simp only [hd,overflowShare,Drain.firstShare,count_cons,share,beq_iff_eq]
    omega
  · rename_i b f hd
    cases hs
    simp only [hd,Drain.pointer,bind_some] at hr
    obtain ⟨r',rfl,hr'⟩ := linked_some hr
    obtain ⟨hbl,hbr⟩ := not_mem_of_drained (hbal b)
    refine ⟨l,r',hl.update hbl none,hr'.update hbr none,fun a => claimTally_set (k := 0) hx ?_⟩
    simp only [hd,overflowShare,Drain.firstShare,count_cons,Worker.claims,
      count_dequePush hroom,share,beq_iff_eq]
    omega
  · rename_i f hd
    cases hs
    simp only [hd,Drain.pointer,bind_some] at hr
    obtain rfl := linked_none hr
    refine ⟨l,[],hl,trivial,fun a => claimTally_set (k := 0) hx ?_⟩
    simp only [hd,overflowShare,Drain.firstShare,Worker.claims,WorkerPc.claims]
    omega
  · rename_i hd
    cases hs
    simp only [hd,Drain.pointer,bind_some] at hr
    obtain rfl := linked_none hr
    exact ⟨l,[],hl,trivial,fun a => claimTally_set (k := 0) hx (by rw [hd]; rfl)⟩

theorem overflow_claims (hx : s.workers[w]? = some x)
    (hs : workerStep s.shared x .overflow = some (sh,y))
    (hl : Linked s.shared.nextRunnable s.shared.overflowHead l)
    (hr : Linked s.shared.nextRunnable (Drain.pointer s.shared.drain) r) :
    ∃ l' r',Linked sh.nextRunnable sh.overflowHead l' ∧
      Linked sh.nextRunnable (Drain.pointer sh.drain) r' ∧
      ∀ a,claimTally { s with shared := sh,workers := s.workers.set w y } l' r' a =
        claimTally s l r a := by
  simp only [workerStep] at hs
  split at hs
  · rename_i hpre
    obtain ⟨hpc,-,hd,-⟩ := hpre
    cases hs
    rw [hd] at hr
    obtain rfl := linked_none hr
    refine ⟨[],l,trivial,hl,fun a => claimTally_set (k := 0) hx ?_⟩
    simp [hd,overflowShare,Drain.firstShare,Worker.claims,WorkerPc.claims,hpc]
  · cases hs

theorem worker_claims (hq : RunQueuesOk True s) (hx : s.workers[w]? = some x)
    (hs : workerStep s.shared x c = some (sh,y)) (hroom : hasRoom s (.worker w c))
    (hl : Linked s.shared.nextRunnable s.shared.overflowHead l)
    (hr : Linked s.shared.nextRunnable (Drain.pointer s.shared.drain) r) :
    ∃ l' r',Linked sh.nextRunnable sh.overflowHead l' ∧
      Linked sh.nextRunnable (Drain.pointer sh.drain) r' ∧
      ∀ a,claimTally { s with shared := sh,workers := s.workers.set w y } l' r' a +
        (released s (.worker w c)).toList.count a = claimTally s l r a := by
  by_cases hover : c = .overflow
  · subst hover
    exact overflow_claims hx hs hl hr
  · by_cases hdrain : x.pc = .drain
    · obtain ⟨pc,d⟩ := x
      obtain rfl : pc = .drain := hdrain
      have hgo : c = .go := by
        cases c with
        | go => rfl
        | finish rc => cases rc <;> cases hs
        | overflow => exact absurd rfl hover
        | _ => cases hs
      subst hgo
      simpa [released,hx,letsGo] using
        drain_claims hq hx hs (by simpa [hasRoom,hx] using hroom) hl hr
    · have hpush : ∀ b,x.pc = .push b → x.deque.length < dequeCapacity := by
        obtain ⟨pc,d⟩ := x
        rintro b rfl
        cases c with
        | go => simpa [hasRoom,hx] using hroom
        | finish rc => cases rc <;> cases hs
        | overflow => exact absurd rfl hover
        | _ => cases hs
      obtain ⟨hsame,hclaims⟩ := workerStep_claims hs hpush hdrain hover
      refine ⟨l,r,by rwa [hsame.next,hsame.head],by rwa [hsame.next,hsame.drain],
        fun a => claimTally_set hx ?_⟩
      have hrel : released s (.worker w c) = if c = .go then letsGo s.shared x.pc else none := by
        cases c <;> simp [released,hx]
      rw [hrel,hsame.drain,← hclaims a]
      omega

theorem steal_claims {v b : Nat} {d : List Nat} (hx : s.workers[w]? = some x)
    (hy : s.workers[v]? = some y) (hpc : x.pc = .poll) (hne : v ≠ w) (hd : y.deque = d ++ [b])
    (a : Nat) :
    tally (fun x => x.claims a) ((s.workers.set v ⟨y.pc,d⟩).set w ⟨.hold b,x.deque⟩) =
      tally (fun x => x.claims a) s.workers := by
  have hv := tally_set hy ⟨y.pc,d⟩ (fun x => x.claims a)
  have hxv : (s.workers.set v ⟨y.pc,d⟩)[w]? = some x := by rw [getElem?_set_ne hne,hx]
  have hw := tally_set hxv ⟨.hold b,x.deque⟩ (fun x => x.claims a)
  simp only [Worker.claims,WorkerPc.claims,hpc,hd,count_append,share,count_singleton,
    beq_iff_eq] at hv hw ⊢
  omega

theorem clientGo_lists {c : ClientPc} (hs : clientGo sh i c = some (sh',d))
    (hc : ∀ b,c ≠ .enqueue b) : SameLists sh' sh := by
  cases c with
  | enqueue b => exact absurd rfl (hc b)
  | _ =>
    simp only [clientGo] at hs
    repeat' split at hs
    all_goals
      cases hs
      try exact ⟨rfl,rfl,rfl,rfl⟩

theorem enqueue_claims (hq : RunQueuesOk True s) {b : Nat} (hi : s.clients[i]? = some (.enqueue b))
    (hs : clientGo s.shared i (.enqueue b) = some (sh,d))
    (hl : Linked s.shared.nextRunnable s.shared.overflowHead l)
    (hr : Linked s.shared.nextRunnable (Drain.pointer s.shared.drain) r) :
    ∃ l' r',Linked sh.nextRunnable sh.overflowHead l' ∧
      Linked sh.nextRunnable (Drain.pointer sh.drain) r' ∧
      ∀ a,overflowShare sh.drain l' r' a = overflowShare s.shared.drain l r a + share b a := by
  obtain ⟨l₀,r₀,hl₀,-,hbal⟩ := hq
  obtain rfl := linked_unique hl hl₀
  have hbl : b ∉ l := by
    have hone := (hbal b).atMostOne
    have hle : share b b ≤ _ := le_tally hi (fun c => c.holds b)
    rw [share_self] at hle
    simp only [queuedTally,overflowShare] at hone
    exact count_eq_zero.mp (by omega)
  simp only [clientGo] at hs
  split at hs
  · rename_i hd
    cases hs
    rw [hd] at hr
    obtain rfl := linked_none hr
    refine ⟨b :: l,[],⟨rfl,?_⟩,?_,fun a => ?_⟩
    · simp only [Shared.setNext,update_self]
      exact hl.update hbl _
    · simp only [Shared.setNext,hd]
      trivial
    · simp only [Shared.setNext,overflowShare,count_cons,share,beq_iff_eq]
      omega
  · cases hs

/-! ### Registration -/

theorem workerStep_registry (hs : workerStep sh x c = some (sh',y)) :
    sh'.fresh = sh.fresh ∧ sh'.registered = sh.registered := by
  cases c with
  | steal v => cases hs
  | go =>
    simp only [workerStep] at hs
    repeat' split at hs
    all_goals
      cases hs
      try exact ⟨rfl,rfl⟩
  | _ =>
    simp only [workerStep] at hs
    repeat' split at hs
    all_goals
      cases hs
      try exact ⟨rfl,rfl⟩

theorem clientGo_registry {c : ClientPc} (hs : clientGo sh i c = some (sh',d)) :
    sh'.fresh = sh.fresh ∧ (∀ a,sh'.registered a = true → sh.registered a = true) ∧
      ∀ b,c = .unregister b → sh'.registered b = false ∧ d = .idle := by
  cases c with
  | unregister b =>
    cases hs
    refine ⟨rfl,fun a ha => ?_,fun b' hb' => ?_⟩
    · by_cases hab : a = b
      · subst hab
        simp [Shared.setRegistered] at ha
      · simpa [Shared.setRegistered,update_of_ne hab] using ha
    · cases hb'
      exact ⟨update_self ..,rfl⟩
  | _ =>
    simp only [clientGo] at hs
    repeat' split at hs
    all_goals
      cases hs
      try exact ⟨rfl,fun _ => id,fun _ hb => by cases hb⟩

end

/-! ### The accounts of one actor -/

/-- The lists threaded through `next_runnable`. -/
structure QueueLists (s : Sys) (l r : List Nat) : Prop where
  overflow : Linked s.shared.nextRunnable s.shared.overflowHead l
  drained : Linked s.shared.nextRunnable (Drain.pointer s.shared.drain) r

def Account (a total refs freed : Nat) : Prop :=
  if a = rootActor then (refs + 1) % 2 ^ 32 = total % 2 ^ 32
  else refs = total ∧ total < 2 ^ 32 ∧ freed = if total = 0 then 1 else 0

def ActorOk (s : RefSys) (l r : List Nat) (a : Nat) : Prop :=
  if s.sys.shared.fresh a then references s l r a = 0 ∧ s.freed a = 0
  else Account a (references s l r a) (s.refs a) (s.freed a)

section

variable {s t : RefSys} {l r l' r' : List Nat} {a : Nat}

section

variable (h : ActorOk s l r a)

include h

theorem ActorOk.not_fresh (hpos : references s l r a ≠ 0) :
    s.sys.shared.fresh a = false := by
  unfold ActorOk at h
  split at h
  · exact absurd h.1 hpos
  · rename_i hf
    exact Bool.eq_false_iff.mpr hf

theorem ActorOk.congr (hf : t.sys.shared.fresh a = s.sys.shared.fresh a)
    (htotal : references t l' r' a = references s l r a) (hrefs : t.refs a = s.refs a)
    (hfreed : t.freed a = s.freed a) : ActorOk t l' r' a := by
  unfold ActorOk at h ⊢
  rwa [hf,htotal,hrefs,hfreed]

theorem ActorOk.retain (hpos : references s l r a ≠ 0)
    (hlt : s.refs a < 2 ^ 32 - 1) (hf : t.sys.shared.fresh a = s.sys.shared.fresh a)
    (htotal : references t l' r' a = references s l r a + 1)
    (hrefs : t.refs a = inc32 (s.refs a)) (hfreed : t.freed a = s.freed a) :
    ActorOk t l' r' a := by
  have hfresh := h.not_fresh hpos
  simp only [ActorOk,hf,hfresh,htotal,hrefs,hfreed,Account,inc32] at h ⊢
  by_cases hroot : a = rootActor
  · simp only [hroot,if_true,Bool.false_eq_true,if_false] at h ⊢
    omega
  · simp only [hroot,if_false,Bool.false_eq_true,if_neg hpos] at h ⊢
    rw [if_neg (by omega)]
    omega

theorem ActorOk.birth (hfresh : s.sys.shared.fresh a = true)
    (hroot : a ≠ rootActor) (hf : t.sys.shared.fresh a = false)
    (htotal : references t l' r' a = references s l r a + 1) (hrefs : t.refs a = 1)
    (hfreed : t.freed a = s.freed a) : ActorOk t l' r' a := by
  simp only [ActorOk,hfresh,if_true] at h
  simp [ActorOk,hf,Account,hroot,htotal,hrefs,hfreed,h]

theorem ActorOk.release (hf : t.sys.shared.fresh a = s.sys.shared.fresh a)
    (htotal : references t l' r' a + 1 = references s l r a)
    (hrefs : t.refs a = dec32 (s.refs a))
    (hfreed : t.freed a = if s.refs a = 1 then s.freed a + 1 else s.freed a) :
    ActorOk t l' r' a := by
  have hpos : references s l r a ≠ 0 := by omega
  have hfresh := h.not_fresh hpos
  simp only [ActorOk,hf,hfresh,hrefs,hfreed,Account,dec32] at h ⊢
  by_cases hroot : a = rootActor
  · simp only [hroot,if_true,Bool.false_eq_true,if_false] at h ⊢
    rw [hroot] at htotal
    omega
  · simp only [hroot,if_false,Bool.false_eq_true,if_neg hpos] at h ⊢
    obtain ⟨heq,hlt,hz⟩ := h
    refine ⟨by omega,by omega,?_⟩
    by_cases hone : s.refs a = 1
    · rw [if_pos hone,if_pos (by omega),hz]
    · rw [if_neg hone,if_neg (by omega),hz]

end

end

/-! ### One step -/

structure AccountsOk (s : RefSys) : Prop where
  queues : RunQueuesOk True s.sys
  known : ∀ a,s.sys.shared.registered a = true → s.owned a = true
  calls : ∀ (i : Nat) (c : ClientPc) (call : ActorRefs),s.sys.clients[i]? = some c →
    s.calls[i]? = some call →
      (c = .idle → call = ⟨none,none⟩) ∧ ∀ b,call.queue = some b → c = .enqueue b
  root : s.sys.shared.fresh rootActor = false
  accounts : ∃ l r,QueueLists s.sys l r ∧ ∀ a,ActorOk s l r a

section

variable {s t : RefSys} {l r : List Nat} {a : Nat}

theorem share_mk (lookup queue : Option Nat) (a : Nat) :
    (ActorRefs.mk lookup queue).share a = lookup.toList.count a + queue.toList.count a := rfl

theorem references_of_owned (h : s.owned a = true) : references s l r a ≠ 0 := by
  simp only [references,h,Bool.toNat_true]
  omega

variable {call : ActorRefs} {i : Nat} {c d : ClientPc} {sh : Shared}

theorem references_of_lookup (hi : s.calls[i]? = some call) (h : call.lookup = some a) :
    references s l r a ≠ 0 := by
  have hle := le_tally hi (fun c => c.share a)
  have hone : call.share a ≠ 0 := by simp [ActorRefs.share,h]
  simp only [references]
  omega

theorem AccountsOk.workerStep (h : AccountsOk s) {u : Sys} {e : SysEvent} (hq : RunQueuesOk True u)
    (hclients : u.clients = s.sys.clients)
    (hreg : u.shared.fresh = s.sys.shared.fresh ∧ u.shared.registered = s.sys.shared.registered)
    (hclaims : ∀ l r,QueueLists s.sys l r → ∃ l' r',QueueLists u l' r' ∧ ∀ a,
      claimTally u l' r' a + (released s.sys e).toList.count a = claimTally s.sys l r a) :
    AccountsOk { s with sys := u,loose := (released s.sys e).toList ++ s.loose } := by
  obtain ⟨l,r,hlists,hacc⟩ := h.accounts
  obtain ⟨l',r',hlists',hcount⟩ := hclaims l r hlists
  refine ⟨hq,fun a ha => h.known a (hreg.2 ▸ ha),fun i c call hi hcall => ?_,
    (congrFun hreg.1 _).trans h.root,l',r',hlists',
    fun a => (hacc a).congr (congrFun hreg.1 a) ?_ rfl rfl⟩
  · exact h.calls i c call (hclients ▸ hi) hcall
  · have := hcount a
    simp only [references,count_append]
    omega

theorem AccountsOk.sysStep (h : AccountsOk s) {e : SysEvent} {u : Sys} (hnot : ∀ i c,e ≠ .client i c)
    (hord : orderly s.sys e) (hroom : hasRoom s.sys e) (hu : sysStep s.sys e = some u) :
    AccountsOk { s with sys := u,loose := (released s.sys e).toList ++ s.loose } := by
  have hq := h.queues.step hord (fun _ => hroom) hu
  cases sysStep_moves hu with
  | worker hx hw =>
    refine h.workerStep hq rfl (workerStep_registry hw) (fun l r hlists => ?_)
    obtain ⟨l',r',hl',hr',hcount⟩ :=
      worker_claims h.queues hx hw hroom hlists.overflow hlists.drained
    exact ⟨l',r',⟨hl',hr'⟩,hcount⟩
  | steal hx hy hpc hne hd =>
    refine h.workerStep hq rfl ⟨rfl,rfl⟩ (fun l r hlists => ⟨l,r,⟨hlists.1,hlists.2⟩,fun a => ?_⟩)
    simp only [claimTally,steal_claims hx hy hpc hne hd,released]
    rfl
  | go hi hc | call hi hc => exact absurd rfl (hnot _ _)
  | stop =>
    exact h.workerStep hq rfl ⟨rfl,rfl⟩ (fun l r hlists => ⟨l,r,⟨hlists.1,hlists.2⟩,fun _ => rfl⟩)

theorem AccountsOk.lookup (h : AccountsOk s) (hlt : s.refs a < 2 ^ 32 - 1)
    (hreg : s.sys.shared.registered a = true) :
    AccountsOk { s.retainRef a with loose := a :: s.loose } := by
  obtain ⟨l,r,hlists,hacc⟩ := h.accounts
  refine ⟨h.queues,h.known,h.calls,h.root,l,r,hlists,fun b => ?_⟩
  by_cases hba : b = a
  · subst hba
    refine (hacc b).retain (references_of_owned (h.known b hreg)) hlt rfl ?_ (update_self ..) rfl
    simp only [references,count_cons_self,RefSys.retainRef]
    omega
  · refine (hacc b).congr rfl ?_ (update_of_ne hba ..) rfl
    simp only [references,count_cons_of_ne (Ne.symm hba),RefSys.retainRef]

theorem AccountsOk.release (h : AccountsOk s) (ha : a ∈ s.loose) :
    AccountsOk { s.releaseRef a with loose := s.loose.erase a } := by
  obtain ⟨l,r,hlists,hacc⟩ := h.accounts
  refine ⟨h.queues,h.known,h.calls,h.root,l,r,hlists,fun b => ?_⟩
  by_cases hba : b = a
  · subst hba
    refine (hacc b).release rfl ?_ (update_self ..) ?_
    · have := count_pos_iff.mpr ha
      simp only [references,count_erase_self,RefSys.releaseRef]
      omega
    · simp only [RefSys.releaseRef]
      split
      · exact update_self ..
      · rfl
  · refine (hacc b).congr rfl ?_ (update_of_ne hba ..) ?_
    · simp only [references,count_erase_of_ne hba,RefSys.releaseRef]
    · simp only [RefSys.releaseRef]
      split
      · exact update_of_ne hba ..
      · rfl

theorem references_setCall (hi : s.calls[i]? = some call) (call' : ActorRefs) (a : Nat) :
    tally (fun c => c.share a) (s.calls.set i call') + call.share a =
      tally (fun c => c.share a) s.calls + call'.share a :=
  tally_set hi call' (fun c => c.share a)

section

variable (h : AccountsOk s)

include h

theorem AccountsOk.retain {lookup : Option Nat}
    (hi : s.sys.clients[i]? = some (.enqueue a)) (hcall : s.calls[i]? = some ⟨lookup,none⟩)
    (hlt : s.refs a < 2 ^ 32 - 1) (hheld : lookup = some a ∨ s.owned a = true) :
    AccountsOk { s.retainRef a with calls := s.calls.set i ⟨lookup,some a⟩ } := by
  obtain ⟨l,r,hlists,hacc⟩ := h.accounts
  have hpos : references s l r a ≠ 0 := hheld.elim (references_of_lookup hcall) references_of_owned
  refine ⟨h.queues,h.known,fun j c call hj hcj => ?_,h.root,l,r,hlists,fun b => ?_⟩
  · by_cases hij : i = j
    · subst hij
      rw [show s.sys.clients[i]? = some c from hj,some.injEq] at hi
      rw [getElem?_set_self (List.getElem?_eq_some_iff.mp hcall).1,some.injEq] at hcj
      subst hi hcj
      exact ⟨fun h0 => (by cases h0),fun b hb => (by cases hb; rfl)⟩
    · rw [getElem?_set_ne hij] at hcj
      exact h.calls j c call hj hcj
  · have hset := references_setCall hcall ⟨lookup,some a⟩ b
    by_cases hba : b = a
    · subst hba
      refine (hacc b).retain hpos hlt rfl ?_ (update_self ..) rfl
      simp only [references,RefSys.retainRef]
      simp only [share_mk,count_toList_some,share_self,toList_none,count_nil] at hset
      omega
    · refine (hacc b).congr rfl ?_ (update_of_ne hba ..) rfl
      simp only [references,RefSys.retainRef]
      simp only [share_mk,count_toList_some,share_of_ne hba,toList_none,count_nil] at hset
      omega

theorem AccountsOk.setCall (hd : d = .idle → call = ⟨none,none⟩)
    (hq : ∀ b,call.queue = some b → d = .enqueue b) {j : Nat} {call' : ActorRefs}
    (hj : (s.sys.clients.set i d)[j]? = some c) (hc : (s.calls.set i call)[j]? = some call') :
    (c = .idle → call' = ⟨none,none⟩) ∧ ∀ b,call'.queue = some b → c = .enqueue b := by
  by_cases hij : i = j
  · subst hij
    obtain rfl := eq_of_getElem?_set hj
    obtain rfl := eq_of_getElem?_set hc
    exact ⟨hd,hq⟩
  · rw [getElem?_set_ne hij] at hj hc
    exact h.calls j c call' hj hc

theorem AccountsOk.keepCall (hi : s.calls[i]? = some call)
    (hd : d = .idle → call = ⟨none,none⟩) (hq : call.queue = none) {j : Nat} {call' : ActorRefs}
    (hj : (s.sys.clients.set i d)[j]? = some c) (hc : s.calls[j]? = some call') :
    (c = .idle → call' = ⟨none,none⟩) ∧ ∀ b,call'.queue = some b → c = .enqueue b := by
  refine h.setCall hd (fun b hb => ?_) hj ?_
  · rw [hq] at hb
    cases hb
  · by_cases hij : i = j
    · subst hij
      rw [getElem?_set_self (List.getElem?_eq_some_iff.mp hi).1,← hi,hc]
    · rw [getElem?_set_ne hij,hc]

theorem AccountsOk.begin (hi : s.sys.clients[i]? = some .idle)
    (hcall : s.calls[i]? = some call) (hd : d ≠ .idle) (hreg : s.sys.shared.registered a = true)
    (hlt : s.refs a < 2 ^ 32 - 1)
    (hq : RunQueuesOk True { s.sys with clients := s.sys.clients.set i d }) :
    AccountsOk { s.retainRef a with
      sys := { s.sys with clients := s.sys.clients.set i d }
      calls := s.calls.set i ⟨some a,none⟩ } := by
  obtain ⟨l,r,hlists,hacc⟩ := h.accounts
  obtain rfl := (h.calls i .idle call hi hcall).1 rfl
  refine ⟨hq,h.known,fun j c call hj hcj => ?_,h.root,l,r,⟨hlists.1,hlists.2⟩,fun b => ?_⟩
  · exact h.setCall (fun h0 => absurd h0 hd) (fun b hb => (by cases hb)) hj hcj
  · have hset := references_setCall hcall ⟨some a,none⟩ b
    by_cases hba : b = a
    · subst hba
      refine (hacc b).retain (references_of_owned (h.known b hreg)) hlt rfl ?_ (update_self ..) rfl
      simp only [references,RefSys.retainRef,claimTally]
      simp only [share_mk,count_toList_some,share_self,toList_none,count_nil] at hset
      omega
    · refine (hacc b).congr rfl ?_ (update_of_ne hba ..) rfl
      simp only [references,RefSys.retainRef,claimTally]
      simp only [share_mk,count_toList_some,share_of_ne hba,toList_none,count_nil] at hset
      omega

theorem AccountsOk.birth (hi : s.sys.clients[i]? = some .idle)
    (hcall : s.calls[i]? = some call) (hfresh : s.sys.shared.fresh a = true)
    (hsh : sh = (s.sys.shared.setFresh a false).setRegistered a true)
    (hq : RunQueuesOk True { s.sys with shared := sh,clients := s.sys.clients.set i d }) :
    AccountsOk { s with
      sys := { s.sys with shared := sh,clients := s.sys.clients.set i d }
      refs := update s.refs a 1
      owned := update s.owned a true } := by
  subst hsh
  obtain ⟨l,r,hlists,hacc⟩ := h.accounts
  obtain rfl := (h.calls i .idle call hi hcall).1 rfl
  have hroot : rootActor ≠ a := by
    rintro rfl
    simp [h.root] at hfresh
  refine ⟨hq,fun b hb => ?_,fun j c call hj hcj => h.keepCall hcall (fun _ => rfl) rfl hj hcj,
    (update_of_ne hroot ..).trans h.root,l,r,⟨hlists.1,hlists.2⟩,fun b => ?_⟩
  · by_cases hba : b = a
    · subst hba
      exact update_self ..
    · exact (update_of_ne hba ..).trans (h.known b ((update_of_ne hba ..).symm.trans hb))
  · by_cases hba : b = a
    · subst hba
      refine (hacc b).birth hfresh (Ne.symm hroot) (update_self ..) ?_ (update_self ..) rfl
      have howned : s.owned b = false := by
        by_contra hne
        have := (hacc b).not_fresh (references_of_owned (Bool.of_not_eq_false hne))
        simp [this] at hfresh
      simp only [references,update_self,howned,Bool.toNat_true,Bool.toNat_false]
      show _ + claimTally s.sys l r b = _
      omega
    · refine (hacc b).congr (update_of_ne hba ..) ?_ (update_of_ne hba ..) rfl
      simp only [references,update_of_ne hba]
      rfl

theorem AccountsOk.goStep {owned : Nat → Bool} {loose : List Nat}
    (hi : s.sys.clients[i]? = some c) (hcall : s.calls[i]? = some call)
    (hq : RunQueuesOk True { s.sys with shared := sh,clients := s.sys.clients.set i d })
    (hfresh : sh.fresh = s.sys.shared.fresh) (hknown : ∀ a,sh.registered a = true → owned a = true)
    (hqueue : d ≠ .idle → call.queue = none) (hlists : ∀ l r,QueueLists s.sys l r → ∃ l' r',
      QueueLists { s.sys with shared := sh,clients := s.sys.clients.set i d } l' r' ∧ ∀ a,(owned
      a).toNat + loose.count a + overflowShare sh.drain l' r' a = (s.owned a).toNat + s.loose.count
      a + overflowShare s.sys.shared.drain l r a + call.queue.toList.count a) :
    AccountsOk ({ s with
      sys := { s.sys with shared := sh,clients := s.sys.clients.set i d }
      owned := owned
      loose := loose }.endCall i call) := by
  obtain ⟨l,r,hl,hacc⟩ := h.accounts
  obtain ⟨l',r',hl',hcount⟩ := hlists l r hl
  unfold RefSys.endCall
  split
  · rename_i hidle
    obtain rfl := (eq_of_getElem?_set hidle).symm
    refine ⟨hq,hknown,fun j c call hj hcj => ?_,(congrFun hfresh _).trans h.root,l',r',hl',
      fun a => (hacc a).congr (congrFun hfresh a) ?_ rfl rfl⟩
    · exact h.setCall (fun _ => rfl) (fun b hb => (by cases hb)) hj hcj
    · have hset := references_setCall hcall ⟨none,none⟩ a
      have := hcount a
      obtain ⟨lookup,queue⟩ := call
      simp only [share_mk,toList_none,count_nil] at hset this
      simp only [references,claimTally,count_append]
      omega
  · rename_i hidle
    have hd : d ≠ .idle := by
      rintro rfl
      exact hidle (getElem?_set_self (List.getElem?_eq_some_iff.mp hi).1)
    refine ⟨hq,hknown,fun j c call hj hcj => ?_,(congrFun hfresh _).trans h.root,l',r',hl',
      fun a => (hacc a).congr (congrFun hfresh a) ?_ rfl rfl⟩
    · exact h.keepCall hcall (fun h0 => absurd h0 hd) (hqueue hd) hj hcj
    · have := hcount a
      simp only [hqueue hd,toList_none,count_nil] at this
      simp only [references,claimTally]
      omega

theorem AccountsOk.clientGo (hi : s.sys.clients[i]? = some c)
    (hcall : s.calls[i]? = some call) (hs : clientGo s.sys.shared i c = some (sh,d))
    (hok : countOk s (.sys (.client i .go)))
    (hq : RunQueuesOk True { s.sys with shared := sh,clients := s.sys.clients.set i d }) (ht :
      callStep s { s.sys with shared := sh,clients := s.sys.clients.set i d } i call .go (some c) =
      some t) : AccountsOk t := by
  obtain ⟨hfresh,hreg,hunreg⟩ := clientGo_registry hs
  by_cases henq : ∃ b,c = .enqueue b
  · obtain ⟨b,rfl⟩ := henq
    simp only [callStep] at ht
    split at ht
    · rename_i hqueue
      cases ht
      refine h.goStep hi hcall hq hfresh (fun a ha => h.known a (hreg a ha)) (fun hd => ?_)
        (fun l r hl => ?_)
      · simp only [SmalltalkA.clientGo] at hs
        split at hs <;> cases hs
        exact absurd rfl hd
      · obtain ⟨l',r',hl',hr',hcount⟩ := enqueue_claims h.queues hi hs hl.overflow hl.drained
        refine ⟨l',r',⟨hl',hr'⟩,fun a => ?_⟩
        rw [hcount a,hqueue,count_toList_some]
        omega
    · cases ht
  · have hnone : call.queue = none := by
      cases hqb : call.queue with
      | none => rfl
      | some b => exact absurd ⟨b,(h.calls i c call hi hcall).2 b hqb⟩ henq
    have hsame := clientGo_lists hs (fun b hb => henq ⟨b,hb⟩)
    have hlists : ∀ l r,QueueLists s.sys l r →
        QueueLists { s.sys with shared := sh,clients := s.sys.clients.set i d } l r := by
      intro l r hl
      constructor
      · rw [hsame.next,hsame.head]
        exact hl.overflow
      · rw [hsame.next,hsame.drain]
        exact hl.drained
    by_cases hun : ∃ b,c = .unregister b
    · obtain ⟨b,rfl⟩ := hun
      cases ht
      have howned : s.owned b = true := by simpa [countOk,hi] using hok
      refine h.goStep hi hcall hq hfresh (fun a ha => ?_) (fun _ => hnone)
        (fun l r hl => ⟨l,r,hlists l r hl,fun a => ?_⟩)
      · have hab : a ≠ b := by
          rintro rfl
          simp [(hunreg a rfl).1] at ha
        exact (update_of_ne hab ..).trans (h.known a (hreg a ha))
      · by_cases hab : a = b
        · subst hab
          simp [howned,hnone,hsame.drain]
          omega
        · simp [update_of_ne hab,count_cons_of_ne (Ne.symm hab),hnone,hsame.drain]
    · have ht' : { s with
          sys := { s.sys with shared := sh,clients := s.sys.clients.set i d } }.endCall i call =
          t := by
        cases c with
        | enqueue b => exact absurd ⟨b,rfl⟩ henq
        | unregister b => exact absurd ⟨b,rfl⟩ hun
        | _ => exact Option.some.inj ht
      subst ht'
      refine h.goStep hi hcall hq hfresh (fun a ha => h.known a (hreg a ha)) (fun _ => hnone)
        (fun l r hl => ⟨l,r,hlists l r hl,fun a => ?_⟩)
      simp [hnone,hsame.drain]

theorem AccountsOk.clientCall {c : ClientChoice}
    (hi : s.sys.clients[i]? = some .idle) (hcall : s.calls[i]? = some call)
    (hs : clientBegin s.sys.shared c = some (sh,d)) (hok : countOk s (.sys (.client i c)))
    (hq : RunQueuesOk True { s.sys with shared := sh,clients := s.sys.clients.set i d }) (ht :
      callStep s { s.sys with shared := sh,clients := s.sys.clients.set i d } i call c (some .idle)
      = some t) : AccountsOk t := by
  cases c with
  | go => cases hs
  | send a | wake a =>
    simp only [clientBegin] at hs
    split at hs
    · rename_i hreg
      cases hs
      cases ht
      exact h.begin hi hcall (by simp) hreg hok hq
    · cases hs
  | create a | restart a =>
    simp only [clientBegin] at hs
    split at hs
    · rename_i hp
      cases hs
      cases ht
      have hfresh : s.sys.shared.fresh a = true := by
        simp only [Shared.pristine,Bool.and_eq_true] at hp
        exact hp.1.1.1.1
      exact h.birth hi hcall hfresh rfl hq
    · cases hs
  | terminate a | exceed a =>
    simp only [clientBegin] at hs
    split at hs
    · cases hs
    · cases hs
      cases ht
      obtain ⟨l,r,hlists,hacc⟩ := h.accounts
      obtain rfl := (h.calls i .idle call hi hcall).1 rfl
      exact ⟨hq,h.known,fun j c call hj hcj => h.keepCall hcall (fun _ => rfl) rfl hj hcj,h.root,
        l,r,⟨hlists.1,hlists.2⟩,fun b => (hacc b).congr rfl rfl rfl rfl⟩

theorem AccountsOk.step {e : RefEvent} (hok : refOk s e) (hs : refStep s e = some t) :
    AccountsOk t := by
  cases e with
  | sys e =>
    obtain ⟨hcount,hord,hroom⟩ := hok
    by_cases hclient : ∃ i c,e = .client i c
    · obtain ⟨i,c,rfl⟩ := hclient
      simp only [refStep,bind_eq_some_iff] at hs
      obtain ⟨call,hcall,u,hu,ht⟩ := hs
      have hq := h.queues.step hord (fun _ => hroom) hu
      cases sysStep_moves hu with
      | go hi hc =>
        rw [hi] at ht
        exact h.clientGo hi hcall hc hcount hq ht
      | call hi hc =>
        rw [hi] at ht
        exact h.clientCall hi hcall hc hcount hq ht
    · have hnot : ∀ i c,e ≠ .client i c := fun i c he => hclient ⟨i,c,he⟩
      rw [refStep.eq_2 _ _ hnot,map_eq_some_iff] at hs
      obtain ⟨u,hu,rfl⟩ := hs
      exact h.sysStep hnot hord hroom hu
  | lookup a =>
    simp only [refStep] at hs
    split at hs
    · rename_i hreg
      cases hs
      exact h.lookup hok hreg
    · cases hs
  | retain i =>
    simp only [refStep] at hs
    split at hs
    · rename_i a lookup hi hcall
      cases hs
      simp only [refOk,countOk,hi,hcall] at hok
      exact h.retain hi hcall hok.1 hok.2
    · cases hs
  | release a =>
    simp only [refStep] at hs
    split at hs
    · rename_i ha
      cases hs
      exact h.release ha
    · cases hs

end

/-! ### Whole runs -/

theorem RefStarted.accountsOk (h : RefStarted s) : AccountsOk s := by
  have hcalls : ∀ a,tally (fun c => c.share a) s.calls = 0 := by
    intro a
    by_contra hne
    obtain ⟨i,c,hc,hpos⟩ := exists_of_tally_pos (Nat.pos_of_ne_zero hne)
    rw [h.calls] at hc
    rw [eq_of_mem_replicate (mem_of_getElem? hc)] at hpos
    simp [ActorRefs.share] at hpos
  have htotal : ∀ a,references s [] [] a = (s.owned a).toNat := by
    intro a
    simp [references,hcalls,h.loose,claimTally,overflowShare,h.sys.drain,Drain.firstShare,
      h.sys.tally_workers (fun x => x.claims a) rfl]
  refine ⟨h.sys.runQueuesOk True,h.registered,fun i c call hi hcall => ?_,h.owned _ h.root.2,
    [],[],⟨by rw [h.sys.overflow]; trivial,by rw [h.sys.drain]; trivial⟩,fun a => ?_⟩
  · rw [h.calls] at hcall
    obtain rfl := eq_of_mem_replicate (mem_of_getElem? hcall)
    exact ⟨fun _ => rfl,fun b hb => by cases hb⟩
  · have howned := h.owned a
    have hfreed := h.freed a
    simp only [ActorOk,htotal,Account,hfreed]
    by_cases hf : s.sys.shared.fresh a = true
    · have : s.owned a = false := by
        by_contra hne
        simp [howned (Bool.of_not_eq_false hne)] at hf
      simp [hf,this]
    · by_cases hroot : a = rootActor
      · subst hroot
        simp [hf,h.root]
      · cases ho : s.owned a <;> simp [hf,hroot,ho,h.refs a hroot]

theorem AccountsOk.counted_iff (h : AccountsOk s) (hlists : QueueLists s.sys l r)
    (ha : s.sys.shared.fresh a = false) : Counted s l r a ↔ a ≠ rootActor := by
  obtain ⟨l₀,r₀,hlists₀,hacc⟩ := h.accounts
  obtain rfl := linked_unique hlists.overflow hlists₀.overflow
  obtain rfl := linked_unique hlists.drained hlists₀.drained
  have hok := hacc a
  simp only [ActorOk,ha,Bool.false_eq_true,if_false,Account] at hok
  constructor
  · rintro hcounted rfl
    rw [if_pos rfl,hcounted.count] at hok
    omega
  · intro hroot
    rw [if_neg hroot] at hok
    obtain ⟨hcount,-,hfreed⟩ := hok
    refine ⟨hcount,hfreed,fun hreg => ?_⟩
    rw [hfreed,if_neg (references_of_owned (h.known a hreg))]

/-- If all steps meet the condition, the counter of every actor but the root actor is the number of
its references, and the root actor's never is. -/
theorem actor_refcount_balanced (h₀ : RefStarted s) (h : Path refStep refOk s t) :
    ∃ l r,QueueLists t.sys l r ∧ ∀ a,t.sys.shared.fresh a = false →
      (Counted t l r a ↔ a ≠ rootActor) := by
  have hok := h.invariant h₀.accountsOk (fun _ _ _ hi hok hs => hi.step hok hs)
  obtain ⟨l,r,hlists,-⟩ := hok.accounts
  exact ⟨l,r,hlists,fun a ha => hok.counted_iff hlists ha⟩

/-- `twoWorkers` with the counters as `sta_vm_create` and `sta_actor_create` leave them. -/
def twoWorkersCounted : RefSys where
  sys := twoWorkers
  refs := fun a => if a = 2 then 1 else 0
  freed := fun a => if a = 0 then 1 else 0
  owned := fun a => decide (a = rootActor ∨ a = 2)
  calls := [⟨none,none⟩,⟨none,none⟩]
  loose := []

theorem twoWorkersCounted_started : RefStarted twoWorkersCounted where
  sys := twoWorkers_started
  registered := fun _ h => h
  owned := fun a h => by
    rcases of_decide_eq_true h with rfl | rfl <;> rfl
  refs := fun a ha => by
    simp only [twoWorkersCounted,ha,false_or]
    split <;> simp_all
  root := ⟨rfl,rfl⟩
  freed := fun a => by
    match a with
    | 0 | 1 | 2 => rfl
    | a + 3 => simp [twoWorkersCounted,twoWorkers]
  calls := rfl
  loose := rfl

/-- Thread 0 sends to actor 2 and releases its lookup; worker 0 claims the actor. -/
def sendReleaseClaim : List RefEvent :=
  .sys (.client 0 (.send 2)) :: List.replicate 7 (.sys (.client 0 .go)) ++
  [.retain 0,.sys (.client 0 .go),.release 2,.sys (.worker 0 .overflow)] ++
  List.replicate 3 (.sys (.worker 0 .go))

theorem actor_refcount_balanced_claimed : ∃ t : RefSys,
    Path refStep refOk twoWorkersCounted t ∧ t.sys.workers = [⟨.dispatch 2,[]⟩,⟨.poll,[]⟩] ∧
    t.refs 2 = 2 ∧ ∃ l r,QueueLists t.sys l r ∧ Counted t l r 2 := by
  have hpath : Path refStep refOk twoWorkersCounted _ := runAll_path sendReleaseClaim rfl
  obtain ⟨l,r,hlists,hcounted⟩ := actor_refcount_balanced twoWorkersCounted_started hpath
  exact ⟨_,hpath,rfl,rfl,l,r,hlists,(hcounted 2 rfl).mpr (by decide)⟩

/-- A lookup of the root actor and its release free it. -/
theorem root_actor_freed : ∃ s t : RefSys,RefStarted s ∧ Path refStep refOk s t ∧
    t.sys.shared.registered rootActor = true ∧ t.sys.shared.state rootActor = .ready ∧
    t.freed rootActor = 1 ∧ ∀ l r,QueueLists t.sys l r → ¬ Counted t l r rootActor :=
  ⟨twoWorkersCounted,_,twoWorkersCounted_started,
    runAll_path [.lookup rootActor,.release rootActor] rfl,rfl,rfl,rfl,
    fun l r _ hcounted => absurd (hcounted.alive rfl) (by decide)⟩

end

end SmalltalkA
