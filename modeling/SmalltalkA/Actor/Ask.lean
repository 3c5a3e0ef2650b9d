import SmalltalkA.Actor.State
import SmalltalkA.Lib.Interleaving

/-! Asks and their futures: `sta_actor_ask_msg`, dispatch and reply in
`sta_actor_process_one_preemptible`, `handle_actor_exception` and the draining of mailboxes, by any
threads. A settling call is one step, its CAS on PENDING. -/

set_option autoImplicit false

namespace SmalltalkA

open Interleaving List Function

/-- The fields of `STA_MailboxMsg` that a reply depends on; `futureId` is 0 for a plain send. -/
structure AskMsg where
  futureId : Nat
  selector : Nat
  deriving DecidableEq

/-- A mailbox node, `linked` once its predecessor's `next` is stored. -/
structure AskNode where
  msg : AskMsg
  owner : Nat
  linked : Bool
  deriving DecidableEq

/-- Where a thread is in `sta_actor_ask_msg` or `sta_actor_send_msg`. -/
inductive AskPc where
  | idle
  | created (a : Nat) (m : AskMsg)
  | linking (a : Nat) (m : AskMsg)
  | refused (f : Nat)
  deriving DecidableEq

/-- Where a worker is in `sta_actor_process_one_preemptible`. -/
inductive ProcPc where
  | free
  | dequeued (a : Nat) (m : AskMsg)
  | execute (a : Nat)
  | reply (a fid : Nat)
  | crash (a fid : Nat)
  | walk (a n : Nat)
  | walked (a : Nat)
  | drain (a : Nat)
  deriving DecidableEq

/-- What the dispatch looks at: which actors have `sup_data`, which selectors a class understands,
and the selector `childFailed:reason:`. -/
structure Behaviors where
  supervises : Nat → Bool
  responds : Nat → Nat → Bool
  childFailed : Nat

/-- Actors and futures by id; `target f` is the actor asked, once the ask has returned `f`. -/
structure AskSys where
  state : Nat → ActorState
  registered : Nat → Bool
  mailbox : Nat → List AskNode
  saved : Nat → Bool
  pendingFutureId : Nat → Nat
  future : Nat → FutureState
  table : Nat → Bool
  asked : Nat → Bool
  target : Nat → Option Nat
  askers : List AskPc
  workers : List ProcPc

/-- `ok` says whether the allocations of the step succeed. -/
inductive AskEvent where
  | ask (i a f selector : Nat)
  | send (i a selector : Nat)
  | refuse (i : Nat)
  | exchange (i : Nat)
  | link (i : Nat)
  | failAsk (i : Nat) (ok : Bool)
  | start (w a : Nat)
  | dispatch (w : Nat)
  | preempt (w : Nat)
  | raise (w : Nat)
  | complete (w : Nat)
  | reply (w : Nat) (ok : Bool)
  | failCurrent (w : Nat) (ok : Bool)
  | visit (w : Nat) (ok : Bool)
  | endWalk (w : Nat)
  | drain (w : Nat)
  | store (a : Nat) (st : ActorState)
  | terminate (a : Nat)
  | destroy (a : Nat)

namespace AskSys

def setAsker (s : AskSys) (i : Nat) (pc : AskPc) : AskSys :=
  { s with askers := s.askers.set i pc }

def setWorker (s : AskSys) (w : Nat) (pc : ProcPc) : AskSys :=
  { s with workers := s.workers.set w pc }

def setMailbox (s : AskSys) (a : Nat) (q : List AskNode) : AskSys :=
  { s with mailbox := update s.mailbox a q }

def settle (s : AskSys) (f : Nat) (st : FutureState) : AskSys :=
  if s.future f = .pending then { s with future := update s.future f st } else s

def unregister (s : AskSys) (f : Nat) : AskSys :=
  { s with table := update s.table f false }

/-- `fail_future_for_crash`. -/
def failForCrash (s : AskSys) (f : Nat) (ok : Bool) : AskSys :=
  if f = 0 ∨ s.table f = false then s
  else (if ok then s.settle f .failed else s).unregister f

/-- `route_reply`. -/
def routeReply (s : AskSys) (f : Nat) (ok : Bool) : AskSys :=
  if f = 0 ∨ s.table f = false ∨ ok = false then s else s.settle f .resolved

end AskSys

def linkAsk (i : Nat) (n : AskNode) : AskNode :=
  if n.owner = i then { n with linked := true } else n

def Behaviors.runs (B : Behaviors) (a selector : Nat) : Bool :=
  !(B.supervises a && selector == B.childFailed) && B.responds a selector

def askStep (B : Behaviors) (s : AskSys) : AskEvent → Option AskSys
  | .ask i a f selector =>
    match s.askers[i]? with
    | some .idle =>
      if s.registered a = true ∧ s.state a ≠ .terminated then
        some { s.setAsker i (.created a ⟨f,selector⟩) with
          future := update s.future f .pending
          table := update s.table f true
          asked := update s.asked f true }
      else none
    | _ => none
  | .send i a selector =>
    match s.askers[i]? with
    | some .idle =>
      if s.registered a = true ∧ s.state a ≠ .terminated then
        some (s.setAsker i (.created a ⟨0,selector⟩))
      else none
    | _ => none
  | .refuse i =>
    match s.askers[i]? with
    | some (.created _ m) => some (s.setAsker i (.refused m.futureId))
    | _ => none
  | .exchange i =>
    match s.askers[i]? with
    | some (.created a m) =>
      some ((s.setMailbox a (s.mailbox a ++ [⟨m,i,false⟩])).setAsker i (.linking a m))
    | _ => none
  | .link i =>
    match s.askers[i]? with
    | some (.linking a m) =>
      some { (s.setMailbox a ((s.mailbox a).map (linkAsk i))).setAsker i .idle with
        target := if m.futureId = 0 then s.target
          else update s.target m.futureId (some a) }
    | _ => none
  | .failAsk i ok =>
    match s.askers[i]? with
    | some (.refused f) =>
      some (if f = 0 then s.setAsker i .idle
        else ((if ok then s.settle f .failed else s).unregister f).setAsker i .idle)
    | _ => none
  | .start w a =>
    match s.workers[w]? with
    | some .free =>
      if s.saved a then
        some { s.setWorker w (.execute a) with saved := update s.saved a false }
      else match s.mailbox a with
        | ⟨m,_,true⟩ :: rest => some ((s.setMailbox a rest).setWorker w (.dequeued a m))
        | _ => some s
    | _ => none
  | .dispatch w =>
    match s.workers[w]? with
    | some (.dequeued a m) =>
      if B.runs a m.selector then
        some { s.setWorker w (.execute a) with
          pendingFutureId := update s.pendingFutureId a m.futureId }
      -- the supervisor's C-level handler, or no method: the message is destroyed
      else some (s.setWorker w .free)
    | _ => none
  | .preempt w =>
    match s.workers[w]? with
    | some (.execute a) =>
      some { s.setWorker w .free with saved := update s.saved a true }
    | _ => none
  | .raise w =>
    match s.workers[w]? with
    | some (.execute a) =>
      some { s.setWorker w (.crash a (s.pendingFutureId a)) with
        pendingFutureId := update s.pendingFutureId a 0 }
    | _ => none
  | .complete w =>
    match s.workers[w]? with
    | some (.execute a) =>
      some { s.setWorker w (.reply a (s.pendingFutureId a)) with
        pendingFutureId := update s.pendingFutureId a 0 }
    | _ => none
  | .reply w ok =>
    match s.workers[w]? with
    | some (.reply _ fid) => some ((s.routeReply fid ok).setWorker w .free)
    | _ => none
  | .failCurrent w ok =>
    match s.workers[w]? with
    | some (.crash a fid) => some ((s.failForCrash fid ok).setWorker w (.walk a 0))
    | _ => none
  | .visit w ok =>
    match s.workers[w]? with
    | some (.walk a n) =>
      match (s.mailbox a)[n]? with
      | some ⟨m,_,true⟩ => some ((s.failForCrash m.futureId ok).setWorker w (.walk a (n + 1)))
      | _ => some (s.setWorker w (.walked a))
    | _ => none
  | .endWalk w =>
    match s.workers[w]? with
    | some (.walked a) =>
      some { s.setWorker w (.drain a) with
        state := if s.state a = .running then update s.state a .terminated
          else s.state }
    | _ => none
  | .drain w =>
    match s.workers[w]? with
    | some (.drain a) =>
      match s.mailbox a with
      | ⟨_,_,true⟩ :: rest => some (s.setMailbox a rest)
      | _ => some (s.setWorker w .free)
    | _ => none
  | .store a st => some { s with state := update s.state a st }
  | .terminate a =>
    some { s with
      state := update s.state a .terminated
      registered := update s.registered a false }
  | .destroy a =>
    if s.registered a = false then
      some { s.setMailbox a [] with
        saved := update s.saved a false
        pendingFutureId := update s.pendingFutureId a 0 }
    else none

/-- No future has been made yet and no thread is in one of the calls. -/
structure AskStarted (s : AskSys) : Prop where
  asked : ∀ f,s.asked f = false
  target : ∀ f,s.target f = none
  mailbox : ∀ a,∀ n ∈ s.mailbox a,n.msg.futureId = 0
  askers : ∀ p ∈ s.askers,p = .idle
  workers : ∀ x ∈ s.workers,x = .free

/-! ### Where the message of a future is -/

def ProcPc.carries (a f : Nat) : ProcPc → Prop
  | .dequeued b m => b = a ∧ m.futureId = f
  | .reply b fid | .crash b fid => b = a ∧ fid = f
  | _ => False

/-- A worker executes the actor's message for the future, or it is preempted. -/
def Executing (s : AskSys) (a f : Nat) : Prop :=
  s.pendingFutureId a = f ∧ (s.saved a = true ∨ ∃ x ∈ s.workers,x = .execute a)

def Located (s : AskSys) (a f : Nat) : Prop :=
  (∃ n ∈ s.mailbox a,n.msg.futureId = f) ∨ Executing s a f ∨ ∃ x ∈ s.workers,x.carries a f

def ProcPc.actor : ProcPc → Option Nat
  | .free => none
  | .dequeued a _ | .execute a | .reply a _ | .crash a _ | .walk a _ | .walked a | .drain a =>
    some a

def ProcPc.crashing : ProcPc → Option Nat
  | .crash a _ | .walk a _ | .walked a | .drain a => some a
  | _ => none

def AskPc.actor : AskPc → Option Nat
  | .created a _ | .linking a _ => some a
  | _ => none

/-- A new id is unused; one worker at a time processes an actor; asks are understood and not for a
supervisor's handler; nothing is linked into a crashing actor's mailbox; settling calls get their
memory; and an actor is destroyed without asks or threads that use it. -/
def askOk (B : Behaviors) (s : AskSys) : AskEvent → Prop
  | .ask _ _ f _ => f ≠ 0 ∧ s.asked f = false
  | .link i =>
    match s.askers[i]? with
    | some (.linking a _) => ∀ x ∈ s.workers,x.crashing ≠ some a
    | _ => True
  | .start _ a => ∀ x ∈ s.workers,x.actor ≠ some a
  | .dispatch w =>
    match s.workers[w]? with
    | some (.dequeued a m) => m.futureId ≠ 0 → B.runs a m.selector = true
    | _ => True
  | .failAsk _ ok | .reply _ ok | .failCurrent _ ok | .visit _ ok => ok = true
  | .destroy a =>
    (∀ x ∈ s.workers,x.actor ≠ some a) ∧ (∀ p ∈ s.askers,p.actor ≠ some a) ∧
      (∀ n ∈ s.mailbox a,n.msg.futureId = 0) ∧ (s.saved a = true → s.pendingFutureId a = 0)
  | _ => True

instance (B : Behaviors) (s : AskSys) (e : AskEvent) : Decidable (askOk B s e) := by
  unfold askOk
  repeat' split
  all_goals infer_instance

/-! ### The invariant -/

def Sole (l : List ProcPc) : Prop :=
  ∀ (w v : Nat) (x y : ProcPc) (a : Nat),l[w]? = some x → l[v]? = some y →
    x.actor = some a → y.actor = some a → w = v

def AskMsg.Settled (future : Nat → FutureState) (m : AskMsg) : Prop :=
  m.futureId = 0 ∨ future m.futureId ≠ .pending

/-- The walk has settled the futures of the messages that the drain will destroy. -/
def Visited (s : AskSys) : ProcPc → Prop
  | .walk a n => n ≤ (s.mailbox a).length ∧
      ∀ d ∈ (s.mailbox a).take n,d.linked = true ∧ d.msg.Settled s.future
  | .walked a | .drain a => ∀ d ∈ (s.mailbox a).takeWhile AskNode.linked,d.msg.Settled s.future
  | _ => True

def AskPc.Named (s : AskSys) : AskPc → Prop
  | .created _ m => m.futureId = 0 ∨ s.asked m.futureId = true
  | _ => True

structure AskInv (s : AskSys) : Prop where
  zero : s.asked 0 = false
  returned : ∀ f a,s.target f = some a → s.asked f = true
  table : ∀ f,s.asked f = true → s.future f = .pending → s.table f = true
  known : ∀ a,∀ d ∈ s.mailbox a,d.msg.futureId = 0 ∨ s.asked d.msg.futureId = true
  named : ∀ p ∈ s.askers,p.Named s
  linking : ∀ (i a : Nat) (m : AskMsg),s.askers[i]? = some (.linking a m) →
    ∃ d ∈ s.mailbox a,d.msg = m ∧ d.owner = i ∧ d.linked = false
  sole : Sole s.workers
  unsaved : ∀ x ∈ s.workers,∀ a,x.actor = some a → s.saved a = false
  visited : ∀ x ∈ s.workers,Visited s x
  located : ∀ f a,s.target f = some a → s.future f = .pending → Located s a f

theorem AskStarted.askInv {s : AskSys} (h : AskStarted s) : AskInv s where
  zero := h.asked 0
  returned := fun f a hf => by simp [h.target f] at hf
  table := fun f hf => by simp [h.asked f] at hf
  known := fun a d hd => .inl (h.mailbox a d hd)
  named := fun p hp => by rw [h.askers p hp]; trivial
  linking := fun i a m hi => by
    have := h.askers _ (mem_of_getElem? hi)
    cases this
  sole := fun w v x y a hx _ hxa => by
    rw [h.workers x (mem_of_getElem? hx)] at hxa
    cases hxa
  unsaved := fun x hx a hxa => by
    rw [h.workers x hx] at hxa
    cases hxa
  visited := fun x hx => by rw [h.workers x hx]; trivial
  located := fun f a hf => by simp [h.target f] at hf

section

variable {s t : AskSys} {a f i w : Nat} {x y : ProcPc}

theorem Sole.set {l : List ProcPc} (h : Sole l) (hx : l[w]? = some x)
    (hy : ∀ a,y.actor = some a → x.actor = some a ∨ ∀ z ∈ l,z.actor ≠ some a) :
    Sole (l.set w y) := by
  -- what is said of the new entry and another one
  have hnew : ∀ (v : Nat) (z : ProcPc) (a : Nat),w ≠ v → l[v]? = some z → y.actor = some a →
      z.actor = some a → False := by
    intro v z a hne hz hya hza
    rcases hy a hya with hxa | hno
    · exact hne (h w v x z a hx hz hxa hza)
    · exact hno z (mem_of_getElem? hz) hza
  intro u v p q a hp hq hpa hqa
  by_cases hu : w = u
  · subst hu
    obtain rfl := eq_of_getElem?_set hp
    by_cases hv : w = v
    · exact hv
    · rw [getElem?_set_ne hv] at hq
      exact (hnew v q a hv hq hpa hqa).elim
  · rw [getElem?_set_ne hu] at hp
    by_cases hv : w = v
    · subst hv
      obtain rfl := eq_of_getElem?_set hq
      exact (hnew u p a hu hp hqa hpa).elim
    · rw [getElem?_set_ne hv] at hq
      exact h u v p q a hp hq hpa hqa

theorem Located.setWorker (h : Located s a f) (hx : s.workers[w]? = some x)
    (hexec : x ≠ .execute a) (hcarry : ¬ x.carries a f) : Located (s.setWorker w y) a f := by
  rcases h with hm | ⟨hp,hs | he⟩ | hc
  · exact .inl hm
  · exact .inr (.inl ⟨hp,.inl hs⟩)
  · exact .inr (.inl ⟨hp,.inr (exists_mem_set hx he (fun he => absurd he hexec))⟩)
  · exact .inr (.inr (exists_mem_set hx hc (fun hc => absurd hc hcarry)))

theorem AskInv.setWorker (h : AskInv s) (hx : s.workers[w]? = some x)
    (hactor : y.actor = none ∨ y.actor = x.actor) (hvis : Visited s y)
    (hloc : ∀ f a,s.target f = some a → s.future f = .pending → Located s a f →
      Located (s.setWorker w y) a f) : AskInv (s.setWorker w y) := by
  have hsame : ∀ a,y.actor = some a → x.actor = some a := by
    intro a hya
    rcases hactor with hn | he
    · rw [hn] at hya
      cases hya
    · rwa [he] at hya
  refine ⟨h.zero,h.returned,h.table,h.known,h.named,h.linking,
    h.sole.set hx (fun a hya => .inl (hsame a hya)),forall_mem_set h.unsaved (fun a hya => ?_),
    forall_mem_set h.visited hvis,fun f a hf hp => hloc f a hf hp (h.located f a hf hp)⟩
  exact h.unsaved x (mem_of_getElem? hx) a (hsame a hya)

/-! ### Settling -/

/-- Futures leave PENDING, and only those that do leave the table. -/
structure Settles (s t : AskSys) : Prop where
  eq : t = { s with future := t.future,table := t.table }
  pending : ∀ g,t.future g = .pending → s.future g = .pending ∧ t.table g = s.table g

theorem AskInv.settles (h : AskInv s) (hst : Settles s t) : AskInv t := by
  obtain ⟨heq,hp⟩ := hst
  rw [heq]
  refine ⟨h.zero,h.returned,fun f hf hpf => ?_,h.known,h.named,h.linking,h.sole,h.unsaved,
    fun x hx => ?_,fun f a hf hpf => h.located f a hf (hp f hpf).1⟩
  · rw [(hp f hpf).2]
    exact h.table f hf (hp f hpf).1
  · have hset : ∀ m : AskMsg,m.Settled s.future → m.Settled t.future :=
      fun m hm => hm.imp_right (fun hne hpm => hne (hp _ hpm).1)
    have hv := h.visited x hx
    cases x with
    | walk a n => exact ⟨hv.1,fun d hd => ⟨(hv.2 d hd).1,hset _ (hv.2 d hd).2⟩⟩
    | walked a | drain a => exact fun d hd => hset _ (hv d hd)
    | _ => trivial

theorem settles_refl (s : AskSys) : Settles s s := ⟨rfl,fun _ hg => ⟨hg,rfl⟩⟩

variable {st : FutureState} {b o n : Nat} {m : AskMsg} {q rest : List AskNode} {d : AskNode}

theorem settle_future_ne (hst : st ≠ .pending) : (s.settle f st).future f ≠ .pending := by
  unfold AskSys.settle
  split
  · simpa using hst
  · assumption

theorem settles_settle (hst : st ≠ .pending) : Settles s (s.settle f st) := by
  unfold AskSys.settle
  split
  · refine ⟨rfl,fun g hg => ⟨?_,rfl⟩⟩
    by_cases hgf : g = f
    · subst hgf
      exact absurd hg (by simpa using hst)
    · simpa [update_of_ne hgf] using hg
  · exact settles_refl s

theorem settles_unregister (hst : st ≠ .pending) : Settles s ((s.settle f st).unregister f) := by
  have hs := settles_settle (s := s) (f := f) hst
  refine ⟨?_,fun g hg => ⟨(hs.pending g hg).1,?_⟩⟩
  · rw [AskSys.unregister,hs.eq]
  · have hgf : g ≠ f := by
      rintro rfl
      exact settle_future_ne hst hg
    exact (update_of_ne hgf ..).trans (hs.pending g hg).2

theorem failForCrash_settles : Settles s (s.failForCrash f true) := by
  unfold AskSys.failForCrash
  split
  · exact settles_refl s
  · exact settles_unregister (by simp)

theorem failForCrash_settled (h : AskInv s) (hf : s.asked f = true) :
    (s.failForCrash f true).future f ≠ .pending := by
  unfold AskSys.failForCrash
  split
  · rename_i hor
    intro hp
    have := h.table f hf hp
    rcases hor with rfl | ht
    · simp [h.zero] at hf
    · simp [this] at ht
  · exact settle_future_ne (by simp)

theorem routeReply_settles : Settles s (s.routeReply f true) := by
  unfold AskSys.routeReply
  split
  · exact settles_refl s
  · exact settles_settle (by simp)

theorem routeReply_settled (h : AskInv s) (hf : s.asked f = true) :
    (s.routeReply f true).future f ≠ .pending := by
  unfold AskSys.routeReply
  split
  · rename_i hor
    intro hp
    have := h.table f hf hp
    rcases hor with rfl | ht | hok
    · simp [h.zero] at hf
    · simp [this] at ht
    · cases hok
  · exact settle_future_ne (by simp)

/-! ### Asking -/

theorem AskInv.linking_set (h : AskInv s) {q : AskPc} (hq : ∀ a m,q ≠ .linking a m) {j : Nat}
    (hj : (s.askers.set i q)[j]? = some (.linking b m)) :
    i ≠ j ∧ ∃ d ∈ s.mailbox b,d.msg = m ∧ d.owner = j ∧ d.linked = false := by
  have hij : i ≠ j := by
    rintro rfl
    exact hq b m (eq_of_getElem?_set hj).symm
  rw [getElem?_set_ne hij] at hj
  exact ⟨hij,h.linking j b m hj⟩

theorem AskInv.setAsker (h : AskInv s) {q : AskPc} (hnamed : q.Named s)
    (hq : ∀ a m,q ≠ .linking a m) : AskInv (s.setAsker i q) :=
  ⟨h.zero,h.returned,h.table,h.known,forall_mem_set h.named hnamed,
    fun _ _ _ hj => (h.linking_set hq hj).2,h.sole,h.unsaved,h.visited,h.located⟩

theorem AskInv.ask (h : AskInv s) (hf : m.futureId ≠ 0) (hnew : s.asked m.futureId = false) :
    AskInv { s.setAsker i (.created a m) with
      future := update s.future m.futureId .pending
      table := update s.table m.futureId true
      asked := update s.asked m.futureId true } := by
  have hold : ∀ g,s.asked g = true → g ≠ m.futureId := by
    rintro g hg rfl
    simp [hnew] at hg
  have hasked : ∀ g,s.asked g = true → update s.asked m.futureId true g = true :=
    fun g hg => (update_of_ne (hold g hg) ..).trans hg
  -- a queued message has another future
  have hset : ∀ b,∀ d ∈ s.mailbox b,d.msg.Settled s.future →
      d.msg.Settled (update s.future m.futureId .pending) := by
    intro b d hd hs
    rcases h.known b d hd with h0 | hk
    · exact .inl h0
    · rwa [AskMsg.Settled,update_of_ne (hold _ hk)]
  refine ⟨?_,fun g b hg => hasked g (h.returned g b hg),fun g hg hp => ?_,
    fun b d hd => (h.known b d hd).imp_right (hasked _),?_,
    fun j b m' hj => (h.linking_set (by simp) hj).2,h.sole,h.unsaved,fun x hx => ?_,
    fun g b hg hp => ?_⟩
  · exact (update_of_ne (Ne.symm hf) ..).trans h.zero
  · by_cases hgf : g = m.futureId
    · subst hgf
      exact update_self ..
    · simp only [update_of_ne hgf] at hg hp ⊢
      exact h.table g hg hp
  · refine forall_mem_set (fun p hp => ?_) (.inr (update_self ..))
    have := h.named p hp
    cases p with
    | created b m' => exact this.imp_right (hasked _)
    | _ => trivial
  · have hv := h.visited x hx
    cases x with
    | walk b n =>
      exact ⟨hv.1,fun d hd => ⟨(hv.2 d hd).1,hset b d (mem_of_mem_take hd) (hv.2 d hd).2⟩⟩
    | walked b | drain b =>
      exact fun d hd => hset b d (takeWhile_subset _ hd) (hv d hd)
    | _ => trivial
  · have hgf := hold g (h.returned g b hg)
    simp only [update_of_ne hgf] at hp
    exact h.located g b hg hp

theorem actor_of_crashing (h : x.crashing = some a) : x.actor = some a := by
  cases x <;> first | exact h | cases h

theorem visited_setMailbox_of_ne (h : Visited s x) (ha : x.crashing ≠ some a) :
    Visited (s.setMailbox a q) x := by
  cases x with
  | walk b n | walked b | drain b =>
    have hba : b ≠ a := fun he => ha (by rw [he]; rfl)
    simpa [Visited,AskSys.setMailbox,update_of_ne hba] using h
  | _ => trivial

theorem mem_takeWhile_concat {α : Type} {p : α → Bool} {l : List α} {z d : α}
    (hz : p z = false) (hd : d ∈ (l ++ [z]).takeWhile p) : d ∈ l.takeWhile p := by
  rw [takeWhile_append] at hd
  split at hd
  · rename_i hlen
    have htake : l.takeWhile p = l := ( takeWhile_prefix p).eq_of_length hlen
    simpa [hz,htake] using hd
  · exact hd

theorem visited_append {z : AskNode} (hz : z.linked = false) (h : Visited s x) :
    Visited (s.setMailbox a (s.mailbox a ++ [z])) x := by
  by_cases ha : x.crashing = some a
  · cases x with
    | walk b n =>
      obtain rfl : b = a := Option.some.inj ha
      simp only [Visited,AskSys.setMailbox,update_self]
      rw [take_append_of_le_length h.1]
      exact ⟨by simpa using Nat.le_succ_of_le h.1,h.2⟩
    | walked b | drain b =>
      obtain rfl : b = a := Option.some.inj ha
      simp only [Visited,AskSys.setMailbox,update_self]
      exact fun d hd => h d (mem_takeWhile_concat hz hd)
    | _ => trivial
  · exact visited_setMailbox_of_ne h ha

theorem mem_setMailbox (hd : d ∈ (s.setMailbox a q).mailbox b) :
    b = a ∧ d ∈ q ∨ b ≠ a ∧ d ∈ s.mailbox b := by
  by_cases hba : b = a
  · subst hba
    exact .inl ⟨rfl,by simpa [AskSys.setMailbox] using hd⟩
  · exact .inr ⟨hba,by simpa [AskSys.setMailbox,update_of_ne hba] using hd⟩

theorem mem_setMailbox_of (hd : d ∈ s.mailbox b) (hq : b = a → d ∈ q) :
    d ∈ (s.setMailbox a q).mailbox b := by
  by_cases hba : b = a
  · subst hba
    simpa [AskSys.setMailbox] using hq rfl
  · simpa [AskSys.setMailbox,update_of_ne hba] using hd

theorem AskInv.exchange (h : AskInv s) (hi : s.askers[i]? = some (.created a m)) :
    AskInv ((s.setMailbox a (s.mailbox a ++ [⟨m,i,false⟩])).setAsker i (.linking a m)) := by
  have hkeep : ∀ b,∀ d ∈ s.mailbox b,
      d ∈ (s.setMailbox a (s.mailbox a ++ [⟨m,i,false⟩])).mailbox b :=
    fun b d hd => mem_setMailbox_of hd (fun hb => by subst hb; simp [hd])
  refine ⟨h.zero,h.returned,h.table,fun b d hd => ?_,forall_mem_set h.named trivial,
    fun j b m' hj => ?_,h.sole,h.unsaved,fun x hx => visited_append rfl (h.visited x hx),
    fun f b hf hp => ?_⟩
  · rcases mem_setMailbox hd with ⟨rfl,hd⟩ | ⟨-,hd⟩
    · rcases mem_append.mp hd with hd | hd
      · exact h.known b d hd
      · rw [mem_singleton.mp hd]
        exact h.named _ (mem_of_getElem? hi)
    · exact h.known b d hd
  · by_cases hij : i = j
    · subst hij
      obtain ⟨rfl,rfl⟩ : b = a ∧ m' = m := by simpa using eq_of_getElem?_set hj
      exact ⟨⟨m',i,false⟩,by simp [AskSys.setMailbox,AskSys.setAsker],rfl,rfl,rfl⟩
    · simp only [AskSys.setAsker,getElem?_set_ne hij] at hj
      obtain ⟨d,hd,hrest⟩ := h.linking j b m' hj
      exact ⟨d,hkeep b d hd,hrest⟩
  · rcases h.located f b hf hp with ⟨d,hd,hdf⟩ | hrest
    · exact .inl ⟨d,hkeep b d hd,hdf⟩
    · exact .inr hrest

theorem linkAsk_msg (d : AskNode) : (linkAsk i d).msg = d.msg := by
  unfold linkAsk
  split <;> rfl

theorem AskInv.link (h : AskInv s) {m : AskMsg} (hi : s.askers[i]? = some (.linking a m))
    (hcrash : ∀ x ∈ s.workers,x.crashing ≠ some a) :
    AskInv { (s.setMailbox a ((s.mailbox a).map (linkAsk i))).setAsker i .idle with
      target := if m.futureId = 0 then s.target else update s.target m.futureId (some a) } := by
  obtain ⟨own,hown,rfl,-,-⟩ := h.linking i a m hi
  have hmem : ∀ b,∀ d ∈ s.mailbox b,
      ∃ d' ∈ (s.setMailbox a ((s.mailbox a).map (linkAsk i))).mailbox b,d'.msg = d.msg := by
    intro b d hd
    by_cases hba : b = a
    · subst hba
      exact ⟨linkAsk i d,by simp [AskSys.setMailbox,List.mem_map_of_mem hd],linkAsk_msg d⟩
    · exact ⟨d,mem_setMailbox_of hd (fun hb => absurd hb hba),rfl⟩
  have htarget : ∀ g b,(if own.msg.futureId = 0 then s.target
      else update s.target own.msg.futureId (some a)) g = some b →
      g = own.msg.futureId ∧ own.msg.futureId ≠ 0 ∧ b = a ∨ s.target g = some b := by
    intro g b hg
    by_cases h0 : own.msg.futureId = 0
    · rw [if_pos h0] at hg
      exact .inr hg
    · rw [if_neg h0] at hg
      by_cases hgo : g = own.msg.futureId
      · subst hgo
        rw [update_self] at hg
        exact .inl ⟨rfl,h0,(Option.some.inj hg).symm⟩
      · rw [update_of_ne hgo] at hg
        exact .inr hg
  refine ⟨h.zero,fun g b hg => ?_,h.table,fun b d hd => ?_,forall_mem_set h.named trivial,
    fun j b m' hj => ?_,h.sole,h.unsaved,
    fun x hx => visited_setMailbox_of_ne (h.visited x hx) (hcrash x hx),fun g b hg hp => ?_⟩
  · rcases htarget g b hg with ⟨rfl,h0,-⟩ | hold
    · exact (h.known a own hown).resolve_left h0
    · exact h.returned g b hold
  · rcases mem_setMailbox hd with ⟨rfl,hd⟩ | ⟨-,hd⟩
    · obtain ⟨d₀,hd₀,rfl⟩ := List.mem_map.mp hd
      rw [linkAsk_msg]
      exact h.known b d₀ hd₀
    · exact h.known b d hd
  · obtain ⟨hij,d,hd,rfl,rfl,hlinked⟩ := h.linking_set (by simp) hj
    refine ⟨d,mem_setMailbox_of hd (fun hb => ?_),rfl,rfl,hlinked⟩
    subst hb
    exact List.mem_map.mpr ⟨d,hd,if_neg (Ne.symm hij)⟩
  · rcases htarget g b hg with ⟨rfl,-,rfl⟩ | hold
    · obtain ⟨d,hd,hdm⟩ := hmem b own hown
      exact .inl ⟨d,hd,by rw [hdm]⟩
    · rcases h.located g b hold hp with ⟨d,hd,rfl⟩ | hrest
      · obtain ⟨d',hd',hdm⟩ := hmem b d hd
        exact .inl ⟨d',hd',by rw [hdm]⟩
      · exact .inr hrest

/-! ### Processing -/

theorem AskInv.only (h : AskInv s) (hx : s.workers[w]? = some x) (hxa : x.actor = some a)
    (hy : y ∈ s.workers) (hya : y.actor = some a) : y = x := by
  obtain ⟨v,hv⟩ := mem_iff_getElem?.mp hy
  obtain rfl := h.sole w v x y a hx hv hxa hya
  rw [hx,Option.some.injEq] at hv
  exact hv.symm

theorem AskInv.resume (h : AskInv s) (hx : s.workers[w]? = some .free)
    (hno : ∀ z ∈ s.workers,z.actor ≠ some a) :
    AskInv { s.setWorker w (.execute a) with saved := update s.saved a false } := by
  have hsaved : ∀ b,s.saved b = false → update s.saved a false b = false := by
    intro b hb
    by_cases hba : b = a
    · subst hba
      exact update_self ..
    · rwa [update_of_ne hba]
  refine ⟨h.zero,h.returned,h.table,h.known,h.named,h.linking,h.sole.set hx ?_,
    forall_mem_set (fun z hz b hb => hsaved b (h.unsaved z hz b hb)) ?_,
    forall_mem_set h.visited trivial,fun f b hf hp => ?_⟩
  · intro b hb
    cases hb
    exact .inr hno
  · intro b hb
    cases hb
    exact update_self ..
  · rcases h.located f b hf hp with hm | ⟨hpid,hs | he⟩ | hc
    · exact .inl hm
    · by_cases hba : b = a
      · subst hba
        exact .inr (.inl ⟨hpid,.inr ⟨_,mem_set_new hx,rfl⟩⟩)
      · exact .inr (.inl ⟨hpid,.inl ((update_of_ne hba ..).trans hs)⟩)
    · exact .inr (.inl ⟨hpid,.inr (exists_mem_set hx he (fun h0 => by cases h0))⟩)
    · exact .inr (.inr (exists_mem_set hx hc (fun h0 => h0.elim)))

theorem AskInv.linking_pop (h : AskInv s) (hq : s.mailbox a = ⟨m,o,true⟩ :: rest) {j : Nat}
    {m' : AskMsg} (hj : s.askers[j]? = some (.linking b m')) :
    ∃ d ∈ (s.setMailbox a rest).mailbox b,d.msg = m' ∧ d.owner = j ∧ d.linked = false := by
  obtain ⟨d,hd,hm,ho,hl⟩ := h.linking j b m' hj
  refine ⟨d,mem_setMailbox_of hd (fun hba => ?_),hm,ho,hl⟩
  subst hba
  rw [hq] at hd
  rcases mem_cons.mp hd with rfl | hd
  · cases hl
  · exact hd

theorem AskInv.known_pop (h : AskInv s) (hq : s.mailbox a = d :: rest) {d' : AskNode}
    (hd' : d' ∈ (s.setMailbox a rest).mailbox b) :
    d'.msg.futureId = 0 ∨ s.asked d'.msg.futureId = true := by
  rcases mem_setMailbox hd' with ⟨rfl,hrest⟩ | ⟨-,hother⟩
  · exact h.known b d' (by rw [hq]; exact mem_cons_of_mem _ hrest)
  · exact h.known b d' hother

theorem mem_pop (hq : s.mailbox a = d :: rest) (hm : ∃ n ∈ s.mailbox b,n.msg.futureId = f) :
    (∃ n ∈ (s.setMailbox a rest).mailbox b,n.msg.futureId = f) ∨ b = a ∧ d.msg.futureId = f := by
  obtain ⟨n,hn,hnf⟩ := hm
  by_cases hba : b = a
  · subst hba
    rw [hq] at hn
    rcases mem_cons.mp hn with rfl | hn
    · exact .inr ⟨rfl,hnf⟩
    · exact .inl ⟨n,by simpa [AskSys.setMailbox] using hn,hnf⟩
  · exact .inl ⟨n,mem_setMailbox_of hn (fun h0 => absurd h0 hba),hnf⟩

section

variable (h : AskInv s)

include h

theorem AskInv.dequeue (hx : s.workers[w]? = some .free)
    (hno : ∀ z ∈ s.workers,z.actor ≠ some a) (hsaved : s.saved a = false)
    (hq : s.mailbox a = ⟨m,o,true⟩ :: rest) :
    AskInv ((s.setMailbox a rest).setWorker w (.dequeued a m)) := by
  refine ⟨h.zero,h.returned,h.table,fun b d hd => h.known_pop hq hd,h.named,
    fun j b m' hj => h.linking_pop hq hj,h.sole.set hx ?_,forall_mem_set h.unsaved ?_,
    forall_mem_set (fun z hz => ?_) trivial,fun f b hf hp => ?_⟩
  · intro b hb
    cases hb
    exact .inr hno
  · intro b hb
    cases hb
    exact hsaved
  · exact visited_setMailbox_of_ne (h.visited z hz) (fun hc => hno z hz (actor_of_crashing hc))
  · rcases h.located f b hf hp with hm | ⟨hpid,hs | he⟩ | hc
    · rcases mem_pop hq hm with hm | ⟨rfl,hmf⟩
      · exact .inl hm
      · exact .inr (.inr ⟨_,mem_set_new hx,rfl,hmf⟩)
    · exact .inr (.inl ⟨hpid,.inl hs⟩)
    · exact .inr (.inl ⟨hpid,.inr (exists_mem_set hx he (fun h0 => by cases h0))⟩)
    · exact .inr (.inr (exists_mem_set hx hc (fun h0 => h0.elim)))

theorem AskInv.begin (hx : s.workers[w]? = some (.dequeued a m)) :
    AskInv { s.setWorker w (.execute a) with
      pendingFutureId := update s.pendingFutureId a m.futureId } := by
  have hmem := mem_of_getElem? hx
  refine ⟨h.zero,h.returned,h.table,h.known,h.named,h.linking,
    h.sole.set hx (fun b hb => .inl hb),forall_mem_set h.unsaved (fun b hb => h.unsaved _ hmem b hb),
    forall_mem_set h.visited trivial,fun f b hf hp => ?_⟩
  rcases h.located f b hf hp with hm | ⟨hpid,hsx⟩ | hc
  · exact .inl hm
  · have hba : b ≠ a := by
      rintro rfl
      rcases hsx with hs | ⟨z,hz,rfl⟩
      · simp [h.unsaved _ hmem b rfl] at hs
      · cases h.only hx rfl hz rfl
    refine .inr (.inl ⟨(update_of_ne hba ..).trans hpid,hsx.imp_right (fun he => ?_)⟩)
    exact exists_mem_set hx he (fun h0 => by cases h0)
  · by_cases hown : a = b ∧ m.futureId = f
    · obtain ⟨rfl,rfl⟩ := hown
      exact .inr (.inl ⟨update_self ..,.inr ⟨_,mem_set_new hx,rfl⟩⟩)
    · exact .inr (.inr (exists_mem_set hx hc (fun h0 => absurd h0 hown)))

theorem AskInv.preempt (hx : s.workers[w]? = some (.execute a)) :
    AskInv { s.setWorker w .free with saved := update s.saved a true } := by
  refine ⟨h.zero,h.returned,h.table,h.known,h.named,h.linking,
    h.sole.set hx (fun b hb => by cases hb),fun z hz b hb => ?_,
    forall_mem_set h.visited trivial,fun f b hf hp => ?_⟩
  · obtain ⟨v,hv⟩ := mem_iff_getElem?.mp hz
    have hwv : w ≠ v := by
      rintro rfl
      rw [eq_of_getElem?_set hv] at hb
      cases hb
    simp only [AskSys.setWorker,getElem?_set_ne hwv] at hv
    have hba : b ≠ a := by
      rintro rfl
      exact hwv (h.sole w v _ z b hx hv rfl hb)
    exact (update_of_ne hba ..).trans (h.unsaved z (mem_of_getElem? hv) b hb)
  · rcases h.located f b hf hp with hm | ⟨hpid,hsx⟩ | hc
    · exact .inl hm
    · by_cases hba : b = a
      · subst hba
        exact .inr (.inl ⟨hpid,.inl (update_self ..)⟩)
      · refine .inr (.inl ⟨hpid,hsx.imp (update_of_ne hba ..).trans (fun he => ?_)⟩)
        exact exists_mem_set hx he (fun h0 => absurd (ProcPc.execute.inj h0).symm hba)
    · exact .inr (.inr (exists_mem_set hx hc (fun h0 => h0.elim)))

theorem AskInv.finish (hx : s.workers[w]? = some (.execute a))
    (hy : y = .crash a (s.pendingFutureId a) ∨ y = .reply a (s.pendingFutureId a)) :
    AskInv { s.setWorker w y with
      pendingFutureId := update s.pendingFutureId a 0 } := by
  have hmem := mem_of_getElem? hx
  have hactor : y.actor = some a := by rcases hy with rfl | rfl <;> rfl
  have hvis : Visited s y := by rcases hy with rfl | rfl <;> trivial
  have hcarry : y.carries a (s.pendingFutureId a) := by rcases hy with rfl | rfl <;> exact ⟨rfl,rfl⟩
  refine ⟨h.zero,h.returned,h.table,h.known,h.named,h.linking,
    h.sole.set hx (fun b hb => .inl (hactor.symm.trans hb)),
    forall_mem_set h.unsaved (fun b hb => h.unsaved _ hmem b (hactor.symm.trans hb)),
    forall_mem_set h.visited hvis,fun f b hf hp => ?_⟩
  rcases h.located f b hf hp with hm | ⟨hpid,hsx⟩ | hc
  · exact .inl hm
  · by_cases hba : b = a
    · subst hba hpid
      exact .inr (.inr ⟨y,mem_set_new hx,hcarry⟩)
    · refine .inr (.inl ⟨(update_of_ne hba ..).trans hpid,hsx.imp_right (fun he => ?_)⟩)
      exact exists_mem_set hx he (fun h0 => absurd (ProcPc.execute.inj h0).symm hba)
  · exact .inr (.inr (exists_mem_set hx hc (fun h0 => h0.elim)))

theorem AskInv.asked_of_target (hf : s.target f = some a) :
    s.asked f = true ∧ f ≠ 0 := by
  have hasked := h.returned f a hf
  refine ⟨hasked,?_⟩
  rintro rfl
  simp [h.zero] at hasked

theorem AskInv.discard (hx : s.workers[w]? = some (.dequeued a m))
    (h0 : m.futureId = 0) : AskInv (s.setWorker w .free) :=
  h.setWorker hx (.inl rfl) trivial (fun f b hf _ hloc =>
    hloc.setWorker hx (by simp) (fun hc => (h.asked_of_target hf).2 (hc.2.symm.trans h0)))

theorem AskInv.reply (hx : s.workers[w]? = some (.reply a f)) :
    AskInv ((s.routeReply f true).setWorker w .free) := by
  have hst := routeReply_settles (s := s) (f := f)
  have hx' : (s.routeReply f true).workers[w]? = some (.reply a f) := by rwa [hst.eq]
  refine (h.settles hst).setWorker hx' (.inl rfl) trivial (fun g b hg hp hloc => ?_)
  refine hloc.setWorker hx' (by simp) ?_
  rintro ⟨rfl,rfl⟩
  rw [hst.eq] at hg
  exact routeReply_settled h (h.asked_of_target hg).1 hp

theorem AskInv.failCurrent (hx : s.workers[w]? = some (.crash a f)) :
    AskInv ((s.failForCrash f true).setWorker w (.walk a 0)) := by
  have hst := failForCrash_settles (s := s) (f := f)
  have hx' : (s.failForCrash f true).workers[w]? = some (.crash a f) := by rwa [hst.eq]
  refine (h.settles hst).setWorker hx' (.inr rfl) ⟨Nat.zero_le _,by simp⟩ (fun g b hg hp hloc => ?_)
  refine hloc.setWorker hx' (by simp) ?_
  rintro ⟨rfl,rfl⟩
  rw [hst.eq] at hg
  exact failForCrash_settled h (h.asked_of_target hg).1 hp

end

/-! ### Crashing -/

theorem AskInv.visit (h : AskInv s) (hx : s.workers[w]? = some (.walk a n))
    (hn : (s.mailbox a)[n]? = some ⟨m,o,true⟩) :
    AskInv ((s.failForCrash m.futureId true).setWorker w (.walk a (n + 1))) := by
  have hst := failForCrash_settles (s := s) (f := m.futureId)
  have h' := h.settles hst
  have hx' : (s.failForCrash m.futureId true).workers[w]? = some (.walk a n) := by rwa [hst.eq]
  have hn' : ((s.failForCrash m.futureId true).mailbox a)[n]? = some ⟨m,o,true⟩ := by
    rwa [hst.eq]
  refine h'.setWorker hx' (.inr rfl) ⟨?_,fun d hd => ?_⟩
    (fun g b hg hp hloc => hloc.setWorker hx' (by simp) (fun hc => hc.elim))
  · exact (List.getElem?_eq_some_iff.mp hn').1
  · rw [take_add_one,hn',mem_append] at hd
    rcases hd with hd | hd
    · exact (h'.visited _ (mem_of_getElem? hx')).2 d hd
    · obtain rfl := mem_singleton.mp hd
      refine ⟨rfl,(h.known a _ (mem_of_getElem? hn)).imp_right (fun hk => ?_)⟩
      exact failForCrash_settled h hk

theorem mem_take_of_mem_takeWhile {α : Type} {p : α → Bool} {l : List α} {d : α}
    (hn : ∀ x,l[n]? = some x → p x = false) (hd : d ∈ l.takeWhile p) : d ∈ l.take n := by
  induction l generalizing n with
  | nil => simp at hd
  | cons z l ih =>
    cases n with
    | zero =>
      rw [takeWhile_cons,hn z (by simp)] at hd
      simp at hd
    | succ n =>
      rw [takeWhile_cons] at hd
      split at hd
      · rw [take_succ_cons,mem_cons]
        exact (mem_cons.mp hd).imp_right (ih (fun x hx => hn x (by simpa using hx)))
      · simp at hd

theorem AskInv.endVisits (h : AskInv s) (hx : s.workers[w]? = some (.walk a n))
    (hn : ∀ d,(s.mailbox a)[n]? = some d → d.linked = false) :
    AskInv (s.setWorker w (.walked a)) := by
  refine h.setWorker hx (.inr rfl) (fun d hd => ?_)
    (fun g b hg hp hloc => hloc.setWorker hx (by simp) (fun hc => hc.elim))
  exact ((h.visited _ (mem_of_getElem? hx)).2 d (mem_take_of_mem_takeWhile hn hd)).2

theorem AskInv.endWalk (h : AskInv s) {state : Nat → ActorState}
    (hx : s.workers[w]? = some (.walked a)) :
    AskInv { s.setWorker w (.drain a) with state := state } := by
  have hvis : Visited s (.walked a) := h.visited _ (mem_of_getElem? hx)
  have h' := h.setWorker (y := .drain a) hx (.inr rfl) hvis
    (fun g b hg hp hloc => hloc.setWorker hx (by simp) (fun hc => hc.elim))
  exact ⟨h'.zero,h'.returned,h'.table,h'.known,h'.named,h'.linking,h'.sole,h'.unsaved,
    h'.visited,h'.located⟩

theorem AskInv.drain (h : AskInv s) (hx : s.workers[w]? = some (.drain a))
    (hq : s.mailbox a = ⟨m,o,true⟩ :: rest) :
    AskInv (s.setMailbox a rest) := by
  have hvis := h.visited _ (mem_of_getElem? hx)
  simp only [Visited,hq,takeWhile_cons,if_true] at hvis
  refine ⟨h.zero,h.returned,h.table,fun b d hd => h.known_pop hq hd,h.named,
    fun j b m' hj => h.linking_pop hq hj,h.sole,h.unsaved,fun z hz => ?_,fun f b hf hp => ?_⟩
  · by_cases hza : z.crashing = some a
    · obtain rfl := h.only hx rfl hz (actor_of_crashing hza)
      simp only [Visited,AskSys.setMailbox,update_self]
      exact fun d hd => hvis d (mem_cons_of_mem _ hd)
    · exact visited_setMailbox_of_ne (h.visited z hz) hza
  · rcases h.located f b hf hp with hm | hrest
    · rcases mem_pop hq hm with hm | ⟨-,rfl⟩
      · exact .inl hm
      · exfalso
        rcases hvis _ (mem_cons_self ..) with h0 | hne
        · exact (h.asked_of_target hf).2 h0
        · exact hne hp
    · exact .inr hrest

theorem AskInv.destroy (h : AskInv s) (hworkers : ∀ x ∈ s.workers,x.actor ≠ some a)
    (haskers : ∀ p ∈ s.askers,p.actor ≠ some a)
    (hmail : ∀ n ∈ s.mailbox a,n.msg.futureId = 0)
    (hsaved : s.saved a = true → s.pendingFutureId a = 0) :
    AskInv { s.setMailbox a [] with
      saved := update s.saved a false
      pendingFutureId := update s.pendingFutureId a 0 } := by
  refine ⟨h.zero,h.returned,h.table,fun b d hd => ?_,h.named,fun j b m hj => ?_,h.sole,
    fun x hx b hb => ?_,fun x hx => ?_,fun f b hf hp => ?_⟩
  · rcases mem_setMailbox hd with ⟨-,hd⟩ | ⟨-,hd⟩
    · cases hd
    · exact h.known b d hd
  · obtain ⟨d,hd,hrest⟩ := h.linking j b m hj
    refine ⟨d,mem_setMailbox_of hd (fun hba => ?_),hrest⟩
    subst hba
    exact absurd rfl (haskers _ (mem_of_getElem? hj))
  · by_cases hba : b = a
    · subst hba
      exact update_self ..
    · exact (update_of_ne hba ..).trans (h.unsaved x hx b hb)
  · exact visited_setMailbox_of_ne (h.visited x hx) (fun hc => hworkers x hx (actor_of_crashing hc))
  · have hne := (h.asked_of_target hf).2
    by_cases hba : b = a
    · subst hba
      exfalso
      rcases h.located f b hf hp with ⟨d,hd,rfl⟩ | ⟨rfl,hs | ⟨x,hx,rfl⟩⟩ | ⟨x,hx,hc⟩
      · exact hne (hmail d hd)
      · exact hne (hsaved hs)
      · exact hworkers _ hx rfl
      · refine hworkers x hx ?_
        cases x <;> first | exact hc.elim | (rw [← hc.1]; rfl)
    · rcases h.located f b hf hp with ⟨d,hd,hdf⟩ | ⟨hpid,hsx⟩ | hc
      · exact .inl ⟨d,mem_setMailbox_of hd (fun h0 => absurd h0 hba),hdf⟩
      · exact .inr (.inl ⟨(update_of_ne hba ..).trans hpid,
          hsx.imp_left (update_of_ne hba ..).trans⟩)
      · exact .inr (.inr hc)

/-! ### Whole runs -/

theorem AskInv.setState (h : AskInv s) (state : Nat → ActorState) (registered : Nat → Bool) :
    AskInv { s with state := state,registered := registered } :=
  ⟨h.zero,h.returned,h.table,h.known,h.named,h.linking,h.sole,h.unsaved,h.visited,h.located⟩

theorem AskInv.failAsk (h : AskInv s) : AskInv (if f = 0 then s.setAsker i .idle
      else ((s.settle f .failed).unregister f).setAsker i .idle) := by
  split
  · exact h.setAsker trivial (by simp)
  · exact (h.settles (settles_unregister (by simp))).setAsker trivial (by simp)

variable {B : Behaviors}

theorem AskInv.step (h : AskInv s) {e : AskEvent} (hok : askOk B s e)
    (hs : askStep B s e = some t) : AskInv t := by
  cases e with
  | ask i a f selector =>
    simp only [askStep] at hs
    repeat' split at hs
    all_goals cases hs
    exact h.ask (m := ⟨f,selector⟩) hok.1 hok.2
  | send i a selector =>
    simp only [askStep] at hs
    repeat' split at hs
    all_goals cases hs
    exact h.setAsker (.inl rfl) (by simp)
  | refuse i =>
    simp only [askStep] at hs
    split at hs <;> cases hs
    exact h.setAsker trivial (by simp)
  | exchange i =>
    simp only [askStep] at hs
    split at hs <;> cases hs
    exact h.exchange ‹_›
  | link i =>
    simp only [askStep] at hs
    split at hs <;> cases hs
    rename_i a m hi
    simp only [askOk,hi] at hok
    exact h.link hi hok
  | failAsk i ok =>
    simp only [askStep] at hs
    split at hs <;> cases hs
    obtain rfl : ok = true := hok
    exact h.failAsk
  | start w a =>
    simp only [askStep] at hs
    split at hs
    · rename_i hx
      split at hs
      · cases hs
        exact h.resume hx hok
      · rename_i hsaved
        split at hs <;> cases hs
        · exact h.dequeue hx hok (Bool.eq_false_iff.mpr hsaved) ‹_›
        · exact h
    · cases hs
  | dispatch w =>
    simp only [askStep] at hs
    split at hs
    · rename_i a m hx
      split at hs
      · cases hs
        exact h.begin hx
      · rename_i hruns
        cases hs
        simp only [askOk,hx] at hok
        exact h.discard hx (by_contra fun h0 => hruns (hok h0))
    · cases hs
  | preempt w =>
    simp only [askStep] at hs
    split at hs <;> cases hs
    exact h.preempt ‹_›
  | raise w =>
    simp only [askStep] at hs
    split at hs <;> cases hs
    exact h.finish ‹_› (.inl rfl)
  | complete w =>
    simp only [askStep] at hs
    split at hs <;> cases hs
    exact h.finish ‹_› (.inr rfl)
  | reply w ok =>
    simp only [askStep] at hs
    split at hs <;> cases hs
    obtain rfl : ok = true := hok
    exact h.reply ‹_›
  | failCurrent w ok =>
    simp only [askStep] at hs
    split at hs <;> cases hs
    obtain rfl : ok = true := hok
    exact h.failCurrent ‹_›
  | visit w ok =>
    simp only [askStep] at hs
    split at hs
    · rename_i a n hx
      obtain rfl : ok = true := hok
      split at hs
      · cases hs
        exact h.visit hx ‹_›
      · rename_i hnot
        cases hs
        refine h.endVisits hx (fun d hd => Bool.eq_false_iff.mpr (fun hl => ?_))
        obtain ⟨m,o,linked⟩ := d
        subst hl
        exact hnot m o hd
    · cases hs
  | endWalk w =>
    simp only [askStep] at hs
    split at hs <;> cases hs
    exact h.endWalk ‹_›
  | drain w =>
    simp only [askStep] at hs
    split at hs
    · rename_i a hx
      split at hs <;> cases hs
      · exact h.drain hx ‹_›
      · exact h.setWorker hx (.inl rfl) trivial
          (fun g b hg hp hloc => hloc.setWorker hx (by simp) (fun hc => hc.elim))
    · cases hs
  | store a st | terminate a =>
    cases hs
    exact h.setState _ _
  | destroy a =>
    simp only [askStep] at hs
    split at hs <;> cases hs
    obtain ⟨hworkers,haskers,hmail,hsaved⟩ := hok
    exact h.destroy hworkers haskers hmail hsaved

def oneSelector : Behaviors := ⟨fun _ => false,fun _ selector => selector == 1,9⟩

def quietActors : AskSys where
  state := fun _ => .suspended
  registered := fun _ => true
  mailbox := fun _ => []
  saved := fun _ => false
  pendingFutureId := fun _ => 0
  future := fun _ => .pending
  table := fun _ => false
  asked := fun _ => false
  target := fun _ => none
  askers := [.idle]
  workers := [.free]

theorem quietActors_started : AskStarted quietActors where
  asked := fun _ => rfl
  target := fun _ => rfl
  mailbox := fun _ _ h => by cases h
  askers := by decide
  workers := by decide

/-- Actor 2 is asked with the selector for future 1; the worker dispatches the message. -/
def askAndDispatch (selector : Nat) : List AskEvent :=
  [.ask 0 2 1 selector,.exchange 0,.link 0,.start 0 2,.dispatch 0]

end

end SmalltalkA
