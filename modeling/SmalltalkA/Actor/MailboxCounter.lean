import SmalltalkA.Actor.Mailbox

/-! The counter of a mailbox as callers read it: `STA_ERR_MAILBOX_FULL` and `sta_mailbox_is_empty`.
-/

set_option autoImplicit false

namespace SmalltalkA

open Interleaving Successor List

section

variable {M : Type}

/-- Messages that were enqueued and not yet dequeued. -/
def MailboxSys.waiting (s : MailboxSys M) : Nat := s.accepted.length - s.dequeued.length

/-- Calls counted besides: producers between increment and exchange or decrement, and the consumer
before its decrement. -/
def MailboxSys.inFlight (s : MailboxSys M) : Nat :=
  tally Producer.passed s.producers + tally Producer.refused s.producers + s.consumer.pending

/-- `sta_mailbox_is_empty`. -/
def MailboxSys.isEmpty (s : MailboxSys M) : Bool := s.count == 0

/-- The idle branch of `worker_thread_main`: the actor stays suspended when the mailbox is empty at
both tests. -/
def staysSuspended (test again : MailboxSys M) : Bool := test.isEmpty && again.isEmpty

variable {s s' : MailboxSys M} {i c n a : Nat} {m : M} {settled : List (M × Bool)}
  {e : MailboxEvent M}

theorem Within.count_mod (h : Within s) (hle : s.dequeued.length ≤ s.accepted.length) :
    s.count % 2 ^ 32 = (s.waiting + s.inFlight) % 2 ^ 32 := by
  have := h.counted
  unfold MailboxSys.waiting MailboxSys.inFlight
  omega

/-! ### Rejected calls -/

/-- The call with message `m` has its node and is about to increment the counter. -/
def MailboxSys.Testing (s : MailboxSys M) (i : Nat) (m : M) (a : Nat) (settled : List (M × Bool)) :
    Prop :=
  s.producers[i]? = some ⟨.check m a,settled⟩

/-- The call with message `m` has returned `STA_ERR_MAILBOX_FULL`. -/
def MailboxSys.Rejected (s : MailboxSys M) (i : Nat) (m : M) (settled : List (M × Bool)) : Prop :=
  s.producers[i]? = some ⟨.idle,settled ++ [(m,false)]⟩

/-- The call with message `m` has passed the test. -/
def MailboxSys.Took (s : MailboxSys M) (i : Nat) (m : M) (settled : List (M × Bool)) : Prop :=
  ∃ pc st,s.producers[i]? = some ⟨pc,st⟩ ∧ ((∃ a,st = settled ∧ (pc = .fill m a ∨
    pc = .exchange m a)) ∨ settled ++ [(m,true)] <+: st)

/-- Calls in flight do not fill the mailbox up at a test of the counter. -/
def undisturbed (s : MailboxSys M) : MailboxEvent M → Bool
  | .produce i =>
    match s.producers[i]? with
    | some ⟨.check _ _,_⟩ => s.waiting + s.inFlight < s.capacity || s.capacity ≤ s.waiting
    | _ => true
  | _ => true

/-- At most one producer changes in a step. -/
theorem producers_step (hs : mailboxStep s e = some s') : s'.capacity = s.capacity ∧
    (s'.producers = s.producers ∨
      ∃ j x y,s.producers[j]? = some x ∧ s'.producers = s.producers.set j y ∧
        x.settled <+: y.settled ∧ (x.pc = .idle ∨ e = .produce j)) := by
  cases e with
  | enqueue j m a =>
    simp only [mailboxStep] at hs
    split at hs
    · next st hj _ =>
      cases hs
      exact ⟨rfl,.inr ⟨j,_,_,hj,rfl,prefix_rfl,.inl rfl⟩⟩
    · cases hs
  | noMemory j m =>
    simp only [mailboxStep] at hs
    split at hs
    · next st hj =>
      cases hs
      exact ⟨rfl,.inr ⟨j,_,_,hj,rfl,prefix_append _ _,.inl rfl⟩⟩
    · cases hs
  | produce j =>
    obtain ⟨x,hj,hs⟩ := Option.bind_eq_some_iff.mp hs
    unfold producerStep at hs
    split at hs <;> cases hs <;> first
      | exact ⟨rfl,.inr ⟨j,x,_,hj,rfl,prefix_rfl,.inr rfl⟩⟩
      | exact ⟨rfl,.inr ⟨j,x,_,hj,rfl,prefix_append _ _,.inr rfl⟩⟩
  | dequeue =>
    simp only [mailboxStep] at hs
    split at hs <;> cases hs <;> exact ⟨rfl,.inl rfl⟩
  | consume =>
    simp only [mailboxStep,consumerStep] at hs
    split at hs <;> cases hs <;> exact ⟨rfl,.inl rfl⟩

/-- One step of a system, seen from producer `i`. -/
theorem producer_after (hs : mailboxStep s e = some s') {p : Producer M}
    (hi : s.producers[i]? = some p) : ∃ q,s'.producers[i]? = some q ∧ p.settled <+: q.settled ∧
      (q = p ∨ p.pc = .idle ∨ e = .produce i) := by
  rcases (producers_step hs).2 with heq | ⟨j,x,y,hj,heq,hle,hcase⟩
  · exact ⟨p,heq ▸ hi,prefix_rfl,.inl rfl⟩
  · rw [heq]
    by_cases hji : j = i
    · subst hji
      cases hj.symm.trans hi
      exact ⟨y,getElem?_set_self (List.getElem?_eq_some_iff.mp hi).1,hle,.inr hcase⟩
    · exact ⟨p,by rw [getElem?_set_ne hji,hi],prefix_rfl,.inl rfl⟩

theorem MailboxSys.Testing.step (h : s.Testing i m a settled) (hs : mailboxStep s e = some s') :
    s'.Testing i m a settled ∨ e = .produce i ∧ (s.capacity ≤ s.count ∨ s'.Took i m settled) := by
  obtain ⟨q,hq,-,rfl | hidle | rfl⟩ := producer_after hs h
  · exact .inl hq
  · cases hidle
  · refine .inr ⟨rfl,?_⟩
    rw [produce_eq h] at hs
    by_cases hfull : s.capacity ≤ s.count
    · exact .inl hfull
    · have hlt := (List.getElem?_eq_some_iff.mp h).1
      simp only [producerStep,hfull,if_false] at hs
      cases hs
      exact .inr ⟨_,_,getElem?_set_self hlt,.inl ⟨a,rfl,.inl rfl⟩⟩

theorem MailboxSys.Took.step (h : s.Took i m settled) (hs : mailboxStep s e = some s') :
    s'.Took i m settled := by
  obtain ⟨pc,st,hi,⟨a,rfl,hpc⟩ | hle⟩ := h
  · obtain ⟨q,hq,-,rfl | rfl | rfl⟩ := producer_after hs hi
    · exact ⟨pc,st,hq,.inl ⟨a,rfl,hpc⟩⟩
    · rcases hpc with hpc | hpc <;> cases hpc
    · have hlt := (List.getElem?_eq_some_iff.mp hi).1
      rw [produce_eq hi] at hs
      rcases hpc with rfl | rfl <;> cases hs
      · exact ⟨_,_,getElem?_set_self hlt,.inl ⟨a,rfl,.inr rfl⟩⟩
      · exact ⟨_,_,getElem?_set_self hlt,.inr prefix_rfl⟩
  · obtain ⟨⟨pc',st'⟩,hi',hle',-⟩ := producer_after hs hi
    exact ⟨pc',st',hi',.inr (hle.trans hle')⟩

theorem MailboxSys.Took.not_rejected (h : s.Took i m settled) : ¬ s.Rejected i m settled := by
  intro hr
  obtain ⟨pc,st,hi,hcase⟩ := h
  cases hi.symm.trans hr
  rcases hcase with ⟨a,hst,-⟩ | hle
  · simpa using congrArg List.length hst
  · have := prefix_append_right_inj settled |>.mp hle
    simp at this

/-- Two successive states of a run whose steps all meet `ok`. -/
def Steps (ok : MailboxSys M → MailboxEvent M → Bool) (s s' : MailboxSys M) : Prop :=
  ∃ e,ok s e = true ∧ mailboxStep s e = some s'

/-- The states after `s` in a run. -/
def statesOf (ok : MailboxSys M → MailboxEvent M → Bool) :
    List (MailboxEvent M) → MailboxSys M → List (MailboxSys M)
  | [],_ => []
  | e :: es,s =>
    match ok s e,mailboxStep s e with
    | true,some s' => s' :: statesOf ok es s'
    | _,_ => []

theorem statesOf_chain (ok : MailboxSys M → MailboxEvent M → Bool) (es : List (MailboxEvent M))
    (s : MailboxSys M) : List.IsChain (Steps ok) (s :: statesOf ok es s) := by
  induction es generalizing s with
  | nil => exact .singleton _
  | cons e es ih =>
    unfold statesOf
    split
    · next s' hok hs => exact .cons_cons ⟨e,hok,hs⟩ (ih s')
    · exact .singleton _

/-- If the tests are undisturbed, a call that returns `STA_ERR_MAILBOX_FULL` saw the mailbox full at
some moment between its start in `s` and its return. -/
theorem rejected_call_saw_full (hc : 0 < c) (hroom : c + n ≤ 2 ^ 32) {later : List (MailboxSys M)}
    (hrun : Path mailboxStep (fun _ _ => True) (MailboxSys.init c n) s)
    (hcall : s.Testing i m a settled) (hlater : List.IsChain (Steps undisturbed) (s :: later))
    (hret : ((s :: later).getLast (cons_ne_nil _ _)).Rejected i m settled) :
    ∃ u ∈ s :: later,u.capacity ≤ u.waiting := by
  induction later generalizing s with
  | nil =>
    cases hcall.symm.trans hret
  | cons s₁ later ih =>
    rw [isChain_cons_cons] at hlater
    obtain ⟨⟨e,hok,hs⟩,hlater⟩ := hlater
    rw [getLast_cons (cons_ne_nil _ _)] at hret
    rcases hcall.step hs with hcall | ⟨rfl,hfull | htook⟩
    · obtain ⟨u,hu,hle⟩ := ih (hrun.tail trivial hs) hcall hlater hret
      exact ⟨u,mem_cons_of_mem _ hu,hle⟩
    · -- the counter has reached the capacity, and what it counts besides messages cannot be why
      obtain ⟨chain,hl⟩ := Chained.run hrun
      have hmod := (Within.run hc hroom hrun).count_mod hl.dequeued_le
      have hsmall := (Within.run hc hroom hrun).small
      refine ⟨s,mem_cons_self,?_⟩
      have hcap := (Within.run hc hroom hrun).room
      have htest : s.waiting + s.inFlight < s.capacity ∨ s.capacity ≤ s.waiting := by
        simpa [undisturbed,show s.producers[i]? = _ from hcall] using hok
      omega
    · have hlast : ∀ (us : List (MailboxSys M)) (u : MailboxSys M),u.Took i m settled →
          List.IsChain (Steps undisturbed) (u :: us) →
          ((u :: us).getLast (cons_ne_nil _ _)).Took i m settled := by
        intro us
        induction us with
        | nil => exact fun u hu _ => hu
        | cons v us ih =>
          intro u hu hus
          rw [isChain_cons_cons] at hus
          obtain ⟨⟨e,-,hs⟩,hus⟩ := hus
          rw [getLast_cons (cons_ne_nil _ _)]
          exact ih v (hu.step hs) hus
      exact absurd hret (hlast later s₁ htook hlater).not_rejected

/-- One place, with a message in it. -/
theorem rejected_call_saw_full_once : ∃ (s : MailboxSys Nat) (later : List (MailboxSys Nat)),
    ((s :: later).getLast (cons_ne_nil _ _)).Rejected 1 8 [] ∧
      ∃ u ∈ s :: later,u.capacity ≤ u.waiting := by
  have hpath : Path mailboxStep (fun _ _ => True) (MailboxSys.init 1 2 : MailboxSys Nat) _ :=
    runAll_path [.enqueue 0 7 1,.produce 0,.produce 0,.produce 0,.produce 0,.enqueue 1 8 2] rfl
  refine ⟨_,_,?_,rejected_call_saw_full (by decide) (by decide) hpath
    (show MailboxSys.Testing _ 1 8 2 [] from rfl) (statesOf_chain undisturbed [.produce 1,.produce 1] _) ?_⟩ <;> rfl

/-- One place. A message is taken while the second producer has not yet taken back its increment;
the third is refused though the mailbox is empty all the time. -/
theorem rejected_by_refused : ∃ (s : MailboxSys Nat) (later : List (MailboxSys Nat)),
    Path mailboxStep (fun _ _ => True) (MailboxSys.init 1 3) s ∧ s.Testing 2 9 3 [] ∧
      List.IsChain (Steps fun _ _ => true) (s :: later) ∧
      ((s :: later).getLast (cons_ne_nil _ _)).Rejected 2 9 [] ∧
      ∀ u ∈ s :: later,u.waiting < u.capacity :=
  ⟨_,_,runAll_path [.enqueue 0 7 1,.produce 0,.produce 0,.produce 0,.produce 0,.enqueue 1 8 2,
    .produce 1,.dequeue,.consume,.consume,.consume,.enqueue 2 9 3] rfl,rfl,
    statesOf_chain _ [.produce 2,.produce 2] _,rfl,by decide⟩

/-! ### Emptiness -/

theorem Chained.next_head {chain : List Nat} (h : Chained s chain) (hle : s.waiting = 0) :
    s.next s.head = none := by
  obtain ⟨rest,rfl⟩ := h.first_cons
  have hlen := congrArg List.length h.messages
  have hwait := hle
  simp only [tail_cons,length_append,length_map] at hlen
  unfold MailboxSys.waiting at hwait
  obtain rfl : rest = [] := length_eq_zero_iff.mp (by omega)
  have hlast : s.head = s.tail := by simpa using h.last
  rw [hlast]
  exact h.ends

theorem sizes_kept (hrun : Path mailboxStep (fun _ _ => True) (MailboxSys.init c n) s) :
    s.capacity = c ∧ s.producers.length = n := by
  refine hrun.invariant (I := fun s => s.capacity = c ∧ s.producers.length = n)
    ⟨rfl,by simp [MailboxSys.init]⟩ (fun s e s' h _ hs => ?_)
  obtain ⟨hcap,heq | ⟨j,x,y,-,heq,-⟩⟩ := producers_step hs
  · exact ⟨hcap.trans h.1,heq ▸ h.2⟩
  · exact ⟨hcap.trans h.1,by rw [heq,length_set,h.2]⟩

end

end SmalltalkA
