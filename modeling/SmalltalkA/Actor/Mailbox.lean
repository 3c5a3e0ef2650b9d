import SmalltalkA.Lib.Interleaving
import SmalltalkA.Lib.Successor
import SmalltalkA.Actor.State

/-! The mailbox (`mailbox.c`), one step for each atomic operation: producers enqueue, one consumer
dequeues. Nodes are addresses, which `malloc` may hand out again. -/

set_option autoImplicit false

namespace SmalltalkA

open Interleaving Successor List Function Option

/-- Where a producer is in `sta_mailbox_enqueue`. -/
inductive ProducerPc (M : Type) where
  | idle
  | check (msg : M) (node : Nat)
  | full (msg : M) (node : Nat)
  | fill (msg : M) (node : Nat)
  | exchange (msg : M) (node : Nat)
  | link (prev node : Nat)

/-- A producer with the messages of its calls, each with whether it was accepted. A call is settled
when it exchanges the tail or fails. -/
structure Producer (M : Type) where
  pc : ProducerPc M
  settled : List (M × Bool)

/-- Where the consumer is in `sta_mailbox_dequeue`. -/
inductive ConsumerPc where
  | idle
  | advance (next : Nat)
  | count (old : Nat)
  | free (old : Nat)
  deriving DecidableEq

/-- `STA_Mailbox` with its nodes and threads; `accepted` lists producer and message in the order of
the exchanges, `dequeued` what the consumer has taken. -/
structure MailboxSys (M : Type) where
  next : Nat → Option Nat
  msg : Nat → Option M
  live : Nat → Bool
  tail : Nat
  head : Nat
  count : Nat
  capacity : Nat
  producers : List (Producer M)
  consumer : ConsumerPc
  accepted : List (Nat × M)
  dequeued : List (Option M)

/-- `enqueue` and `noMemory` begin a call, with a node from `malloc` or without. -/
inductive MailboxEvent (M : Type) where
  | enqueue (i : Nat) (msg : M) (node : Nat)
  | noMemory (i : Nat) (msg : M)
  | produce (i : Nat)
  | dequeue
  | consume

section

variable {M : Type}

/-- `sta_mailbox_init`. -/
def MailboxSys.init (capacity producers : Nat) : MailboxSys M where
  next := fun _ => none
  msg := fun _ => none
  live := fun a => a == 0
  tail := 0
  head := 0
  count := 0
  capacity := capacity
  producers := List.replicate producers ⟨.idle,[]⟩
  consumer := .idle
  accepted := []
  dequeued := []

def MailboxSys.setProducer (s : MailboxSys M) (i : Nat) (p : Producer M) : MailboxSys M :=
  { s with producers := s.producers.set i p }

def producerStep (s : MailboxSys M) (i : Nat) (p : Producer M) : Option (MailboxSys M) :=
  match p.pc with
  | .idle => none
  | .check m a =>
    let pc := if s.capacity ≤ s.count then .full m a else .fill m a
    some { s.setProducer i ⟨pc,p.settled⟩ with count := inc32 s.count }
  | .full m a =>
    some { s.setProducer i ⟨.idle,p.settled ++ [(m,false)]⟩ with
      count := dec32 s.count
      live := update s.live a false }
  | .fill m a =>
    some { s.setProducer i ⟨.exchange m a,p.settled⟩ with
      msg := update s.msg a (some m)
      next := update s.next a none }
  | .exchange m a =>
    some { s.setProducer i ⟨.link s.tail a,p.settled ++ [(m,true)]⟩ with
      tail := a
      accepted := s.accepted ++ [(i,m)] }
  | .link prev a =>
    some { s.setProducer i ⟨.idle,p.settled⟩ with
      next := update s.next prev (some a) }

def consumerStep (s : MailboxSys M) : Option (MailboxSys M) :=
  match s.consumer with
  | .idle => none
  | .advance n =>
    some { s with
      msg := update s.msg n none
      head := n
      consumer := if 0 < s.capacity then .count s.head else .free s.head
      dequeued := s.dequeued ++ [s.msg n] }
  | .count old => some { s with count := dec32 s.count,consumer := .free old }
  | .free old => some { s with live := update s.live old false,consumer := .idle }

def mailboxStep (s : MailboxSys M) : MailboxEvent M → Option (MailboxSys M)
  | .enqueue i m a =>
    match s.producers[i]?,s.live a with
    | some ⟨.idle,settled⟩,false =>
      let pc := if 0 < s.capacity then .check m a else .fill m a
      some { s.setProducer i ⟨pc,settled⟩ with live := update s.live a true }
    | _,_ => none
  | .noMemory i m =>
    match s.producers[i]? with
    | some ⟨.idle,settled⟩ => some (s.setProducer i ⟨.idle,settled ++ [(m,false)]⟩)
    | _ => none
  | .produce i => (s.producers[i]?).bind (producerStep s i)
  | .dequeue =>
    match s.consumer,s.next s.head with
    | .idle,none => some s
    | .idle,some n => some { s with consumer := .advance n }
    | _,_ => none
  | .consume => consumerStep s

/-! ### The property -/

/-- The messages of producer `i` among those accepted. -/
def MailboxSys.acceptedFrom (s : MailboxSys M) (i : Nat) : List M :=
  (s.accepted.filter (fun x => x.1 == i)).map Prod.snd

/-- The consumer takes the accepted messages in the order of the exchanges; a producer's are those
of its calls that did not fail, in order; and where the consumer sees none though one is waiting, a
producer is about to link it. -/
structure MailboxSys.Fifo (s : MailboxSys M) : Prop where
  order : s.dequeued <+: s.accepted.map (fun x => some x.2)
  calls : ∀ i p,s.producers[i]? = some p →
    s.acceptedFrom i = (p.settled.filter Prod.snd).map Prod.fst
  gap : s.next s.head = none → s.dequeued.length < s.accepted.length →
    ∃ p ∈ s.producers,∃ n,p.pc = .link s.head n

def MailboxSys.Bounded (s : MailboxSys M) : Prop :=
  s.accepted.length ≤ s.dequeued.length + s.capacity

/-! ### The list of nodes -/

def Producer.holds (a : Nat) (p : Producer M) : Nat :=
  match p.pc with
  | .check _ n | .full _ n | .fill _ n | .exchange _ n => if n = a then 1 else 0
  | _ => 0

def Producer.linksFrom (a : Nat) (p : Producer M) : Nat :=
  match p.pc with
  | .link prev _ => if prev = a then 1 else 0
  | _ => 0

def ConsumerPc.holds (a : Nat) : ConsumerPc → Nat
  | .count n | .free n => if n = a then 1 else 0
  | _ => 0

/-- Who may still use node `a`. -/
def MailboxSys.holders (s : MailboxSys M) (chain : List Nat) (a : Nat) : Nat :=
  chain.count a + tally (Producer.holds a) s.producers + s.consumer.holds a

/-- The nodes from `head` to `tail`; between two neighbours the pointer is set or one producer is
about to set it. -/
structure Chained (s : MailboxSys M) (chain : List Nat) : Prop where
  held : ∀ a,s.holders chain a ≤ (s.live a).toNat
  first : chain.head? = some s.head
  last : chain.getLast? = some s.tail
  pairs : ∀ a b,Next chain a b →
    s.next a = some b ∧ tally (Producer.linksFrom a) s.producers = 0 ∨
      s.next a = none ∧ tally (Producer.linksFrom a) s.producers = 1
  ends : s.next s.tail = none
  links : ∀ p ∈ s.producers,∀ a b,p.pc = .link a b → Next chain a b
  filled : ∀ p ∈ s.producers,∀ m a,p.pc = .exchange m a → s.msg a = some m ∧ s.next a = none
  taking : ∀ n,s.consumer = .advance n → s.next s.head = some n
  messages : s.dequeued ++ chain.tail.map s.msg = s.accepted.map (fun x => some x.2)

variable {s s' : MailboxSys M} {chain : List Nat}

theorem Chained.nodup (h : Chained s chain) : chain.Nodup := by
  refine nodup_iff_count_le_one.mpr (fun a => ?_)
  have hheld := h.held a
  have hlive := Bool.toNat_le (s.live a)
  unfold MailboxSys.holders at hheld
  omega

variable {a i c n : Nat} {p : Producer M} {m : M} {e : MailboxEvent M}

theorem Chained.own_node (h : Chained s chain) (hi : s.producers[i]? = some p) (hp : p.holds a = 1) :
    a ∉ chain ∧ ∀ j q,s.producers[j]? = some q → j ≠ i → q.holds a = 0 := by
  have hheld := h.held a
  unfold MailboxSys.holders at hheld
  have hlive := Bool.toNat_le (s.live a)
  have htally := le_tally hi (Producer.holds a)
  refine ⟨fun hmem => ?_,fun j q hj hji => ?_⟩
  · have hcount := count_pos_iff.mpr hmem
    omega
  · have hboth := add_le_tally hi hj (Ne.symm hji) (Producer.holds a)
    omega

theorem Chained.filled_apart (h : Chained s chain) (p : Producer M) (hp : p ∈ s.producers) (m : M)
    (a : Nat) (hpc : p.pc = .exchange m a) : a ∉ chain := by
  obtain ⟨j,hj⟩ := mem_iff_getElem?.mp hp
  exact (h.own_node hj (by simp [Producer.holds,hpc])).1

theorem Chained.first_cons (h : Chained s chain) : ∃ rest,chain = s.head :: rest := by
  have hfirst := h.first
  cases chain with
  | nil => simp at hfirst
  | cons a rest => exact ⟨rest,by simpa using hfirst⟩

theorem Chained.tail_free (h : Chained s chain) :
    tally (Producer.linksFrom s.tail) s.producers = 0 := by
  by_contra hne
  obtain ⟨i,p,hi,hp⟩ := exists_of_tally_pos (Nat.pos_of_ne_zero hne)
  cases hpc : p.pc with
  | link prev n =>
    simp only [Producer.linksFrom,hpc] at hp
    split at hp
    · next heq =>
      have hnext := h.links p (mem_of_getElem? hi) prev n hpc
      exact hnext.ne_last h.nodup (heq ▸ h.last)
    · omega
  | _ => simp [Producer.linksFrom,hpc] at hp

/-- A producer that is neither before nor right after its exchange. -/
def Producer.Apart (p : Producer M) : Prop :=
  (∀ a b,p.pc ≠ .link a b) ∧ ∀ m a,p.pc ≠ .exchange m a

theorem linksFrom_eq_zero (hp : ∀ a b,p.pc ≠ .link a b) (a : Nat) : p.linksFrom a = 0 := by
  cases hpc : p.pc with
  | link prev n => exact absurd hpc (hp prev n)
  | _ => simp [Producer.linksFrom,hpc]

theorem Chained.quiet (h : Chained s chain) {x : Producer M} {live : Nat → Bool}
    (hi : s.producers[i]? = some x) (hx : ∀ a b,x.pc ≠ .link a b) (hp : p.Apart)
    (hheld : ∀ a,s.holders chain a + p.holds a ≤ x.holds a + (live a).toNat) :
    Chained { s.setProducer i p with live := live,count := c } chain := by
  obtain ⟨held,first,last,pairs,ends,links,filled,taking,messages⟩ := h
  have hlinks : ∀ a,tally (Producer.linksFrom a) (s.producers.set i p) =
      tally (Producer.linksFrom a) s.producers := fun a => by
    have hset := tally_set hi p (Producer.linksFrom a)
    rw [linksFrom_eq_zero hx,linksFrom_eq_zero hp.1] at hset
    omega
  refine ⟨fun a => ?_,first,last,fun a b hab => ?_,ends,?_,?_,taking,messages⟩
  · have hset := tally_set hi p (Producer.holds a)
    have := hheld a
    simp only [MailboxSys.holders,MailboxSys.setProducer] at this ⊢
    omega
  · simp only [MailboxSys.setProducer,hlinks a]
    exact pairs a b hab
  · exact forall_mem_set links (fun a b hpc => absurd hpc (hp.1 a b))
  · exact forall_mem_set filled (fun m a hpc => absurd hpc (hp.2 m a))

theorem Chained.consumes (h : Chained s chain) {pc : ConsumerPc} {live : Nat → Bool}
    (hheld : ∀ a,s.holders chain a + pc.holds a ≤ s.consumer.holds a + (live a).toNat)
    (htaking : ∀ n,pc = .advance n → s.next s.head = some n) :
    Chained { s with live := live,count := c,consumer := pc } chain := by
  obtain ⟨held,first,last,pairs,ends,links,filled,-,messages⟩ := h
  refine ⟨fun a => ?_,first,last,pairs,ends,links,filled,htaking,messages⟩
  have := hheld a
  simp only [MailboxSys.holders] at this ⊢
  omega

theorem le_toNat_free {live : Nat → Bool} {k b : Nat} (hk : k ≤ (live b).toNat) (a : Nat) :
    k ≤ (if a = b then 1 else 0) + (update live a false b).toNat := by
  by_cases hab : a = b
  · have := Bool.toNat_le (live b)
    rw [if_pos hab]
    omega
  · rw [if_neg hab,update_of_ne (Ne.symm hab)]
    omega

theorem Chained.enqueue (h : Chained s chain) (hs : mailboxStep s (.enqueue i m a) = some s') :
    Chained s' chain := by
  simp only [mailboxStep] at hs
  split at hs
  · next settled hi hlive =>
    cases hs
    refine h.quiet hi (fun _ _ => nofun) ?_ (fun b => ?_)
    · split <;> exact ⟨fun _ _ => nofun,fun _ _ => nofun⟩
    · have hheld := h.held b
      have hnew : Producer.holds b ⟨if 0 < s.capacity then .check m a else .fill m a,settled⟩ =
          if a = b then 1 else 0 := by
        split <;> rfl
      rw [hnew]
      by_cases hab : a = b
      · subst hab
        simp only [hlive,Bool.toNat_false] at hheld
        simp only [update_self,if_true,Bool.toNat_true]
        omega
      · simp only [update_of_ne (Ne.symm hab),hab,if_false]
        omega
  · cases hs

theorem Chained.noMemory (h : Chained s chain) (hs : mailboxStep s (.noMemory i m) = some s') :
    Chained s' chain := by
  simp only [mailboxStep] at hs
  split at hs
  · next settled hi =>
    cases hs
    refine h.quiet hi (fun _ _ => nofun) ⟨fun _ _ => nofun,fun _ _ => nofun⟩ (fun b => ?_)
    have := h.held b
    simp only [Producer.holds]
    omega
  · cases hs

theorem Chained.fill (h : Chained s chain) {settled : List (M × Bool)}
    (hi : s.producers[i]? = some ⟨.fill m a,settled⟩) :
    Chained { s.setProducer i ⟨.exchange m a,settled⟩ with
      msg := update s.msg a (some m)
      next := update s.next a none } chain := by
  obtain ⟨hnot,hother⟩ := h.own_node (a := a) hi (if_pos rfl)
  have hne : ∀ b ∈ chain,b ≠ a := fun b hb hba => hnot (hba ▸ hb)
  obtain ⟨held,first,last,pairs,ends,links,filled,taking,messages⟩ := h
  refine ⟨fun b => ?_,first,last,fun u v huv => ?_,?_,?_,?_,fun n hn => ?_,?_⟩
  · have hset := tally_set hi ⟨.exchange m a,settled⟩ (Producer.holds b)
    have := held b
    simp only [MailboxSys.holders,MailboxSys.setProducer,Producer.holds] at hset this ⊢
    omega
  · have hset := tally_set hi ⟨.exchange m a,settled⟩ (Producer.linksFrom u)
    simp only [Producer.linksFrom,Nat.add_zero] at hset
    simp only [MailboxSys.setProducer,update_of_ne (hne u huv.mem_left)]
    exact hset ▸ pairs u v huv
  · simp only [MailboxSys.setProducer]
    rw [update_of_ne (hne _ (mem_of_getLast? last))]
    exact ends
  · exact forall_mem_set links (fun _ _ => nofun)
  · refine forall_mem_set (fun z hz m' b hpc => ?_) (fun m' b hpc => ?_)
    · -- another producer that has filled its node has a node of its own
      obtain ⟨j,hj⟩ := mem_iff_getElem?.mp hz
      have hji : j ≠ i := fun heq => by
        rw [heq,hi,some.injEq] at hj
        simp [← hj] at hpc
      have hba : b ≠ a := fun heq => by
        have := hother j z hj hji
        simp [Producer.holds,hpc,heq] at this
      simp only [update_of_ne hba]
      exact filled z hz m' b hpc
    · simp only [ProducerPc.exchange.injEq] at hpc
      obtain ⟨rfl,rfl⟩ := hpc
      exact ⟨update_self ..,update_self ..⟩
  · simp only [MailboxSys.setProducer]
    rw [update_of_ne (hne _ (mem_of_mem_head? first))]
    exact taking n hn
  · have hmap : chain.tail.map (update s.msg a (some m)) = chain.tail.map s.msg :=
      map_congr_left (fun b hb => update_of_ne (hne b (mem_of_mem_tail hb)) ..)
    simp only [MailboxSys.setProducer,hmap]
    exact messages

theorem Chained.exchange (h : Chained s chain) {settled : List (M × Bool)}
    (hi : s.producers[i]? = some ⟨.exchange m a,settled⟩) :
    Chained { s.setProducer i ⟨.link s.tail a,settled ++ [(m,true)]⟩ with
      tail := a
      accepted := s.accepted ++ [(i,m)] } (chain ++ [a]) := by
  have hfree := h.tail_free
  have hnodup := h.nodup
  obtain ⟨rest,hrest⟩ := h.first_cons
  obtain ⟨held,first,last,pairs,ends,links,filled,taking,messages⟩ := h
  obtain ⟨hmsg,hnull⟩ := filled _ (mem_of_getElem? hi) m a rfl
  have hlinks : ∀ b,tally (Producer.linksFrom b)
      (s.producers.set i ⟨.link s.tail a,settled ++ [(m,true)]⟩) =
      tally (Producer.linksFrom b) s.producers + if s.tail = b then 1 else 0 := fun b => by
    have hset := tally_set hi ⟨.link s.tail a,settled ++ [(m,true)]⟩ (Producer.linksFrom b)
    simpa only [Producer.linksFrom,Nat.add_zero] using hset
  refine ⟨fun b => ?_,?_,by simp,fun u v huv => ?_,hnull,?_,?_,taking,?_⟩
  · have hset := tally_set hi ⟨.link s.tail a,settled ++ [(m,true)]⟩ (Producer.holds b)
    have := held b
    simp only [MailboxSys.holders,MailboxSys.setProducer,Producer.holds,count_append,
      count_singleton,beq_iff_eq] at hset this ⊢
    omega
  · simp [hrest,MailboxSys.setProducer]
  · simp only [MailboxSys.setProducer,hlinks]
    rcases next_concat huv with ⟨hu,rfl⟩ | huv
    · cases last.symm.trans hu
      exact .inr ⟨ends,by simp [hfree]⟩
    · have hut : s.tail ≠ u := fun heq => huv.ne_last hnodup (heq ▸ last)
      simp only [hut,if_false,Nat.add_zero]
      exact pairs u v huv
  · refine forall_mem_set (fun z hz u v hpc => (links z hz u v hpc).append [a]) (fun u v hpc => ?_)
    simp only [ProducerPc.link.injEq] at hpc
    obtain ⟨rfl,rfl⟩ := hpc
    exact next_last last a
  · exact forall_mem_set filled (fun _ _ => nofun)
  · have htail : (chain ++ [a]).tail = chain.tail ++ [a] := by simp [hrest]
    simp only [MailboxSys.setProducer,htail,map_append,← messages,append_assoc]
    simp [hmsg]

theorem Chained.link (h : Chained s chain) {i : Nat} {u v : Nat} {settled : List (M × Bool)}
    (hi : s.producers[i]? = some ⟨.link u v,settled⟩) :
    Chained { s.setProducer i ⟨.idle,settled⟩ with
      next := update s.next u (some v) } chain := by
  have hnodup := h.nodup
  have hown := h.filled_apart
  obtain ⟨held,first,last,pairs,ends,links,filled,taking,messages⟩ := h
  have huv := links _ (mem_of_getElem? hi) u v rfl
  have hone := le_tally hi (Producer.linksFrom u)
  simp only [Producer.linksFrom,if_true] at hone
  have hlinks : ∀ b,tally (Producer.linksFrom b) (s.producers.set i ⟨.idle,settled⟩) +
      (if u = b then 1 else 0) = tally (Producer.linksFrom b) s.producers := fun b => by
    have hset := tally_set hi ⟨.idle,settled⟩ (Producer.linksFrom b)
    simpa only [Producer.linksFrom,Nat.add_zero] using hset
  have hnull : s.next u = none ∧ tally (Producer.linksFrom u) s.producers = 1 := by
    rcases pairs u v huv with hset | hnull
    · omega
    · exact hnull
  refine ⟨fun b => ?_,first,last,fun x y hxy => ?_,?_,?_,?_,fun n hn => ?_,messages⟩
  · have hset := tally_set hi ⟨.idle,settled⟩ (Producer.holds b)
    have := held b
    simp only [MailboxSys.holders,MailboxSys.setProducer,Producer.holds] at hset this ⊢
    omega
  · have hl := hlinks x
    by_cases hxu : u = x
    · subst hxu
      obtain rfl := huv.unique hnodup hxy
      refine .inl ⟨update_self ..,?_⟩
      simp only [MailboxSys.setProducer]
      simp only [if_true] at hl
      omega
    · simp only [if_neg hxu,Nat.add_zero] at hl
      simp only [MailboxSys.setProducer,update_of_ne (Ne.symm hxu),hl]
      exact pairs x y hxy
  · have htail : s.tail ≠ u := fun heq => huv.ne_last hnodup (heq ▸ last)
    simp only [MailboxSys.setProducer,update_of_ne htail]
    exact ends
  · exact forall_mem_set links (fun _ _ => nofun)
  · refine forall_mem_set (fun z hz m a hpc => ?_) (fun _ _ => nofun)
    have hau : a ≠ u := fun heq => hown z hz m a hpc (heq ▸ huv.mem_left)
    simp only [MailboxSys.setProducer,update_of_ne hau]
    exact filled z hz m a hpc
  · have hn := taking n hn
    have hhead : s.head ≠ u := fun heq => by
      rw [heq,hnull.1] at hn
      cases hn
    simp only [MailboxSys.setProducer,update_of_ne hhead]
    exact hn

theorem Chained.advance (h : Chained s chain) (hn : s.consumer = .advance n) {pc : ConsumerPc}
    (hpc : pc = .count s.head ∨ pc = .free s.head) :
    Chained { s with
      msg := update s.msg n none
      head := n
      consumer := pc
      dequeued := s.dequeued ++ [s.msg n] } chain.tail := by
  have hnodup := h.nodup
  have hown := h.filled_apart
  obtain ⟨rest,hrest⟩ := h.first_cons
  obtain ⟨held,first,last,pairs,ends,links,filled,taking,messages⟩ := h
  have hnext := taking n hn
  subst hrest
  -- the pointer that is set leads to the second node
  obtain ⟨rest,rfl⟩ : ∃ rest',rest = n :: rest' := by
    cases rest with
    | nil =>
      have hsame : s.head = s.tail := by simpa using last
      rw [hsame,ends] at hnext
      cases hnext
    | cons b rest =>
      rcases pairs s.head b ⟨[],rest,rfl⟩ with hb | hb
      · exact ⟨rest,by rw [Option.some.inj (hb.1.symm.trans hnext)]⟩
      · rw [hb.1] at hnext
        cases hnext
  have hzero : tally (Producer.linksFrom s.head) s.producers = 0 := by
    rcases pairs s.head n ⟨[],rest,rfl⟩ with hb | hb
    · exact hb.2
    · rw [hb.1] at hnext
      cases hnext
  have hnrest : n ∉ rest := (nodup_cons.mp (nodup_cons.mp hnodup).2).1
  refine ⟨fun b => ?_,rfl,?_,fun x y hxy => pairs x y (hxy.cons _),ends,fun z hz x y hz' => ?_,
    fun z hz m a hz' => ?_,fun k hk => ?_,?_⟩
  · have hheld := held b
    have hpcb : pc.holds b = if s.head = b then 1 else 0 := by
      rcases hpc with rfl | rfl <;> rfl
    simp only [MailboxSys.holders,hn,count_cons,tail_cons,hpcb,beq_iff_eq] at hheld ⊢
    simp only [ConsumerPc.holds] at hheld
    omega
  · simpa using last
  · rcases next_cons (links z hz x y hz') with ⟨rfl,-⟩ | hxy
    · obtain ⟨j,hj⟩ := mem_iff_getElem?.mp hz
      have := le_tally hj (Producer.linksFrom s.head)
      simp [Producer.linksFrom,hz',hzero] at this
    · exact hxy
  · have han : a ≠ n := fun heq => hown z hz m a hz' (by simp [heq])
    simp only [update_of_ne han]
    exact filled z hz m a hz'
  · rcases hpc with rfl | rfl <;> cases hk
  · have hmap : rest.map (update s.msg n none) = rest.map s.msg :=
      map_congr_left (fun b hb => update_of_ne (ne_of_mem_of_not_mem hb hnrest) ..)
    simp only [tail_cons,map_cons] at messages
    simp only [tail_cons,hmap,← messages,append_assoc,singleton_append]

/-- An exchange makes the list of nodes longer, an advance drops its first node. -/
theorem Chained.step (h : Chained s chain) (hs : mailboxStep s e = some s') :
    ∃ chain',Chained s' chain' := by
  cases e with
  | enqueue i m a => exact ⟨chain,h.enqueue hs⟩
  | noMemory i m => exact ⟨chain,h.noMemory hs⟩
  | produce i =>
    simp only [mailboxStep,bind_eq_some_iff] at hs
    obtain ⟨⟨pc,settled⟩,hi,hs⟩ := hs
    cases pc with
    | idle => cases hs
    | check m a =>
      cases hs
      refine ⟨chain,h.quiet hi (fun _ _ => nofun) ?_ (fun b => ?_)⟩
      · split <;> exact ⟨fun _ _ => nofun,fun _ _ => nofun⟩
      · have hheld := h.held b
        have hsame : Producer.holds b ⟨if s.capacity ≤ s.count then .full m a else .fill m a,
            settled⟩ = Producer.holds b ⟨.check m a,settled⟩ := by
          split <;> rfl
        rw [hsame]
        simp only [MailboxSys.setProducer]
        omega
    | full m a =>
      cases hs
      exact ⟨chain,h.quiet (c := dec32 s.count) hi (fun _ _ => nofun)
        ⟨fun _ _ => nofun,fun _ _ => nofun⟩ (fun b => le_toNat_free (h.held b) a)⟩
    | fill m a =>
      cases hs
      exact ⟨chain,h.fill hi⟩
    | exchange m a =>
      cases hs
      exact ⟨chain ++ [a],h.exchange hi⟩
    | link u v =>
      cases hs
      exact ⟨chain,h.link hi⟩
  | dequeue =>
    simp only [mailboxStep] at hs
    split at hs
    · cases hs
      exact ⟨chain,h⟩
    · next n hidle hn =>
      cases hs
      refine ⟨chain,h.consumes (c := s.count) (fun b => ?_) (fun k hk => ?_)⟩
      · rw [hidle]
        exact (h.held b).trans (Nat.le_add_left ..)
      · cases hk
        exact hn
    · cases hs
  | consume =>
    simp only [mailboxStep,consumerStep] at hs
    split at hs
    · cases hs
    · next n hn =>
      cases hs
      refine ⟨chain.tail,h.advance hn ?_⟩
      split
      · exact .inl rfl
      · exact .inr rfl
    · next old hold =>
      cases hs
      refine ⟨chain,h.consumes (fun b => ?_) (fun _ => nofun)⟩
      rw [hold,Nat.add_comm]
      exact Nat.add_le_add_left (h.held b) _
    · next old hold =>
      cases hs
      refine ⟨chain,h.consumes (c := s.count) (fun b => ?_) (fun _ => nofun)⟩
      rw [hold]
      exact le_toNat_free (h.held b) old

theorem Chained.init (c n : Nat) : Chained (MailboxSys.init c n : MailboxSys M) [0] := by
  have hidle : ∀ p ∈ (MailboxSys.init c n : MailboxSys M).producers,p = ⟨.idle,[]⟩ :=
    fun p hp => eq_of_mem_replicate hp
  have hnot : ∀ a b : Nat,¬ Next [0] a b := fun a b h => by
    have := h.length_le
    simp at this
  refine ⟨fun a => ?_,rfl,rfl,fun a b h => absurd h (hnot a b),rfl,fun p hp a b hpc => ?_,
    fun p hp m a hpc => ?_,fun _ => nofun,rfl⟩
  · have hzero : tally (Producer.holds a) (MailboxSys.init c n : MailboxSys M).producers = 0 := by
      by_contra hne
      obtain ⟨i,p,hi,hp⟩ := exists_of_tally_pos (Nat.pos_of_ne_zero hne)
      rw [hidle p (mem_of_getElem? hi)] at hp
      exact absurd hp (Nat.lt_irrefl 0)
    rw [MailboxSys.holders,hzero]
    by_cases ha : a = 0
    · simp [MailboxSys.init,ConsumerPc.holds,ha]
    · simp [MailboxSys.init,ConsumerPc.holds,Ne.symm ha]
  · rw [hidle p hp] at hpc
    cases hpc
  · rw [hidle p hp] at hpc
    cases hpc

theorem Chained.dequeued_le (h : Chained s chain) : s.dequeued.length ≤ s.accepted.length := by
  have := congrArg List.length h.messages
  simp only [length_append,length_map] at this
  omega

/-! ### Each producer's calls -/

def MailboxSys.Logged (s : MailboxSys M) : Prop :=
  ∀ i p,s.producers[i]? = some p → s.acceptedFrom i = (p.settled.filter Prod.snd).map Prod.fst

theorem MailboxSys.Logged.set (h : s.Logged) {x : Producer M} (hi : s.producers[i]? = some x)
    (hset : s'.producers = s.producers.set i p) (hacc : s'.accepted = s.accepted)
    (hp : p.settled.filter Prod.snd = x.settled.filter Prod.snd) : s'.Logged := by
  intro j q hj
  rw [hset] at hj
  have hfrom : s'.acceptedFrom j = s.acceptedFrom j := by rw [MailboxSys.acceptedFrom,hacc]; rfl
  rw [hfrom]
  by_cases hij : i = j
  · subst hij
    have hlt := (List.getElem?_eq_some_iff.mp hi).1
    rw [getElem?_set_self hlt,some.injEq] at hj
    rw [← hj,hp]
    exact h i x hi
  · rw [getElem?_set_ne hij] at hj
    exact h j q hj

theorem MailboxSys.Logged.congr (h : s.Logged) (hset : s'.producers = s.producers)
    (hacc : s'.accepted = s.accepted) : s'.Logged := by
  intro j q hj
  rw [hset] at hj
  rw [MailboxSys.acceptedFrom,hacc]
  exact h j q hj

theorem MailboxSys.Logged.step (h : s.Logged) (hs : mailboxStep s e = some s') : s'.Logged := by
  cases e with
  | enqueue i m a =>
    simp only [mailboxStep] at hs
    split at hs
    · next settled hi hlive =>
      cases hs
      exact h.set hi rfl rfl rfl
    · cases hs
  | noMemory i m =>
    simp only [mailboxStep] at hs
    split at hs
    · next settled hi =>
      cases hs
      exact h.set hi rfl rfl (by simp)
    · cases hs
  | produce i =>
    simp only [mailboxStep,bind_eq_some_iff] at hs
    obtain ⟨⟨pc,settled⟩,hi,hs⟩ := hs
    cases pc with
    | idle => cases hs
    | check m a | full m a | fill m a | link m a =>
      cases hs
      exact h.set hi rfl rfl (by simp)
    | exchange m a =>
      cases hs
      intro j q hj
      simp only [MailboxSys.setProducer] at hj
      by_cases hij : i = j
      · subst hij
        have hlt := (List.getElem?_eq_some_iff.mp hi).1
        rw [getElem?_set_self hlt,some.injEq] at hj
        have hold := h i _ hi
        simp only [MailboxSys.acceptedFrom] at hold
        simp [MailboxSys.acceptedFrom,← hj,hold]
      · rw [getElem?_set_ne hij] at hj
        have hold := h j q hj
        simp only [MailboxSys.acceptedFrom] at hold
        simp [MailboxSys.acceptedFrom,hold,hij]
  | dequeue =>
    simp only [mailboxStep] at hs
    split at hs <;> cases hs <;> exact h
  | consume =>
    simp only [mailboxStep,consumerStep] at hs
    split at hs <;> cases hs <;> exact h.congr rfl rfl

/-! ### The capacity -/

def Producer.passed (p : Producer M) : Nat :=
  match p.pc with
  | .fill _ _ | .exchange _ _ => 1
  | _ => 0

def Producer.refused (p : Producer M) : Nat :=
  match p.pc with
  | .full _ _ => 1
  | _ => 0

def ConsumerPc.pending : ConsumerPc → Nat
  | .count _ => 1
  | _ => 0

/-- The counter counts what waits and what is on its way, and has room for one more while a producer
is at its check. -/
structure Within (s : MailboxSys M) : Prop where
  positive : 0 < s.capacity
  room : s.capacity + s.producers.length ≤ 2 ^ 32
  small : s.count < 2 ^ 32
  counted : (s.count + s.dequeued.length) % 2 ^ 32 = (s.accepted.length +
    tally Producer.passed s.producers + tally Producer.refused s.producers +
    s.consumer.pending) % 2 ^ 32
  bound : s.accepted.length + tally Producer.passed s.producers + s.consumer.pending ≤
    s.dequeued.length + s.capacity

theorem refused_le (p : Producer M) : p.refused ≤ 1 := by
  unfold Producer.refused
  split <;> omega

theorem Within.set (h : Within s) {x : Producer M} (hi : s.producers[i]? = some x)
    (hsame : s'.capacity = s.capacity ∧ s'.producers = s.producers.set i p ∧
      s'.consumer = s.consumer ∧ s'.dequeued = s.dequeued) (hsmall : s'.count < 2 ^ 32)
    (hcounted : (s'.count + s.accepted.length + x.passed + x.refused) % 2 ^ 32 =
      (s.count + s'.accepted.length + p.passed + p.refused) % 2 ^ 32)
    (hbound : s'.accepted.length + tally Producer.passed s.producers + p.passed +
      s.consumer.pending ≤ s.dequeued.length + s.capacity + x.passed) : Within s' := by
  obtain ⟨positive,room,small,counted,bound⟩ := h
  obtain ⟨hcap,hprod,hcons,hdeq⟩ := hsame
  have hp := tally_set hi p Producer.passed
  have hr := tally_set hi p Producer.refused
  refine ⟨hcap ▸ positive,?_,hsmall,?_,?_⟩
  · rw [hcap,hprod,length_set]
    exact room
  · rw [hprod,hcons,hdeq]
    omega
  · rw [hprod,hcons,hdeq,hcap]
    omega

theorem Within.step (h : Within s) (hle : s.dequeued.length ≤ s.accepted.length)
    (hs : mailboxStep s e = some s') : Within s' := by
  have ⟨positive,room,small,counted,bound⟩ := h
  cases e with
  | enqueue i m a =>
    simp only [mailboxStep,positive,if_true] at hs
    split at hs
    · next settled hi hlive =>
      cases hs
      exact h.set hi ⟨rfl,rfl,rfl,rfl⟩ small rfl bound
    · cases hs
  | noMemory i m =>
    simp only [mailboxStep] at hs
    split at hs
    · next settled hi =>
      cases hs
      exact h.set hi ⟨rfl,rfl,rfl,rfl⟩ small rfl bound
    · cases hs
  | produce i =>
    simp only [mailboxStep,bind_eq_some_iff] at hs
    obtain ⟨⟨pc,settled⟩,hi,hs⟩ := hs
    cases pc with
    | idle => cases hs
    | check m a =>
      -- the counter is at most the capacity and one for each other producer
      have hlt := tally_lt_length refused_le hi rfl
      have hcount : s.count + s.dequeued.length = s.accepted.length +
          tally Producer.passed s.producers + tally Producer.refused s.producers +
          s.consumer.pending := by
        omega
      simp only [producerStep] at hs
      split at hs <;> cases hs <;> refine h.set hi ⟨rfl,rfl,rfl,rfl⟩ (Nat.mod_lt _ (by omega)) ?_ ?_
      all_goals simp only [Producer.passed,Producer.refused,inc32,MailboxSys.setProducer]; omega
    | full m a =>
      cases hs
      refine h.set hi ⟨rfl,rfl,rfl,rfl⟩ ?_ ?_ bound <;>
        simp only [Producer.passed,Producer.refused,dec32,MailboxSys.setProducer] <;> omega
    | fill m a =>
      cases hs
      exact h.set hi ⟨rfl,rfl,rfl,rfl⟩ small rfl (Nat.add_right_comm .. ▸ Nat.succ_le_succ bound)
    | exchange m a =>
      cases hs
      refine h.set hi ⟨rfl,rfl,rfl,rfl⟩ small ?_ ?_ <;> simp only [Producer.passed,
        Producer.refused,MailboxSys.setProducer,length_append,length_singleton] <;> omega
    | link u v =>
      cases hs
      exact h.set hi ⟨rfl,rfl,rfl,rfl⟩ small rfl bound
  | dequeue =>
    simp only [mailboxStep] at hs
    split at hs
    · cases hs
      exact ⟨positive,room,small,counted,bound⟩
    · next n hidle hn =>
      cases hs
      rw [hidle] at counted bound
      exact ⟨positive,room,small,counted,bound⟩
    · cases hs
  | consume =>
    simp only [mailboxStep,consumerStep,positive,if_true] at hs
    split at hs
    · cases hs
    · next n hn =>
      cases hs
      simp only [hn,ConsumerPc.pending] at counted bound
      refine ⟨positive,room,small,?_,?_⟩ <;>
        simp only [length_append,length_singleton,ConsumerPc.pending] <;> omega
    · next old hold =>
      simp only [hold,ConsumerPc.pending] at counted bound
      cases hs
      refine ⟨positive,room,?_,?_,?_⟩ <;> simp only [ConsumerPc.pending,dec32] <;> omega
    · next old hold =>
      cases hs
      simp only [hold,ConsumerPc.pending] at counted bound
      exact ⟨positive,room,small,counted,bound⟩

/-! ### Runs -/

section

variable (h : Path mailboxStep (fun _ _ => True) (MailboxSys.init c n : MailboxSys M) s)

include h

theorem Chained.run :
    ∃ chain,Chained s chain :=
  h.invariant (I := fun s => ∃ chain,Chained s chain) ⟨[0],Chained.init c n⟩
    (fun _ _ _ ⟨_,hl⟩ _ hs => hl.step hs)

theorem MailboxSys.Logged.run : s.Logged := by
  refine h.invariant (fun i p hi => ?_) (fun _ _ _ hl _ hs => hl.step hs)
  have hp : p = ⟨.idle,[]⟩ := eq_of_mem_replicate (mem_of_getElem? hi)
  rw [hp]
  rfl

theorem Fifo.run :
    s.Fifo := by
  obtain ⟨chain,hl⟩ := Chained.run h
  refine ⟨⟨_,hl.messages⟩,MailboxSys.Logged.run h,fun hnull hlt => ?_⟩
  obtain ⟨rest,rfl⟩ := hl.first_cons
  have hlen := congrArg List.length hl.messages
  simp only [tail_cons,length_append,length_map] at hlen
  cases rest with
  | nil =>
    simp only [length_nil] at hlen
    omega
  | cons b rest =>
    rcases hl.pairs s.head b ⟨[],rest,rfl⟩ with hb | hb
    · rw [hnull] at hb
      cases hb.1
    · obtain ⟨i,p,hi,hp⟩ := exists_of_tally_pos (Nat.lt_of_lt_of_eq Nat.zero_lt_one hb.2.symm)
      refine ⟨p,mem_of_getElem? hi,?_⟩
      cases hpc : p.pc with
      | link u v =>
        simp only [Producer.linksFrom,hpc] at hp
        split at hp
        · next heq => exact ⟨v,by rw [heq]⟩
        · omega
      | _ => simp [Producer.linksFrom,hpc] at hp

end

theorem Within.run (hc : 0 < c) (hroom : c + n ≤ 2 ^ 32)
    (h : Path mailboxStep (fun _ _ => True) (MailboxSys.init c n : MailboxSys M) s) : Within s := by
  have hboth : (∃ chain,Chained s chain) ∧ Within s := by
    refine h.invariant (I := fun s => (∃ chain,Chained s chain) ∧ Within s)
      ⟨⟨[0],Chained.init c n⟩,hc,?_,?_,?_,?_⟩
      (fun _ _ _ ⟨⟨_,hl⟩,hw⟩ _ hs => ⟨hl.step hs,hw.step hl.dequeued_le hs⟩)
    · simpa [MailboxSys.init] using hroom
    · exact Nat.two_pow_pos 32
    · simp [MailboxSys.init,tally,Producer.passed,Producer.refused,ConsumerPc.pending]
    · simp [MailboxSys.init,tally,Producer.passed,ConsumerPc.pending]
  exact hboth.2

theorem Within.bounded (h : Within s) : s.Bounded := by
  have := h.bound
  unfold MailboxSys.Bounded
  omega

/-! ### A counter that wraps around -/

/-- `acc` messages wait; producer `r` is at `pc`, those after it are idle, and addresses above
`used` free. -/
structure Crowded (c n r : Nat) (pc : ProducerPc M) (cnt acc used : Nat) (s : MailboxSys M) :
    Prop where
  capacity : s.capacity = c
  size : s.producers.length = n
  count : s.count = cnt
  accepted : s.accepted.length = acc
  dequeued : s.dequeued = []
  mine : ∃ settled,s.producers[r]? = some ⟨pc,settled⟩
  idle : ∀ j p,r < j → s.producers[j]? = some p → p.pc = .idle
  unused : ∀ a,used < a → s.live a = false

section Crowd

variable {c n r cnt acc used : Nat} {pc : ProducerPc M} {m : M}

theorem Crowded.set {cnt' acc' used' : Nat} {pc' : ProducerPc M} {settled : List (M × Bool)}
    (h : Crowded c n r pc cnt acc used s)
    (hset : s'.producers = s.producers.set r ⟨pc',settled⟩) (hcap : s'.capacity = s.capacity)
    (hd : s'.dequeued = s.dequeued) (hcnt : s'.count = cnt') (hacc : s'.accepted.length = acc')
    (hun : ∀ a,used' < a → s'.live a = false) : Crowded c n r pc' cnt' acc' used' s' := by
  obtain ⟨old,hold⟩ := h.mine
  have hlt := (List.getElem?_eq_some_iff.mp hold).1
  refine ⟨hcap.trans h.capacity,?_,hcnt,hacc,hd.trans h.dequeued,⟨settled,?_⟩,fun j p hj hp => ?_,
    hun⟩
  · rw [hset,length_set,h.size]
  · rw [hset,getElem?_set_self hlt]
  · rw [hset,getElem?_set_ne (Nat.ne_of_lt hj)] at hp
    exact h.idle j p hj hp

theorem Crowded.begin (h : Crowded c n r .idle cnt acc used s) (hc : 0 < c) (m : M) :
    ∃ s',mailboxStep s (.enqueue r m (used + 1)) = some s' ∧
      Crowded c n r (.check m (used + 1)) cnt acc (used + 1) s' := by
  obtain ⟨settled,hp⟩ := h.mine
  have hcap : 0 < s.capacity := h.capacity ▸ hc
  have hs : mailboxStep s (.enqueue r m (used + 1)) =
      some { s.setProducer r ⟨.check m (used + 1),settled⟩ with
        live := update s.live (used + 1) true } := by
    simp only [mailboxStep,hp,h.unused _ (Nat.lt_succ_self _),hcap,if_true]
  refine ⟨_,hs,h.set rfl rfl rfl h.count h.accepted (fun a ha => ?_)⟩
  simp only [update_of_ne (Nat.ne_of_gt ha)]
  exact h.unused a (Nat.lt_of_succ_lt ha)

theorem produce_eq {i : Nat} {p : Producer M} (hi : s.producers[i]? = some p) :
    mailboxStep s (.produce i) = producerStep s i p := by
  simp [mailboxStep,hi]

variable {a : Nat}

theorem Crowded.pass (h : Crowded c n r (.check m a) cnt acc used s) (hroom : cnt < c) :
    ∃ s',mailboxStep s (.produce r) = some s' ∧
      Crowded c n r (.fill m a) (inc32 cnt) acc used s' := by
  obtain ⟨settled,hp⟩ := h.mine
  have hcount : ¬ s.capacity ≤ s.count := by
    rw [h.capacity,h.count]
    omega
  have hs := produce_eq hp
  simp only [producerStep,hcount,if_false] at hs
  exact ⟨_,hs,h.set rfl rfl rfl (congrArg inc32 h.count) h.accepted h.unused⟩

theorem Crowded.refuse (h : Crowded c n r (.check m a) cnt acc used s) (hfull : c ≤ cnt) :
    ∃ s',mailboxStep s (.produce r) = some s' ∧
      Crowded c n r (.full m a) (inc32 cnt) acc used s' := by
  obtain ⟨settled,hp⟩ := h.mine
  have hcount : s.capacity ≤ s.count := by
    rw [h.capacity,h.count]
    exact hfull
  have hs := produce_eq hp
  simp only [producerStep,hcount,if_true] at hs
  exact ⟨_,hs,h.set rfl rfl rfl (congrArg inc32 h.count) h.accepted h.unused⟩

theorem Crowded.fill (h : Crowded c n r (.fill m a) cnt acc used s) :
    ∃ s',mailboxStep s (.produce r) = some s' ∧ Crowded c n r (.exchange m a) cnt acc used s' := by
  obtain ⟨settled,hp⟩ := h.mine
  exact ⟨_,produce_eq hp,h.set rfl rfl rfl h.count h.accepted h.unused⟩

theorem Crowded.exchange (h : Crowded c n r (.exchange m a) cnt acc used s) :
    ∃ s' p,mailboxStep s (.produce r) = some s' ∧
      Crowded c n r (.link p a) cnt (acc + 1) used s' := by
  obtain ⟨settled,hp⟩ := h.mine
  refine ⟨_,_,produce_eq hp,h.set rfl rfl rfl h.count ?_ h.unused⟩
  simp only [length_append,length_singleton,h.accepted]

theorem Crowded.link {p a : Nat} (h : Crowded c n r (.link p a) cnt acc used s) :
    ∃ s',mailboxStep s (.produce r) = some s' ∧ Crowded c n r .idle cnt acc used s' := by
  obtain ⟨settled,hp⟩ := h.mine
  exact ⟨_,produce_eq hp,h.set rfl rfl rfl h.count h.accepted h.unused⟩

theorem Crowded.next (h : Crowded c n r pc cnt acc used s) (hr : r + 1 < n) :
    Crowded c n (r + 1) .idle cnt acc used s := by
  obtain ⟨⟨pc',settled⟩,hp⟩ : ∃ p,s.producers[r + 1]? = some p :=
    ⟨_,getElem?_eq_getElem (h.size ▸ hr)⟩
  have hidle : pc' = .idle := h.idle _ _ (Nat.lt_succ_self r) hp
  exact ⟨h.capacity,h.size,h.count,h.accepted,h.dequeued,⟨settled,hidle ▸ hp⟩,
    fun j p hj => h.idle j p (Nat.lt_of_succ_lt hj),h.unused⟩

theorem Crowded.accept (h : Crowded c n r .idle cnt acc used s) (hroom : cnt < c) (m : M) :
    ∃ s',Path mailboxStep (fun _ _ => True) s s' ∧
      Crowded c n r .idle (inc32 cnt) (acc + 1) (used + 1) s' := by
  obtain ⟨s₁,hs₁,h₁⟩ := h.begin (Nat.lt_of_le_of_lt (Nat.zero_le _) hroom) m
  obtain ⟨s₂,hs₂,h₂⟩ := h₁.pass hroom
  obtain ⟨s₃,hs₃,h₃⟩ := h₂.fill
  obtain ⟨s₄,p,hs₄,h₄⟩ := h₃.exchange
  obtain ⟨s₅,hs₅,h₅⟩ := h₄.link
  exact ⟨s₅,((((Interleaving.Path.refl.tail trivial hs₁).tail trivial hs₂).tail trivial hs₃).tail
    trivial hs₄).tail trivial hs₅,h₅⟩

theorem Crowded.fill_up (hc : c < 2 ^ 32) (hn : 0 < n) (m : M) (k : Nat) (hk : k ≤ c) :
    ∃ s,Path mailboxStep (fun _ _ => True) (MailboxSys.init c n) s ∧
      Crowded c n 0 (.idle : ProducerPc M) k k k s := by
  induction k with
  | zero =>
    refine ⟨_,.refl,rfl,?_,rfl,rfl,rfl,⟨[],?_⟩,fun j p _ hp => ?_,fun a ha => ?_⟩
    · simp [MailboxSys.init]
    · simp [MailboxSys.init,hn]
    · rw [eq_of_mem_replicate (mem_of_getElem? hp)]
    · simp only [MailboxSys.init,beq_eq_false_iff_ne]
      omega
  | succ k ih =>
    obtain ⟨s,hs,h⟩ := ih (Nat.le_of_succ_le hk)
    obtain ⟨s',hs',h'⟩ := h.accept hk m
    refine ⟨s',hs.trans hs',?_⟩
    have hinc : inc32 k = k + 1 := Nat.mod_eq_of_lt (by omega)
    rw [hinc] at h'
    exact h'

theorem Crowded.crowd (hc : 0 < c) (hlt : c < 2 ^ 32) (m : M) (r : Nat) (hr : r < n)
    (hrc : c + r ≤ 2 ^ 32) :
    ∃ s,Path mailboxStep (fun _ _ => True) (MailboxSys.init c n) s ∧
      Crowded c n r (.idle : ProducerPc M) ((c + r) % 2 ^ 32) c (c + r) s := by
  induction r with
  | zero =>
    obtain ⟨s,hs,h⟩ := Crowded.fill_up hlt hr m c (Nat.le_refl _)
    rw [Nat.add_zero,Nat.mod_eq_of_lt hlt]
    exact ⟨s,hs,h⟩
  | succ r ih =>
    obtain ⟨s,hs,h⟩ := ih (Nat.lt_of_succ_lt hr) (by omega)
    obtain ⟨s₁,hs₁,h₁⟩ := h.begin hc m
    obtain ⟨s₂,hs₂,h₂⟩ := h₁.refuse (by omega)
    have hinc : inc32 ((c + r) % 2 ^ 32) = (c + (r + 1)) % 2 ^ 32 := by
      unfold inc32
      omega
    rw [hinc] at h₂
    exact ⟨s₂,(hs.tail trivial hs₁).tail trivial hs₂,h₂.next hr⟩

theorem exists_unbounded (hc : 0 < c) (hlt : c < 2 ^ 32) (hroom : 2 ^ 32 < c + n) (m : M) :
    ∃ s : MailboxSys M,Path mailboxStep (fun _ _ => True) (MailboxSys.init c n) s ∧
      ¬ s.Bounded := by
  obtain ⟨s,hs,h⟩ := Crowded.crowd (n := n) hc hlt m (2 ^ 32 - c) (by omega) (by omega)
  have hzero : (c + (2 ^ 32 - c)) % 2 ^ 32 = 0 := by omega
  rw [hzero] at h
  obtain ⟨s',hs',h'⟩ := h.accept hc m
  refine ⟨s',hs.trans hs',?_⟩
  simp only [MailboxSys.Bounded,h'.accepted,h'.dequeued,h'.capacity,length_nil]
  omega

end Crowd

/-- The mailbox is a queue for any number of producers. It keeps its capacity in every run exactly
when the counter has room for it and one increment for each producer. -/
theorem mailbox_bounded_fifo [Inhabited M] {c n : Nat} (hlt : c < 2 ^ 32) :
    (∀ s : MailboxSys M,Path mailboxStep (fun _ _ => True) (MailboxSys.init c n) s → s.Fifo) ∧
      (0 < c → ((∀ s : MailboxSys M,
        Path mailboxStep (fun _ _ => True) (MailboxSys.init c n) s → s.Bounded) ↔
          c + n ≤ 2 ^ 32)) := by
  refine ⟨fun s hs => Fifo.run hs,fun hc => ⟨fun hall => ?_,fun hroom s hs => ?_⟩⟩
  · by_contra hroom
    obtain ⟨s,hs,hnot⟩ := exists_unbounded hc hlt (Nat.lt_of_not_le hroom) (default : M)
    exact hnot (hall s hs)
  · exact (Within.run hc hroom hs).bounded

end

/-- The largest capacity with two producers. -/
theorem mailbox_overflows : ∃ s : MailboxSys Nat,
    Path mailboxStep (fun _ _ => True) (MailboxSys.init (2 ^ 32 - 1) 2) s ∧ ¬ s.Bounded :=
  exists_unbounded (by decide) (by decide) (by decide) 7

/-- The default capacity with up to a thousand producers. -/
theorem mailbox_bounded_fifo_default :
    (∀ s : MailboxSys Nat,Path mailboxStep (fun _ _ => True) (MailboxSys.init 256 1000) s →
      s.Fifo) ∧ ∀ s : MailboxSys Nat,
        Path mailboxStep (fun _ _ => True) (MailboxSys.init 256 1000) s → s.Bounded := by
  have h := mailbox_bounded_fifo (M := Nat) (c := 256) (n := 1000) (by decide)
  exact ⟨h.1,(h.2 (by decide)).mpr (by decide)⟩

end SmalltalkA
