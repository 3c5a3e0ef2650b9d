import SmalltalkA.Scheduler.RunQueues

/-! Termination. A worker loads the state once after processing and stores READY or SUSPENDED later
without another look, and `restart_child` stores CREATED: a termination in such a window is undone.
-/

set_option autoImplicit false

namespace SmalltalkA

open Interleaving List Function

/-- Past the last look at the state before a store, or before a message is taken. -/
def WorkerPc.pastCheck : WorkerPc → Nat → Bool
  | .dispatch b,a | .idleCheck b,a | .requeue b,a | .suspend b,a => b == a
  | _,_ => false

/-- In `restart_child` before its store. -/
def ClientPc.restarts : ClientPc → Nat → Bool
  | .mailCount .restart b,a | .mailFull .restart b,a | .mailExchange .restart b,a
  | .mailLink .restart b,a | .restartStore b,a => b == a
  | _,_ => false

def outOfWindow (s : Sys) (a : Nat) : Prop :=
  (∀ x ∈ s.workers,x.pc.pastCheck a = false) ∧ ∀ c ∈ s.clients,c.restarts a = false

def settles (s : Sys) : SysEvent → Prop
  | .worker w .crash =>
    match (s.workers[w]?).map Worker.pc with
    | some (.execute a) => s.shared.state a = .running → outOfWindow s a
    | _ => True
  | .client i .go =>
    match s.clients[i]? with
    | some (.terminate a) | some (.exceeded a) => outOfWindow s a
    | _ => True
  | _ => True

instance (s : Sys) (a : Nat) : Decidable (outOfWindow s a) :=
  inferInstanceAs (Decidable ((∀ x ∈ s.workers,x.pc.pastCheck a = false) ∧
    ∀ c ∈ s.clients,c.restarts a = false))

/-- The actor an event is about to mark terminated. -/
def ended (s : Sys) : SysEvent → Option Nat
  | .worker w .crash =>
    match (s.workers[w]?).map Worker.pc with
    | some (.execute a) => if s.shared.state a = .running then some a else none
    | _ => none
  | .client i .go =>
    match s.clients[i]? with
    | some (.terminate a) | some (.exceeded a) => some a
    | _ => none
  | _ => none

theorem settles_iff (s : Sys) (e : SysEvent) : (∀ a ∈ ended s e,outOfWindow s a) ↔ settles s e := by
  unfold ended settles
  repeat' split
  all_goals simp_all

instance (s : Sys) (e : SysEvent) : Decidable (settles s e) :=
  decidable_of_iff _ (settles_iff s e)

def dispatches (s : Sys) (e : SysEvent) (a : Nat) : Prop :=
  ∃ w d,e = .worker w .go ∧ s.workers[w]? = some ⟨.dispatch a,d⟩

section

variable {sh sh' : Shared} {a : Nat}

theorem workerStep_pastCheck {x y : Worker} {c : WorkerChoice}
    (hs : workerStep sh x c = some (sh',y)) (hst : sh.state a = .terminated)
    (hx : x.pc.pastCheck a = false) : y.pc.pastCheck a = false := by
  obtain ⟨pc,d⟩ := x
  cases c with
  | steal v => cases hs
  | pop | overflow | finish rc =>
    simp only [workerStep] at hs
    repeat' split at hs
    all_goals
      cases hs
      try rfl
  | wait | crash =>
    cases pc with
    | execute b =>
      cases hs
      rfl
    | _ => cases hs
  | go =>
    cases pc with
    | hold b =>
      simp only [workerStep] at hs
      split at hs <;> cases hs
      · rename_i hb
        have hne : b ≠ a := by
          rintro rfl
          simp [hst] at hb
        simpa [WorkerPc.pastCheck] using hne
      · rfl
    | returned b rc =>
      simp only [workerStep] at hs
      repeat' split at hs
      all_goals cases hs
      · rfl
      all_goals
        rename_i hcheck _
        have hne : b ≠ a := by
          rintro rfl
          simp [hst] at hcheck
        simpa [WorkerPc.pastCheck] using hne
    | idleCheck b =>
      simp only [workerStep] at hs
      split at hs <;> cases hs <;> exact hx
    | _ =>
      simp only [workerStep] at hs
      repeat' split at hs
      all_goals
        cases hs
        try rfl

theorem workerStep_terminated {x y : Worker} {c : WorkerChoice}
    (hs : workerStep sh x c = some (sh',y)) (hst : sh.state a = .terminated)
    (hx : x.pc.pastCheck a = false) : sh'.state a = .terminated := by
  obtain ⟨pc,d⟩ := x
  obtain ⟨pc',d'⟩ := y
  rcases workerStep_state hs with h | ⟨b,st,hstore,h⟩
  · rw [h,hst]
  · rw [h,update_of_ne _,hst]
    rintro rfl
    cases hstore <;> simp_all [WorkerPc.pastCheck]

variable {d : ClientPc}

theorem clientGo_restarts {i : Nat} {c : ClientPc} (hs : clientGo sh i c = some (sh',d))
    (hc : c.restarts a = false) : d.restarts a = false := by
  cases c with
  | mailCount k b | mailFull k b | mailExchange k b | mailLink k b =>
    cases k <;> simp only [clientGo] at hs <;> repeat' split at hs
    all_goals
      cases hs
      first | rfl | exact hc
  | _ =>
    simp only [clientGo] at hs
    repeat' split at hs
    all_goals
      cases hs
      try rfl

theorem clientGo_terminated {i : Nat} {c : ClientPc} (hs : clientGo sh i c = some (sh',d))
    (hst : sh.state a = .terminated) (hc : c.restarts a = false) : sh'.state a = .terminated := by
  rcases clientGo_state hs with h | ⟨b,st,hstore,h⟩
  · rw [h,hst]
  · by_cases hab : a = b
    · subst hab
      rw [h,update_self]
      cases hstore <;> simp_all [ClientPc.restarts]
    · rw [h,update_of_ne hab,hst]

theorem clientBegin_restarts {c : ClientChoice} (hs : clientBegin sh c = some (sh',d))
    (hst : sh.state a = .terminated) :
    d.restarts a = false := by
  cases c with
  | restart b =>
    simp only [clientBegin] at hs
    split at hs <;> cases hs
    rename_i hp
    have hne : b ≠ a := by
      rintro rfl
      simp [Shared.pristine,hst] at hp
    simpa [ClientPc.restarts] using hne
  | go => cases hs
  | _ =>
    simp only [clientBegin] at hs
    split at hs <;> cases hs
    rfl

end

/-! ### Runs -/

section

variable {s t : Sys}

def Settled (s : Sys) : Prop := ∀ a,s.shared.state a = .terminated → outOfWindow s a

variable {e : SysEvent}

theorem terminated_step {a : Nat} (hw : outOfWindow s a) (hst : s.shared.state a = .terminated)
    (hs : sysStep s e = some t) :
    t.shared.state a = .terminated ∧ outOfWindow t a := by
  cases sysStep_moves hs with
  | worker hx h =>
    have hpast := hw.1 _ (mem_of_getElem? hx)
    refine ⟨workerStep_terminated h hst hpast,fun z hz => ?_,hw.2⟩
    rcases mem_or_eq_of_mem_set hz with hz | rfl
    · exact hw.1 z hz
    · exact workerStep_pastCheck h hst hpast
  | steal hx hy hpc hne hd =>
    refine ⟨hst,fun z hz => ?_,hw.2⟩
    rcases mem_or_eq_of_mem_set hz with hz | rfl
    · rcases mem_or_eq_of_mem_set hz with hz | rfl
      · exact hw.1 z hz
      · have hy' := hw.1 _ (mem_of_getElem? hy)
        exact hy'
    · rfl
  | go hi h =>
    have hrest := hw.2 _ (mem_of_getElem? hi)
    refine ⟨clientGo_terminated h hst hrest,hw.1,fun z hz => ?_⟩
    rcases mem_or_eq_of_mem_set hz with hz | rfl
    · exact hw.2 z hz
    · exact clientGo_restarts h hrest
  | call hi h =>
    refine ⟨by rw [clientBegin_state h,hst],hw.1,fun z hz => ?_⟩
    rcases mem_or_eq_of_mem_set hz with hz | rfl
    · exact hw.2 z hz
    · exact clientBegin_restarts h hst
  | stop => exact ⟨hst,hw⟩

theorem terminating_step {a : Nat} (he : settles s e) (hst : s.shared.state a ≠ .terminated)
    (hs : sysStep s e = some t) (hst' : t.shared.state a = .terminated) : outOfWindow t a := by
  cases sysStep_moves hs with
  | steal hx hy hpc hne hd => exact absurd hst' hst
  | call hi h =>
    rw [clientBegin_state h] at hst'
    exact absurd hst' hst
  | stop => exact absurd hst' hst
  | @worker w c x y sh hx h =>
    obtain ⟨pc,d⟩ := x
    obtain ⟨pc',d'⟩ := y
    rcases workerStep_state h with hsame | ⟨b,st,hstore,hupd⟩
    · exact absurd (hsame ▸ hst') hst
    · obtain rfl : a = b := by
        by_contra hne
        rw [hupd,update_of_ne hne] at hst'
        exact hst hst'
      rw [hupd,update_self] at hst'
      cases hstore <;> cases hst'
      rename_i hrun
      simp only [settles,hx,Option.map_some] at he
      have hw := he hrun
      refine ⟨fun z hz => ?_,hw.2⟩
      rcases mem_or_eq_of_mem_set hz with hz | rfl
      · exact hw.1 z hz
      · rfl
  | @go i c d sh hi h =>
    rcases clientGo_state h with hsame | ⟨b,st,hstore,hupd⟩
    · exact absurd (hsame ▸ hst') hst
    · obtain rfl : a = b := by
        by_contra hne
        rw [hupd,update_of_ne hne] at hst'
        exact hst hst'
      rw [hupd,update_self] at hst'
      cases hstore <;> cases hst' <;> cases h
      all_goals
        simp only [settles,hi] at he
        refine ⟨he.1,fun z hz => ?_⟩
        rcases mem_or_eq_of_mem_set hz with hz | rfl
        · exact he.2 z hz
        · rfl

theorem Settled.step (h : Settled s) (he : settles s e) (hs : sysStep s e = some t) :
    Settled t := by
  intro a hst
  by_cases hold : s.shared.state a = .terminated
  · exact (terminated_step (h a hold) hold hs).2
  · exact terminating_step he hold hs hst

theorem Started.settled (h : Started s) : Settled s := by
  refine fun a _ => ⟨fun x hx => ?_,fun c hc => ?_⟩
  · rw [h.workers x hx]
    rfl
  · rw [h.clients c hc]
    rfl

/-- If no termination falls into a window, TERMINATED is final and no message of a terminated actor
is started. -/
theorem terminated_absorbing (h₀ : Started s) (h : Path sysStep settles s t) (a : Nat)
    (hst : t.shared.state a = .terminated) (e : SysEvent) (u : Sys) (hs : sysStep t e = some u) :
    u.shared.state a = .terminated ∧ ¬ dispatches t e a := by
  have hw := h.invariant h₀.settled (fun _ _ _ hi he hs => hi.step he hs) a hst
  refine ⟨(terminated_step hw hst hs).1,?_⟩
  rintro ⟨w,d,rfl,hx⟩
  have := hw.1 _ (mem_of_getElem? hx)
  simp [WorkerPc.pastCheck] at this

/-- The sender has queued its message when the actor is terminated, and tries to wake it. -/
theorem terminated_absorbing_before_wake : ∃ t u : Sys,Path sysStep settles twoWorkers t ∧
    t.shared.state 2 = .terminated ∧ sysStep t (.client 0 .go) = some u ∧
    u.shared.state 2 = .terminated ∧ ¬ dispatches t (.client 0 .go) 2 := by
  have hpath : Path sysStep settles twoWorkers _ := runAll_path (.client 0 (.send 2) ::
    List.replicate 5 (.client 0 .go) ++ [.client 1 (.terminate 2),.client 1 .go]) rfl
  exact ⟨_,_,hpath,rfl,rfl,terminated_absorbing twoWorkers_started hpath 2 rfl _ _ rfl⟩

/-- Worker 0 has found the mailbox empty; the actor is terminated; the worker stores SUSPENDED. -/
theorem terminated_actor_suspended : ∃ s t u : Sys,Started s ∧
    Path sysStep (fun _ _ => True) s t ∧ t.shared.state 2 = .terminated ∧
    sysStep t (.worker 0 .go) = some u ∧ u.shared.state 2 = .suspended :=
  ⟨twoWorkers,_,_,twoWorkers_started,runAll_path (sendAndClaim ++
    [.worker 0 (.finish .processed),.worker 0 .go,.worker 0 .go,.client 1 (.terminate 2),
      .client 1 .go]) rfl,rfl,rfl,rfl⟩

end

end SmalltalkA
