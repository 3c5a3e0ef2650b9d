import SmalltalkA.Actor.SupervisionRecords

/-! Restart intensity (`check_intensity`): one counter and one window, started anew by the first
restart after it has elapsed. -/

set_option autoImplicit false

namespace SmalltalkA

open SupVm Interleaving List Option

namespace SupervisorData

def windowNs (d : SupervisorData) : Nat := d.maxSeconds * 10 ^ 9

/-- The times of the restarts when children fail at `times`; the failure that exceeds the limit ends
them. -/
def restartTimes (d : SupervisorData) : List Nat → List Nat
  | [] => []
  | t :: times => if d.exceeded t then [] else t :: (d.tick t).restartTimes times

/-- The window has elapsed at time `t`. -/
def elapsed (d : SupervisorData) (t : Nat) : Bool :=
  d.restartCount ≠ 0 && d.windowStartNs + d.windowNs < t

end SupervisorData

/-- The restarts from `start` on, for `span` nanoseconds. -/
def restartsWithin (start span : Nat) (restarts : List Nat) : Nat :=
  restarts.countP (fun r => start ≤ r ∧ r ≤ start + span)

section

variable {d : SupervisorData} {t last start : Nat} {times rest : List Nat}

theorem tick_eq (ht : t < 2 ^ 64) (hle : d.restartCount ≠ 0 → d.windowStartNs ≤ t) :
    d.tick t = if d.elapsed t then { d with restartCount := 1,windowStartNs := t } else { d with
        restartCount := inc32 d.restartCount
        windowStartNs := if d.restartCount = 0 then t else d.windowStartNs } := by
  have hiff : (t + 2 ^ 64 - (if d.restartCount = 0 then t else d.windowStartNs)) % 2 ^ 64 >
      d.maxSeconds * 10 ^ 9 ↔ d.elapsed t = true := by
    rw [SupervisorData.elapsed,SupervisorData.windowNs,Bool.and_eq_true,decide_eq_true_iff,
      decide_eq_true_iff]
    split <;> omega
  simp only [SupervisorData.tick,hiff]

theorem restartTimes_mem {r : Nat} (hr : r ∈ d.restartTimes times) : r ∈ times := by
  induction times generalizing d with
  | nil => exact hr
  | cons t times ih =>
    rw [SupervisorData.restartTimes] at hr
    split at hr
    · cases hr
    · rcases mem_cons.mp hr with rfl | hr
      · exact mem_cons_self
      · exact mem_cons_of_mem _ (ih hr)

/-- The window so far: its first restart and then `rest`, up to `last`. -/
structure Window (d : SupervisorData) (last : Nat) (rest : List Nat) : Prop where
  count : rest.length + 1 = d.restartCount
  limit : d.restartCount ≤ d.maxRestarts
  upTo : ∀ r ∈ rest,r ≤ last
  start : d.windowStartNs ≤ last

/-- A restart begins the next window or is one more of this one. -/
theorem Window.tick (h : Window d last rest) (hmax : d.maxRestarts < 2 ^ 32 - 1) (hle : last ≤ t)
    (ht : t < 2 ^ 64) (hex : ¬d.exceeded t = true) :
    ((d.tick t).maxRestarts = d.maxRestarts ∧ (d.tick t).windowNs = d.windowNs) ∧
    ((d.windowStartNs + d.windowNs < t ∧ (d.tick t).windowStartNs = t ∧ Window (d.tick t) t []) ∨
      ((d.tick t).windowStartNs = d.windowStartNs ∧ Window (d.tick t) t (rest ++ [t]))) := by
  have hcount : (d.tick t).restartCount ≤ d.maxRestarts := by
    simpa [SupervisorData.exceeded] using hex
  have hne : d.restartCount ≠ 0 := by
    have := h.count
    omega
  have htick := tick_eq ht (fun _ => h.start.trans hle)
  cases hel : d.elapsed t with
  | true =>
    rw [hel,if_pos rfl] at htick
    rw [SupervisorData.elapsed,Bool.and_eq_true,decide_eq_true_iff,decide_eq_true_iff] at hel
    rw [htick] at hcount ⊢
    exact ⟨⟨rfl,rfl⟩,.inl ⟨hel.2,rfl,rfl,hcount,fun _ hr => absurd hr not_mem_nil,Nat.le_refl t⟩⟩
  | false =>
    have hinc : inc32 d.restartCount = d.restartCount + 1 := inc32_of_lt (by have := h.limit; omega)
    rw [hel,if_neg Bool.false_ne_true,hinc,if_neg hne] at htick
    rw [htick] at hcount ⊢
    refine ⟨⟨rfl,rfl⟩,.inr ⟨rfl,by simp [h.count],hcount,fun r hr => ?_,h.start.trans hle⟩⟩
    rcases mem_append.mp hr with hr | hr
    · exact (h.upTo r hr).trans hle
    · exact Nat.le_of_eq (mem_singleton.mp hr)

/-- The restart that began a window counts only in the spans that begin before it. -/
theorem Window.restartsWithin_le (start : Nat) (h : Window d last rest) :
    restartsWithin start d.windowNs (d.windowStartNs :: rest) ≤
      if start ≤ d.windowStartNs then d.maxRestarts else d.maxRestarts - 1 := by
  have := h.count
  have := h.limit
  have hrest : restartsWithin start d.windowNs rest ≤ rest.length := countP_le_length
  rw [restartsWithin] at hrest ⊢
  rw [countP_cons]
  by_cases hstart : start ≤ d.windowStartNs
  · rw [if_pos hstart]
    split <;> omega
  · rw [if_neg hstart,if_neg (fun h => hstart (of_decide_eq_true h).1)]
    omega

theorem restartsWithin_eq_zero {span : Nat} {restarts : List Nat}
    (h : ∀ r ∈ restarts,r < start ∨ start + span < r) : restartsWithin start span restarts = 0 := by
  refine countP_eq_zero.mpr (fun r hr => ?_)
  have := h r hr
  rw [decide_eq_true_iff]
  omega

/-- A span has restarts of two windows at most. -/
theorem restartsWithin_window (start : Nat) (h : Window d last rest) (hmax : d.maxRestarts < 2 ^ 32 - 1)
    (hsort : (last :: times).Pairwise (· ≤ ·)) (hlt : ∀ t ∈ times,t < 2 ^ 64) :
    restartsWithin start d.windowNs (d.windowStartNs :: rest ++ d.restartTimes times) ≤
      if start ≤ d.windowStartNs then d.maxRestarts else 2 * d.maxRestarts - 1 := by
  induction times generalizing d last rest with
  | nil =>
    rw [SupervisorData.restartTimes,append_nil]
    exact (h.restartsWithin_le start).trans (by split <;> omega)
  | cons t times ih =>
    obtain ⟨hlast,hsort⟩ := pairwise_cons.mp hsort
    have hlast := hlast t mem_cons_self
    rw [SupervisorData.restartTimes]
    by_cases hex : d.exceeded t = true
    · rw [if_pos hex,append_nil]
      exact (h.restartsWithin_le start).trans (by split <;> omega)
    · rw [if_neg hex]
      obtain ⟨⟨hm,hwin⟩,hnext⟩ := h.tick hmax hlast (hlt t mem_cons_self) hex
      have hlater := fun (rest : List Nat) (hrest : Window (d.tick t) t rest) =>
        ih hrest (hm ▸ hmax) hsort (fun u hu => hlt u (mem_cons_of_mem _ hu))
      rw [hm,hwin] at hlater
      rcases hnext with ⟨hgap,hstart,hnew⟩ | ⟨hstart,hsame⟩
      · have hnew := hlater [] hnew
        rw [hstart] at hnew
        have hold := h.restartsWithin_le start
        rw [restartsWithin,countP_append]
        rw [restartsWithin] at hold hnew
        by_cases hin : start ≤ d.windowStartNs
        · rw [if_pos hin] at hold ⊢
          have : restartsWithin start d.windowNs (t :: (d.tick t).restartTimes times) = 0 := by
            refine restartsWithin_eq_zero (fun u hu => .inr ?_)
            have htu : t ≤ u := by
              rcases mem_cons.mp hu with rfl | hu
              · exact Nat.le_refl u
              · exact (pairwise_cons.mp hsort).1 u (restartTimes_mem hu)
            omega
          rw [restartsWithin] at this
          omega
        · rw [if_neg hin] at hold ⊢
          by_cases ht : start ≤ t
          · rw [if_pos ht,singleton_append] at hnew
            omega
          · have : restartsWithin start d.windowNs (d.windowStartNs :: rest) = 0 := by
              refine restartsWithin_eq_zero (fun u hu => .inl ?_)
              have hut : u ≤ last := by
                rcases mem_cons.mp hu with rfl | hu
                · exact h.start
                · exact h.upTo u hu
              omega
            rw [restartsWithin] at this
            rw [if_neg ht,singleton_append] at hnew
            omega
      · have := hlater (rest ++ [t]) hsame
        rw [hstart] at this
        simpa using this

theorem restartsWithin_le (h0 : d.restartCount = 0) (hmax : d.maxRestarts < 2 ^ 32 - 1)
    (hsort : times.Pairwise (· ≤ ·)) (hlt : ∀ t ∈ times,t < 2 ^ 64) :
    restartsWithin start d.windowNs (d.restartTimes times) ≤ 2 * d.maxRestarts - 1 := by
  cases times with
  | nil => exact Nat.zero_le _
  | cons t times =>
    rw [SupervisorData.restartTimes]
    by_cases hex : d.exceeded t = true
    · rw [if_pos hex]
      exact Nat.zero_le _
    · have htick := tick_eq (hlt t mem_cons_self) (fun h => absurd h0 h)
      have hel : ¬d.elapsed t = true := by simp [SupervisorData.elapsed,h0]
      rw [if_neg hel,if_pos h0,h0] at htick
      have hcount : (d.tick t).restartCount ≤ d.maxRestarts := by
        simpa [SupervisorData.exceeded] using hex
      rw [htick] at hcount
      have hlimit : 1 ≤ d.maxRestarts := hcount
      have hnew : Window (d.tick t) t [] := by
        rw [htick]
        exact ⟨rfl,hcount,fun _ hr => absurd hr not_mem_nil,Nat.le_refl t⟩
      have hall := restartsWithin_window start hnew (by rw [htick]; exact hmax) hsort
        (fun u hu => hlt u (mem_cons_of_mem _ hu))
      rw [if_neg hex]
      rw [htick] at hall ⊢
      refine hall.trans ?_
      dsimp only
      split <;> omega

end

/-- What a failure leads to: the restart, or the end of the children and of the supervisor, whose
own supervisor is told once. -/
def Charged (er : Oop) (s i : Nat) (d : SupervisorData) (sp : ChildSpec) (fate : Fate)
    (vm vm' : SupVm) : Prop :=
  if d.exceeded fate.now then
    Emptied s d vm' ∧ (∃ y,vm'.actors s = some y ∧ y.state = .terminated) ∧
      ∃ u v w,vm.setData s (d.tick fate.now) = some u ∧ u.terminateAllChildren s = some v ∧
        v.escalateToParent s er fate = some w ∧ w.setState s .terminated = some vm'
  else ∃ u v r,vm.setData s (d.tick fate.now) = some u ∧
    u.destroyOld sp.currentActor = some v ∧ v.restartChild s sp fate = some r ∧
    r.1.setSpec s i { sp with
      currentActor := r.2,currentActorId := if r.2.isSome then v.nextActorId else 0 } = some vm'

section

variable {d : SupervisorData} {times : List Nat}

variable {vm vm' : SupVm} {s i : Nat} {x : SupActor} {sp : ChildSpec} {er reason : Oop}
  {fate : Fate} {rc : Int}

theorem applyStrategy_restart (hw : Wired [] vm) (hs : vm.actors s = some x)
    (hd : x.supData = some d) (hroot : s ≠ vm.rootSupervisor) (hst : sp.strategy = .restart)
    (h : vm.applyStrategy er s i d sp reason fate = some (vm',rc)) :
    Charged er s i d sp fate vm vm' := by
  rw [Charged]
  simp only [applyStrategy,hst] at h
  obtain ⟨u,hu,h⟩ := bind_eq_some_iff.mp h
  by_cases hex : d.exceeded fate.now = true
  · rw [if_pos hex] at h ⊢
    obtain ⟨w,hexc,h⟩ := bind_eq_some_iff.mp h
    cases h
    rw [intensityExceeded,if_neg ((setData_harmless hs hd (d.tick_children _) hu).1.root ▸ hroot)]
      at hexc
    obtain ⟨v,hv,hexc⟩ := bind_eq_some_iff.mp hexc
    obtain ⟨w,hw',hexc⟩ := bind_eq_some_iff.mp hexc
    obtain ⟨y,hy,rfl⟩ := modify_some hexc
    exact ⟨(teardown_spec hw hs hd (d.tick_children _) hu hv hw' hexc).2.2,
      ⟨_,put_same _ _ _,rfl⟩,u,v,w,hu,hv,hw',hexc⟩
  · rw [if_neg hex] at h ⊢
    obtain ⟨v,hv,h⟩ := bind_eq_some_iff.mp h
    obtain ⟨r,hr,h⟩ := bind_eq_some_iff.mp h
    obtain ⟨w,hw',h⟩ := bind_eq_some_iff.mp h
    cases h
    exact ⟨u,v,r,hu,hv,hr,by rw [hst]; exact hw'⟩

/-- No span of `maxSeconds` has twice `maxRestarts` restarts; the failure beyond the limit of a
window ends the supervisor. -/
theorem restart_intensity_bound (h0 : d.restartCount = 0) (hmax : d.maxRestarts < 2 ^ 32 - 1)
    (hsort : times.Pairwise (· ≤ ·)) (hlt : ∀ t ∈ times,t < 2 ^ 64) :
    (∀ start,restartsWithin start d.windowNs (d.restartTimes times) ≤ 2 * d.maxRestarts - 1) ∧
    ∀ vm vm' s x d i sp er reason fate rc,Wired [] vm → vm.actors s = some x →
      x.supData = some d → s ≠ vm.rootSupervisor → sp.strategy = .restart →
      vm.applyStrategy er s i d sp reason fate = some (vm',rc) →
      Charged er s i d sp fate vm vm' :=
  ⟨fun _ => restartsWithin_le h0 hmax hsort hlt,fun _ _ _ _ _ _ _ _ _ _ _ => applyStrategy_restart⟩

end

/-- Two restarts in five seconds are allowed. -/
def twoInFive : SupervisorData := ⟨[],0,0,2,5⟩

theorem restart_intensity_bound_twoInFive : restartsWithin (49 * 10 ^ 8) (5 * 10 ^ 9)
      (twoInFive.restartTimes [0,49 * 10 ^ 8,51 * 10 ^ 8,52 * 10 ^ 8]) ≤ 3 :=
  (restart_intensity_bound (d := twoInFive) rfl (by decide) (by decide) (by decide)).1 _

/-- Restarts after 0, 4.9, 5.1 and 5.2 seconds: three of them within 0.3 seconds. -/
theorem window_reset_allows_three : restartsWithin (49 * 10 ^ 8) (5 * 10 ^ 9)
      (twoInFive.restartTimes [0,49 * 10 ^ 8,51 * 10 ^ 8,52 * 10 ^ 8]) = 3 := by
  decide

end SmalltalkA
