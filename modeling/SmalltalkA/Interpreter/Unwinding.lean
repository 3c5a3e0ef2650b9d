import SmalltalkA.Interpreter.HandlerChain
import SmalltalkA.Lib.Interleaving

/-! Ensure blocks. On the root actor an ensure block runs exactly when its entry leaves the handler
chain, unless a non-local return without a home in its loop cuts the chain. -/

set_option autoImplicit false

namespace SmalltalkA

open Interleaving List

/-- At each evaluation, every `ensure:` entered later has been evaluated before. -/
def InOrder : List EvalEvent → Prop
  | [] => True
  | .entered _ :: before => InOrder before
  | .ran i :: before | .handled i :: before =>
    (∀ j,i < j → .entered j ∈ before → .ran j ∈ before) ∧ InOrder before

/-- The books on entries and events: an entered `ensure:` has run unless its entry is on the
chain. -/
structure Accounted (chain : List Handler) (trace : List EvalEvent) (n : Nat) : Prop where
  kinds : ∀ h ∈ chain,h.entry.isEnsure = true ↔ .entered h.jmp ∈ trace
  below : ∀ i,.entered i ∈ trace → i < n
  ranEntered : ∀ i,.ran i ∈ trace → .entered i ∈ trace
  runs : ∀ i,.entered i ∈ trace →
    trace.count (.ran i) = if i ∈ chain.map Handler.jmp then 0 else 1
  order : InOrder trace

section

variable {chain above below : List Handler} {trace : List EvalEvent} {n n' : Nat} {h : Handler}

theorem Accounted.ran_of_later (ha : Accounted chain trace n)
    (hdec : (chain.map Handler.jmp).Pairwise (· > ·)) (hc : chain = above ++ h :: below)
    (habove : ∀ g ∈ above,g.entry.isEnsure = false) {j : Nat} (hj : h.jmp < j)
    (he : .entered j ∈ trace) : .ran j ∈ trace := by
  have hout : j ∉ chain.map Handler.jmp := by
    intro hmem
    obtain ⟨g,hg,rfl⟩ := List.mem_map.mp hmem
    have hens := (ha.kinds g hg).mpr he
    rw [hc] at hg hdec
    rw [mem_append,mem_cons] at hg
    rcases hg with hg | rfl | hg
    · rw [habove g hg] at hens
      cases hens
    · omega
    · rw [map_append,map_cons,pairwise_append,pairwise_cons] at hdec
      have := hdec.2.1.1 g.jmp (List.mem_map_of_mem hg)
      omega
  have hcount := ha.runs j he
  rw [if_neg hout] at hcount
  exact count_pos_iff.mp (by omega)

theorem Accounted.mem_below (ha : Accounted chain trace n) (hc : chain = above ++ h :: below)
    (habove : ∀ g ∈ above,g.entry.isEnsure = false) {j : Nat} (he : .entered j ∈ trace)
    (hj : j ≠ h.jmp) : j ∈ below.map Handler.jmp ↔ j ∈ chain.map Handler.jmp := by
  rw [hc,map_append,mem_append,map_cons,mem_cons]
  constructor
  · exact fun hb => .inr (.inr hb)
  · rintro (hb | hb | hb)
    · obtain ⟨g,hg,rfl⟩ := List.mem_map.mp hb
      have hens := (ha.kinds g (by rw [hc]; exact mem_append_left _ hg)).mpr he
      rw [habove g hg] at hens
      cases hens
    · exact absurd hb hj
    · exact hb

theorem Accounted.fire (ha : Accounted chain trace n)
    (hdec : (chain.map Handler.jmp).Pairwise (· > ·)) (hc : chain = above ++ h :: below)
    (habove : ∀ g ∈ above,g.entry.isEnsure = false) (hens : h.entry.isEnsure = true)
    (hn : n ≤ n') : Accounted below (.ran h.jmp :: trace) n' := by
  have hsub : ∀ g ∈ below,g ∈ chain := fun g hg => by simp [hc,hg]
  have hmem : h ∈ chain := by simp [hc]
  have hent := (ha.kinds h hmem).mp hens
  have hnot : h.jmp ∉ below.map Handler.jmp := by
    intro hin
    rw [hc,map_append,map_cons,pairwise_append,pairwise_cons] at hdec
    have := hdec.2.1.1 _ hin
    omega
  refine ⟨fun g hg => ?_,fun i hi => ?_,fun i hi => ?_,fun i hi => ?_,?_⟩
  · rw [ha.kinds g (hsub g hg)]
    simp
  · exact Nat.lt_of_lt_of_le (ha.below i (by simpa using hi)) hn
  · rcases mem_cons.mp hi with hi | hi
    · cases hi
      exact mem_cons_of_mem _ hent
    · exact mem_cons_of_mem _ (ha.ranEntered i hi)
  · have hi : .entered i ∈ trace := by simpa using hi
    by_cases hih : i = h.jmp
    · subst hih
      have hzero := ha.runs _ hi
      rw [if_pos (List.mem_map_of_mem hmem)] at hzero
      rw [count_cons_self,hzero,if_neg hnot]
    · rw [count_cons_of_ne (by simpa using Ne.symm hih),ha.runs i hi]
      simp only [ha.mem_below hc habove hi hih]
  · exact ⟨fun j hj he => ha.ran_of_later hdec hc habove hj he,ha.order⟩

theorem Accounted.leave (ha : Accounted chain trace n) (hc : chain = above ++ h :: below)
    (habove : ∀ g ∈ above,g.entry.isEnsure = false) (hens : h.entry.isEnsure = false)
    (hn : n ≤ n') : Accounted below trace n' := by
  have hsub : ∀ g ∈ below,g ∈ chain := fun g hg => by simp [hc,hg]
  refine ⟨fun g hg => ha.kinds g (hsub g hg),fun i hi => Nat.lt_of_lt_of_le (ha.below i hi) hn,
    ha.ranEntered,fun i hi => ?_,ha.order⟩
  have hih : i ≠ h.jmp := by
    rintro rfl
    have := (ha.kinds h (by simp [hc])).mpr hi
    rw [hens] at this
    cases this
  have hcount := ha.runs i hi
  simp only [ha.mem_below hc habove hi hih]
  exact hcount

theorem Accounted.handled (ha : Accounted chain trace n) {i : Nat}
    (hlater : ∀ j,i < j → .entered j ∈ trace → .ran j ∈ trace) :
    Accounted chain (.handled i :: trace) n := by
  refine ⟨?_,?_,?_,?_,hlater,ha.order⟩
  · simpa using ha.kinds
  · simpa using ha.below
  · simpa using ha.ranEntered
  · simpa using ha.runs

theorem Accounted.enter (ha : Accounted chain trace n) (hbelow : ∀ g ∈ chain,g.jmp < n)
    (hj : h.jmp = n) {trace' : List EvalEvent}
    (htrace : trace' = if h.entry.isEnsure then .entered n :: trace else trace) :
    Accounted (h :: chain) trace' (n + 1) := by
  have hfresh : .entered n ∉ trace := fun he => by
    have := ha.below _ he
    omega
  have hrun : .ran n ∉ trace := fun hr => hfresh (ha.ranEntered _ hr)
  have hent : ∀ i,.entered i ∈ trace' ↔ .entered i ∈ trace ∨ i = n ∧ h.entry.isEnsure = true := by
    intro i
    subst htrace
    cases h.entry.isEnsure <;> simp [or_comm]
  have hran : ∀ i,trace'.count (.ran i) = trace.count (.ran i) := by
    intro i
    subst htrace
    cases h.entry.isEnsure <;> simp
  refine ⟨fun g hg => ?_,fun i hi => ?_,fun i hi => ?_,fun i hi => ?_,?_⟩
  · rw [hent]
    rcases mem_cons.mp hg with rfl | hg
    · rw [hj]
      simp [hfresh]
    · have := hbelow g hg
      rw [ha.kinds g hg]
      exact ⟨.inl,fun he => he.elim id (fun he => by omega)⟩
  · rcases (hent i).mp hi with hi | ⟨hi,-⟩
    · exact Nat.lt_succ_of_lt (ha.below i hi)
    · omega
  · rw [hent]
    have hi : .ran i ∈ trace := by
      rw [← count_pos_iff] at hi ⊢
      rwa [hran] at hi
    exact .inl (ha.ranEntered i hi)
  · rw [hran]
    rcases (hent i).mp hi with hi | ⟨rfl,-⟩
    · have hlt := ha.below i hi
      simp only [map_cons,mem_cons,hj,Nat.ne_of_lt hlt,false_or]
      exact ha.runs i hi
    · simp [hj,count_eq_zero,hrun]
  · subst htrace
    split
    · exact ha.order
    · exact ha.order

theorem Accounted.step {chain' : List Handler} {trace' : List EvalEvent}
    (ha : Accounted chain trace n) (hdec : (chain.map Handler.jmp).Pairwise (· > ·))
    (hbelow : ∀ g ∈ chain,g.jmp < n) (hs : ChainStep chain trace n chain' trace' n') :
    Accounted chain' trace' n' := by
  cases hs with
  | keep => exact ha
  | enter hj htrace => exact ha.enter hbelow hj htrace
  | @leave h _ hc hens =>
    exact ha.leave (show chain = [] ++ h :: chain' from hc) (by simp) hens (Nat.le_refl _)
  | handle hc habove hens hn =>
    have hleft := ha.leave hc habove hens hn
    exact hleft.handled (fun j hj he => ha.ran_of_later hdec hc habove hj he)
  | fire hc habove hens hn => exact ha.fire hdec hc habove hens hn

end

/-- The machine on the root actor, with its books. -/
structure HandlersOk (s : Ctl) : Prop where
  rootOnly : RootOnly s
  stacked : Stacked s.pending (s.chains rootActor) s.nextId
  accounted : Accounted (s.chains rootActor) s.trace s.nextId

section

variable {strict : Prop} {s t : Ctl}

theorem HandlersOk.step (hok : HandlersOk s) (hstrict : strict) (hs : CtlStep strict s t) :
    HandlersOk t := by
  obtain ⟨hst,hchain⟩ := hok.stacked.step hok.rootOnly hs
  obtain ⟨hdec,hmem⟩ := hok.stacked.chainOf.decreasing hok.stacked.ids
  refine ⟨hok.rootOnly.step hs,hst,hok.accounted.step hdec (fun g hg => ?_) (hchain hstrict)⟩
  obtain ⟨p,hp,hid⟩ := hmem g hg
  exact hid ▸ hok.stacked.below p hp

theorem Jumps.not_suffix {c : Nat} {target : Handler} (hj : Jumps strict c target s t) :
    ¬t.pending <:+ s.pending := by
  intro hsuffix
  obtain @⟨above,below,h,g,q,qs,hc,habove,hjmp,hne,hdrop,hstage⟩ := hj
  have hq : q :: qs <:+ s.pending := hdrop ▸ dropWhile_suffix _
  have heq := (suffix_of_suffix_length_le hq hsuffix (by simp)).eq_of_length (by simp)
  have := congrArg Pending.stage (List.cons.inj heq).1
  rw [hstage] at this
  cases this

theorem HandlersOk.completed (hok : HandlersOk s) (hs : CtlStep strict s t) {p : Pending}
    (hp : s.pending = p :: t.pending) : t.chains rootActor = p.prev := by
  have hc := hok.stacked.chainOf
  have hroot : p.caller.actor = rootActor :=
    hok.rootOnly.callers p (by rw [hp]; exact mem_cons_self)
  have hlen : s.pending.length = t.pending.length + 1 := by rw [hp,length_cons]
  have hsuffix : t.pending <:+ s.pending := hp ▸ suffix_cons _ _
  cases hs with
  | stay => omega
  | onDo | ensure =>
    rw [length_cons] at hlen
    omega
  | @bodyDone q ps h hq hstage =>
    obtain rfl : q = p := (List.cons.inj (hq.symm.trans hp)).1
    rw [hq] at hc
    obtain ⟨hchain,-⟩ := hc.of_onDo hstage
    simp [hroot,hchain]
  | @blockDone q ps hq hstage =>
    obtain rfl : q = p := (List.cons.inj (hq.symm.trans hp)).1
    rw [hq] at hc
    exact (hc.of_atBlock hstage).1
  | ensureDone hq hstage => simp [hq] at hlen
  | signal hq _ hu =>
    cases hu with
    | fire =>
      rw [length_cons] at hlen
      dsimp only at hlen
      omega
    | jump hj => exact absurd hsuffix hj.not_suffix
  | @goOn q ps exception target i _ hq hstage hu =>
    cases hu with
    | fire => simp [hq] at hlen
    | jump hj =>
      obtain rfl : ps = t.pending := (List.cons.inj (hq.symm.trans hp)).2
      exact absurd (suffix_refl _) hj.not_suffix
  | dead hj => exact absurd hsuffix hj.not_suffix

theorem HandlersOk.waits (hok : HandlersOk s) {i : Nat} (he : .entered i ∈ s.trace)
    (hi : i ∈ (s.chains rootActor).map Handler.jmp) :
    ∃ p ∈ s.pending,p.id = i ∧ ∃ h,p.stage = .ensureBody h := by
  obtain ⟨h,hh,rfl⟩ := List.mem_map.mp hi
  obtain ⟨above,below,hc⟩ := append_of_mem hh
  obtain ⟨q,qs,hdrop,hguards,hid,-⟩ := hok.stacked.chainOf.split hok.stacked.ids hc
  refine ⟨q,(dropWhile_sublist _).subset (hdrop ▸ mem_cons_self),hid,h,?_⟩
  rcases hguards with ⟨-,hens⟩ | ⟨hs,-⟩
  · rw [(hok.accounted.kinds h hh).mpr he] at hens
    cases hens
  · exact hs

end

/-! ### Runs -/

section

variable {ω : Type}

/-- A thread before its first instruction, on the root actor and without handlers. -/
structure Fresh (vm : Vm ω) : Prop where
  actor : vm.loop.actor = rootActor
  pending : vm.pending = []
  chain : vm.chain rootActor = []
  trace : vm.trace = []

theorem Fresh.handlersOk {vm : Vm ω} (h : Fresh vm) : HandlersOk vm.ctl := by
  have hp : vm.ctl.pending = [] := h.pending
  have hc : vm.ctl.chains rootActor = [] := h.chain
  have ht : vm.ctl.trace = [] := h.trace
  refine ⟨⟨h.actor,by simp [hp]⟩,?_,?_⟩
  · rw [hp,hc]
    exact ⟨.nil,by simp,.nil⟩
  · rw [hc,ht]
    exact ⟨by simp,by simp,by simp,by simp,trivial⟩

/-- Each ensure block runs at most once, and once its body has been left exactly once; before the
blocks of the calls around it; and the handler chain is that of the call that goes on. -/
structure EnsuresRun (vm : Vm ω) : Prop where
  atMostOnce : ∀ id,vm.trace.count (.ran id) ≤ 1
  onceLeft : ∀ id,.entered id ∈ vm.trace →
    (∀ p ∈ vm.pending,p.id = id → ∀ h,p.stage ≠ .ensureBody h) → vm.trace.count (.ran id) = 1
  onlyEntered : ∀ id,.ran id ∈ vm.trace → .entered id ∈ vm.trace
  order : InOrder vm.trace
  chain : ∀ p ps,vm.pending = p :: ps → p.atBlock → vm.chain rootActor = p.prev

theorem HandlersOk.ensuresRun {vm : Vm ω} (h : HandlersOk vm.ctl) : EnsuresRun vm := by
  have ha := h.accounted
  refine ⟨fun id => ?_,fun id he hleft => ?_,ha.ranEntered,ha.order,fun p ps hp hb => ?_⟩
  · by_cases hr : .ran id ∈ vm.trace
    · have := ha.runs id (ha.ranEntered id hr)
      change vm.trace.count _ = _ at this
      split at this <;> omega
    · rw [count_eq_zero.mpr hr]
      omega
  · have hout : id ∉ (vm.ctl.chains rootActor).map Handler.jmp := by
      intro hi
      obtain ⟨p,hp,hid,g,hs⟩ := h.waits he hi
      exact hleft p hp hid g hs
    have := ha.runs id he
    rwa [if_neg hout] at this
  · have hc := h.stacked.chainOf
    simp only [Vm.ctl,hp] at hc
    exact (hc.of_atBlock hb).1

/-- If no non-local return without a home cuts an ensure entry off the chain, ensure blocks run as
they should in every run on the root actor. -/
theorem ensure_blocks_run_once (env : Env ω) (failed : World ω → List Oop → Option Oop)
    {vm₀ vm : Vm ω} (h₀ : Fresh vm₀)
    (hrun : Path (threadStep env failed) (fun vm _ => unwindsEnsures env vm) vm₀ vm) :
    EnsuresRun vm ∧ ∀ vm' p,vmStep env failed vm = .ok vm' → vm.pending = p :: vm'.pending →
        vm'.chain rootActor = p.prev := by
  have hok : HandlersOk vm.ctl := by
    refine hrun.invariant (I := fun vm => HandlersOk vm.ctl) h₀.handlersOk ?_
    intro vm₁ _ vm₂ hok hstrict hs
    exact hok.step hstrict (vmStep_ctl (threadStep_some hs))
  exact ⟨hok.ensuresRun,fun vm' p hs hp => hok.completed (vmStep_ctl hs) hp⟩

end

/-! ### Two programs -/

/-- `^self main`. -/
def callMain : CompiledMethod :=
  ⟨methodHeader 0 0 1 0 false false,[272],[0x02,0,0x20,0,0x30,0]⟩

def primitiveMethod (nArgs index : Nat) : CompiledMethod :=
  ⟨methodHeader nArgs nArgs 0 index true false,[],[0x52,index,0x31,0]⟩

/-- The object 768 understands `main`, blocks `on:do:`, `ensure:` and `value`, and the exception
800 `signal`. -/
def protectEnv (main : CompiledMethod) : Env Unit :=
  tableEnv [(1024,callMain),(1040,main),(1056,primitiveMethod 2 88),(1072,primitiveMethod 1 90),
      (1088,primitiveMethod 0 89),(1104,primitiveMethod 0 81)]
    [((528,272),1040),((560,288),1056),((560,304),1072),((592,320),1088),((560,336),1104)]
    [(272,0),(288,2),(304,1),(320,0),(336,0)] []

def protectWorld : World Unit where
  heap := ⟨8192,4096,0⟩
  mem := tableMemory [(512,plainObj 16 [16,528,1,16]),(544,plainObj 16 [16,560,1,16]),
    (576,plainObj 16 [16,592,1,16]),(768,plainObj 2 []),
    (800,plainObj clsBlockCannotReturn [16,16,16,16]),
    (1296,plainObj clsArray [16,576]),(1312,plainObj clsArray [16,800]),
    (1328,plainObj clsBlockDescriptor [5,37,1,1,1]),
    (1344,plainObj clsBlockDescriptor [9,13,1,1,1]),
    (1360,plainObj clsBlockDescriptor [25,9,1,1,1]),
    (1376,plainObj clsBlockDescriptor [49,9,3,1,1]),
    (1392,plainObj clsBlockDescriptor [5,13,1,1,1])]
  classTable := classTableOf [(2,512),(clsBlockClosure,544),(clsBlockCannotReturn,576)]
  handlers := []
  signaled := 0
  rest := ()

/-- `^[[^1] ensure: [2]] on: BlockCannotReturn do: [:e | 3]`. -/
def returnMain : CompiledMethod :=
  ⟨methodHeader 0 1 8 0 false true,[1328,1344,1360,304,1296,1376,288,512],
    [0x61,0,0x61,1,0x0E,0,0x35,0,0x30,0,0x61,2,0x0F,0,0x30,0,0x20,3,0x30,0,
      0x09,4,0x61,5,0x0B,3,0x30,0,0x20,6,0x30,0]⟩

/-- `^[[Problem signal] ensure: [2]] on: BlockCannotReturn do: [:e | 3]`. -/
def signalMain : CompiledMethod :=
  ⟨methodHeader 0 1 10 0 false false,[1328,1344,1312,320,1360,304,1296,1376,288,512],
    [0x60,0,0x60,1,0x09,2,0x20,3,0x30,0,0x60,4,0x0F,0,0x30,0,0x20,5,0x30,0,
      0x09,6,0x60,7,0x0B,3,0x30,0,0x20,8,0x30,0]⟩

def protectStart (a : Nat) : Vm Unit := startVm a protectWorld 16 1024 callMain 768

def noFailure : World Unit → List Oop → Option Oop := fun _ _ => none

theorem protectStart_fresh : Fresh (protectStart rootActor) := ⟨rfl,rfl,rfl,rfl⟩

/-- The signal goes through the ensure block to the handler. -/
theorem ensure_blocks_run_once_signal : ∃ vm,Path (threadStep (protectEnv signalMain) noFailure)
        (fun vm _ => unwindsEnsures (protectEnv signalMain) vm) (protectStart rootActor) vm ∧
      EnsuresRun vm ∧ vm.trace = [.handled 1,.ran 2,.entered 2] := by
  have hpath : Path (threadStep (protectEnv signalMain) noFailure)
      (fun vm _ => unwindsEnsures (protectEnv signalMain) vm) (protectStart rootActor) _ :=
    runAll_path (List.replicate 13 ()) rfl
  exact ⟨_,hpath,(ensure_blocks_run_once _ _ protectStart_fresh hpath).1,rfl⟩

/-- A non-local return out of the body goes to the `on:do:` around it, and the ensure block never
runs. -/
theorem dead_return_skips_ensure : Fresh (protectStart rootActor) ∧
      ∃ vm,Path (threadStep (protectEnv returnMain) noFailure) (fun _ _ => True)
        (protectStart rootActor) vm ∧ ¬EnsuresRun vm := by
  refine ⟨protectStart_fresh,_,runAll_path (List.replicate 11 ()) rfl,fun hensures => ?_⟩
  -- the only activation that waits is the first one
  have honce := hensures.onceLeft 2 (by decide) (by
    rintro p (_ | ⟨_,⟨⟩⟩) hid
    cases hid)
  exact absurd honce (by decide)

end SmalltalkA
