import SmalltalkA.Interpreter.Tables

/-! Handler chains and waiting C activations. `on:do:`, `ensure:` and signals see of a thread only
whose loop runs, the handler chains, the waiting activations and what has been evaluated. -/

set_option autoImplicit false

namespace SmalltalkA

open List Function

/-- The part of a thread that the block-evaluating primitives work on. -/
structure Ctl where
  /-- the actor of the running loop -/
  actor : Nat
  chains : Nat → List Handler
  pending : List Pending
  trace : List EvalEvent
  nextId : Nat

/-- The jump to an `on:do:`. Under `strict` no ensure entry is above it on the chain. -/
inductive Jumps (strict : Prop) (c : Nat) (target : Handler) (s : Ctl) : Ctl → Prop where
  | mk {above below : List Handler} {h g : Handler} {q : Pending} {qs : List Pending} :
      s.chains c = above ++ h :: below → (strict → ∀ g ∈ above,g.entry.isEnsure = false) →
      h.jmp = target.jmp → target.jmp ≠ 0 →
      s.pending.dropWhile (fun q => q.id != target.jmp) = q :: qs → q.stage = .onDo g →
      Jumps strict c target s
        ⟨rootActor,update s.chains c below,{ q with stage := .handler } :: qs,
          .handled q.id :: s.trace,s.nextId⟩

/-- The unwinding loop stops at the first ensure entry, or jumps to the target. -/
inductive Unwinds (p : Pending) (exception : Oop) (target : Handler) (s : Ctl) : Ctl → Prop where
  | fire {above below : List Handler} {h : Handler} :
      s.chains p.caller.actor = above ++ h :: below →
      (∀ g ∈ above,g.entry.isEnsure = false) → h.entry.isEnsure = true →
      Unwinds p exception target s
        ⟨rootActor,update s.chains p.caller.actor below,
          { p with stage := .unwinding exception target h.jmp } :: s.pending,
          .ran h.jmp :: s.trace,s.nextId⟩
  | jump {t : Ctl} : Jumps True p.caller.actor target s t → Unwinds p exception target s t

/-- A call that waits, with its entry on the chain of the calling actor. -/
structure Ctl.Calls (s : Ctl) (p : Pending) (h : Handler) : Prop where
  id : p.id = s.nextId
  jmp : h.jmp = s.nextId
  prev : p.prev = s.chains s.actor
  caller : p.caller.actor = s.actor

/-- One step. Only a non-local return without a home may be not `strict`. -/
inductive CtlStep (strict : Prop) (s : Ctl) : Ctl → Prop where
  | stay : CtlStep strict s s
  | onDo {p : Pending} {h : Handler} : s.Calls p h → p.stage = .onDo h →
      h.entry.isEnsure = false →
      CtlStep strict s ⟨rootActor,update s.chains s.actor (h :: s.chains s.actor),
        p :: s.pending,s.trace,s.nextId + 1⟩
  | ensure {p : Pending} {h : Handler} : s.Calls p h → p.stage = .ensureBody h →
      h.entry.isEnsure = true →
      CtlStep strict s ⟨rootActor,update s.chains s.actor (h :: s.chains s.actor),
        p :: s.pending,.entered s.nextId :: s.trace,s.nextId + 1⟩
  | bodyDone {p : Pending} {ps : List Pending} {h : Handler} : s.pending = p :: ps →
      p.stage = .onDo h →
      CtlStep strict s ⟨p.caller.actor,
        update s.chains p.caller.actor (s.chains p.caller.actor).tail,ps,s.trace,s.nextId⟩
  | blockDone {p : Pending} {ps : List Pending} : s.pending = p :: ps →
      p.stage = .handler ∨ (∃ r,p.stage = .ensureBlock r) →
      CtlStep strict s ⟨p.caller.actor,s.chains,ps,s.trace,s.nextId⟩
  | ensureDone {p : Pending} {ps : List Pending} {h : Handler} {v : Oop} : s.pending = p :: ps →
      p.stage = .ensureBody h →
      CtlStep strict s ⟨rootActor,
        update s.chains p.caller.actor (s.chains p.caller.actor).tail,
        { p with stage := .ensureBlock v } :: ps,.ran p.id :: s.trace,s.nextId⟩
  | signal {p : Pending} {exception : Oop} {target : Handler} {t : Ctl} : p.id = s.nextId →
      p.caller.actor = s.actor → Unwinds p exception target { s with nextId := s.nextId + 1 } t →
      CtlStep strict s t
  | goOn {p : Pending} {ps : List Pending} {exception : Oop} {target : Handler} {i : Nat}
      {t : Ctl} : s.pending = p :: ps → p.stage = .unwinding exception target i →
      Unwinds p exception target { s with actor := p.caller.actor,pending := ps } t →
      CtlStep strict s t
  | dead {target : Handler} {t : Ctl} : Jumps strict s.actor target s t → CtlStep strict s t

/-! ### The thread refines the machine -/

section

variable {ω : Type} {env : Env ω} {failed : World ω → List Oop → Option Oop} {vm vm' : Vm ω}
  {strict : Prop}

def Vm.ctl (vm : Vm ω) : Ctl := ⟨vm.loop.actor,vm.chain,vm.pending,vm.trace,vm.nextId⟩

theorem Vm.SameControl.ctl (h : vm.SameControl vm') : vm'.ctl = vm.ctl := by
  simp [Vm.ctl,h.chain,h.pending,h.trace,h.nextId,h.actor]

variable {p : Pending}

theorem Vm.Entered.ctl (h : vm.Entered vm' p) :
    vm'.ctl = ⟨rootActor,vm.chain,p :: vm.pending,vm.trace,vm.nextId⟩ := by
  simp [Vm.ctl,h.chain,h.pending,h.trace,h.nextId,h.actor]

theorem longjmp_ctl {target : Handler} (h : longjmp env vm target = .ok vm') :
    target.jmp ≠ 0 ∧ ∃ q qs g,
      vm.pending.dropWhile (fun q => q.id != target.jmp) = q :: qs ∧ q.stage = .onDo g ∧
      vm'.ctl = ⟨rootActor,vm.chain,{ q with stage := .handler } :: qs,
        .handled q.id :: vm.trace,vm.nextId⟩ := by
  unfold longjmp at h
  split at h
  · cases h
  rename_i hjmp
  split at h
  · rename_i q qs hdrop
    split at h
    · rename_i g hstage
      have he := evalBlock_ok h
      refine ⟨hjmp,q,qs,g,hdrop,hstage,?_⟩
      rw [he.ctl]
      change Ctl.mk _ (Vm.chain (vm.setStack _ _)) _ _ _ = _
      rw [Vm.chain_setStack]
      rfl
    · cases h
  · cases h

theorem unwind_ctl {exception : Oop} {target : Handler} (above : List Handler) :
    ∀ {chain : List Handler},vm.chain p.caller.actor = above ++ chain →
      (∀ g ∈ above,g.entry.isEnsure = false) →
      unwind env vm p exception target chain = .ok vm' →
      Unwinds p exception target vm.ctl vm'.ctl
  | [],_,_,h => by cases h
  | h :: prev,hchain,habove,hu => by
    unfold unwind at hu
    split at hu
    · rename_i hjmp
      obtain ⟨hne,q,qs,g,hdrop,hstage,hctl⟩ := longjmp_ctl hu
      have hjump : Jumps True p.caller.actor target vm.ctl _ :=
        .mk hchain (fun _ => habove) hjmp hne hdrop hstage
      rw [hctl,Vm.chain_setSignaled,Vm.chain_setHandlers]
      exact .jump hjump
    · split at hu
      · rename_i hens
        have he := evalBlock_ok hu
        have hfire : Unwinds p exception target vm.ctl _ := .fire hchain habove hens
        rw [he.ctl]
        change Unwinds _ _ _ _ ⟨_,(vm.setHandlers _ _).chain,_,_,_⟩
        rw [Vm.chain_setHandlers]
        exact hfire
      · rename_i hne hens
        refine unwind_ctl (above ++ [h]) (by simpa using hchain) ?_ hu
        intro g hg
        rw [mem_append,mem_singleton] at hg
        rcases hg with hg | rfl
        · exact habove g hg
        · simpa using hens

theorem signalException_ctl {len : Option Nat} {exception : Oop}
    (h : signalException env vm len exception = .ok vm') : CtlStep strict vm.ctl vm'.ctl := by
  unfold signalException at h
  obtain ⟨o,-,h⟩ := bindVm_ok h
  cases o with
  | none => cases h
  | some target => exact .signal rfl rfl (unwind_ctl [] rfl (fun _ hg => by cases hg) h)

theorem callSpecial_ctl {len : Option Nat} {args : List Oop} {sp : Special}
    (h : callSpecial env vm len args sp = .ok vm') : CtlStep strict vm.ctl vm'.ctl := by
  cases sp with
  | onDo =>
    simp only [callSpecial,primOnDo] at h
    split at h
    · rw [(evalBlock_ok h).ctl]
      change CtlStep _ _ ⟨_,(vm.setHandlers _ _).chain,_,_,_⟩
      rw [Vm.chain_setHandlers]
      exact .onDo ⟨rfl,rfl,rfl,rfl⟩ rfl rfl
    · cases h
  | ensure =>
    simp only [callSpecial,primEnsure] at h
    split at h
    · rw [(evalBlock_ok h).ctl]
      change CtlStep _ _ ⟨_,(vm.setHandlers _ _).chain,_,_,_⟩
      rw [Vm.chain_setHandlers]
      exact .ensure ⟨rfl,rfl,rfl,rfl⟩ rfl rfl
    · cases h
  | signal =>
    simp only [callSpecial,primSignal] at h
    split at h
    · exact signalException_ctl h
    · cases h
  | failedWait reason =>
    simp only [callSpecial,signalFutureFailure] at h
    split at h
    · cases h
    · obtain ⟨w,-,h⟩ := bindVm_ok h
      rw [← (setExec_sameControl vm ⟨w,vm.own.stack⟩).ctl]
      exact signalException_ctl h

theorem succeed_sameControl (vm : Vm ω) (p : Pending) (v : Oop) : vm.SameControl (succeed vm p v) :=
  setExec_sameControl vm _

theorem resume_ctl {v : Oop} (hloop : vm.loop = p.caller) (a : Nat)
    (h : resume env vm p v = .ok vm') :
    CtlStep strict ⟨a,vm.chain,p :: vm.pending,vm.trace,vm.nextId⟩ vm'.ctl := by
  have hactor : vm.loop.actor = p.caller.actor := by rw [hloop]
  have hown : vm.own.handlers = vm.chain p.caller.actor := by
    rw [← hactor]
    rfl
  unfold resume at h
  rw [hown] at h
  split at h
  · rename_i hd hstage
    cases h
    rw [(succeed_sameControl _ p v).ctl]
    simp only [Vm.ctl,Vm.chain_setHandlers]
    change CtlStep _ _ ⟨vm.loop.actor,_,_,_,_⟩
    rw [hactor]
    exact .bodyDone rfl hstage
  · rename_i hstage
    cases h
    rw [(succeed_sameControl vm p v).ctl]
    simp only [Vm.ctl,hactor]
    exact .blockDone rfl (.inl hstage)
  · rename_i hd hstage
    rw [(evalBlock_ok h).ctl]
    change CtlStep _ _ ⟨_,(vm.setHandlers _ _).chain,_,_,_⟩
    rw [Vm.chain_setHandlers]
    exact .ensureDone rfl hstage
  · rename_i r hstage
    cases h
    rw [(succeed_sameControl vm p r).ctl]
    simp only [Vm.ctl,hactor]
    exact .blockDone rfl (.inr ⟨r,hstage⟩)
  · rename_i exception target i hstage
    have hu := unwind_ctl [] rfl (fun _ hg => by cases hg) h
    rw [Vm.ctl,hactor] at hu
    exact .goOn rfl hstage hu

theorem finishLoop_ctl {v : Oop} (h : finishLoop env vm v = .ok vm') :
    CtlStep strict vm.ctl vm'.ctl := by
  unfold finishLoop at h
  split at h
  · cases h
  · rename_i p below hpend
    have hctl : vm.ctl = ⟨vm.loop.actor,vm.chain,p :: below,vm.trace,vm.nextId⟩ := by
      rw [Vm.ctl,hpend]
    rw [hctl,← vm.chain_setStack rootActor (vm.actors rootActor).stack.popLoop]
    exact resume_ctl rfl vm.loop.actor h

/-- The entries a dead non-local return takes off the chain without evaluating them. -/
def skipped (env : Env ω) (vm : Vm ω) : List Handler :=
  match vm.nextInsn env with
  | some (f,senders,_,insn) =>
    if control (Opcode.ofCode insn.opcode) = .nonLocalReturn then
      match deadReturn vm f senders with
      | some (result,vm) =>
        match newBlockCannotReturn env vm result with
        | .ok (exc,vm) =>
          match findTarget env vm.world exc vm.own.handlers with
          | .ok (some target) => vm.own.handlers.takeWhile (fun h => h.jmp != target.jmp)
          | _ => []
        | .error _ => []
      | none => []
    else []
  | none => []

def unwindsEnsures (env : Env ω) (vm : Vm ω) : Prop :=
  ∀ h ∈ skipped env vm,h.entry.isEnsure = false

instance (env : Env ω) (vm : Vm ω) : Decidable (unwindsEnsures env vm) :=
  inferInstanceAs (Decidable (∀ h ∈ skipped env vm,h.entry.isEnsure = false))

theorem blockCannotReturn_ctl {f : Frame} {senders : List Frame} {cm : CompiledMethod}
    {insn : Insn} {vm₁ : Vm ω} {result : Oop}
    (hnext : vm.nextInsn env = some (f,senders,cm,insn))
    (hctl : control (Opcode.ofCode insn.opcode) = .nonLocalReturn)
    (hdead : deadReturn vm f senders = some (result,vm₁))
    (h : vmBlockCannotReturn env vm₁ result = .ok vm') :
    CtlStep (unwindsEnsures env vm) vm.ctl vm'.ctl := by
  unfold vmBlockCannotReturn at h
  obtain ⟨⟨exc,vm₂⟩,hnew,h⟩ := bind_ok h
  have hsame : vm₂.ctl = vm.ctl :=
    (newBlockCannotReturn_sameControl hnew).ctl.trans (deadReturn_sameControl hdead).ctl
  obtain ⟨o,hfind,h⟩ := bindVm_ok h
  cases o with
  | none => cases h
  | some target =>
    have hskip : unwindsEnsures env vm → ∀ g ∈ vm₂.own.handlers.takeWhile
        (fun h => h.jmp != target.jmp),g.entry.isEnsure = false := by
      intro hskip
      simpa only [unwindsEnsures,skipped,hnext,hctl,hdead,hnew,hfind,if_true] using hskip
    dsimp only at h
    cases hrest : vm₂.own.handlers.dropWhile (fun h => h.jmp != target.jmp) with
    | nil =>
      have := (dropWhile_eq_nil_iff.mp hrest) target (findTarget_mem hfind)
      simp at this
    | cons t rest =>
      have hsplit := takeWhile_append_dropWhile (p := fun h : Handler => h.jmp != target.jmp)
        (l := vm₂.own.handlers)
      have ht : t.jmp = target.jmp := by
        have := head_dropWhile_not (fun h : Handler => h.jmp != target.jmp)
          (l := vm₂.own.handlers) (by rw [hrest]; simp)
        simpa [hrest] using this
      rw [hrest] at hsplit h
      obtain ⟨hne,q,qs,g,hdrop,hstage,hc⟩ := longjmp_ctl h
      have hjump : Jumps (unwindsEnsures env vm) vm₂.ctl.actor target vm₂.ctl _ :=
        .mk hsplit.symm hskip ht hne hdrop hstage
      rw [hc,← hsame,Vm.chain_setSignaled,Vm.chain_setHandlers]
      exact .dead hjump

theorem vmStep_ctl (h : vmStep env failed vm = .ok vm') :
    CtlStep (unwindsEnsures env vm) vm.ctl vm'.ctl := by
  cases vmStep_move h with
  | inner m _ _ hm =>
    subst hm
    rw [(setMachine_sameControl vm m).ctl]
    exact .stay
  | finish e v _ _ hf =>
    rw [← (setExec_sameControl vm e).ctl]
    exact finishLoop_ctl hf
  | call m len args sp _ hc =>
    rw [← (setMachine_sameControl vm m).ctl]
    exact callSpecial_ctl hc
  | dead f senders cm insn vm₁ result hnext hctl hdead hb =>
    exact blockCannotReturn_ctl hnext hctl hdead hb

def threadStep (env : Env ω) (failed : World ω → List Oop → Option Oop) (vm : Vm ω) (_ : Unit) :
    Option (Vm ω) :=
  (vmStep env failed vm).toOption

theorem threadStep_some {u : Unit} (h : threadStep env failed vm u = some vm') :
    vmStep env failed vm = .ok vm' := by
  unfold threadStep at h
  cases hs : vmStep env failed vm with
  | ok v =>
    rw [hs] at h
    exact congrArg Except.ok (Option.some.inj h)
  | error e =>
    rw [hs] at h
    cases h

end

section

variable {strict : Prop} {s t : Ctl} {above below chain : List Handler} {h : Handler}

/-- The activations of a later state have waited before, or the running loop has just made the call.
-/
structure Ctl.From (s : Ctl) (pending : List Pending) : Prop where
  mem : ∀ p ∈ pending,(∃ q ∈ s.pending,p.id = q.id ∧ p.caller = q.caller) ∨
    p.id = s.nextId ∧ p.caller.actor = s.actor

theorem Ctl.From.cons {p : Pending} {ps : List Pending}
    (hp : (∃ q ∈ s.pending,p.id = q.id ∧ p.caller = q.caller) ∨
      p.id = s.nextId ∧ p.caller.actor = s.actor) (hps : ∀ q ∈ ps,q ∈ s.pending) :
    s.From (p :: ps) := by
  refine ⟨fun q hq => ?_⟩
  rcases mem_cons.mp hq with rfl | hq
  · exact hp
  · exact .inl ⟨q,hps q hq,rfl,rfl⟩

variable {target : Handler} {exception : Oop} {p : Pending} {ps : List Pending}

theorem Jumps.from {c : Nat} {u : Ctl} (hj : Jumps strict c target u t)
    (hu : ∀ q ∈ u.pending,q ∈ s.pending) : s.From t.pending := by
  obtain @⟨above,below,h,g,q,qs,hc,habove,hjmp,hne,hdrop,hstage⟩ := hj
  have hsub : (q :: qs).Sublist u.pending := hdrop ▸ dropWhile_sublist _
  exact .cons (.inl ⟨q,hu q (hsub.subset mem_cons_self),rfl,rfl⟩)
    (fun p hp => hu p (hsub.subset (mem_cons_of_mem _ hp)))

theorem Unwinds.from {u : Ctl} (hu : Unwinds p exception target u t) (hp : (∃ q ∈ s.pending,p.id =
      q.id ∧ p.caller = q.caller) ∨ p.id = s.nextId ∧ p.caller.actor = s.actor)
    (hps : ∀ q ∈ u.pending,q ∈ s.pending) : s.From t.pending := by
  cases hu with
  | fire => exact .cons hp hps
  | jump hj => exact hj.from hps

theorem CtlStep.from (hs : CtlStep strict s t) : s.From t.pending := by
  have htail : ∀ {p : Pending} {ps : List Pending},s.pending = p :: ps →
      p ∈ s.pending ∧ ∀ q ∈ ps,q ∈ s.pending := by
    intro p ps hp
    rw [hp]
    exact ⟨mem_cons_self,fun q hq => mem_cons_of_mem _ hq⟩
  cases hs with
  | stay => exact ⟨fun p hp => .inl ⟨p,hp,rfl,rfl⟩⟩
  | onDo hc _ _ | ensure hc _ _ => exact .cons (.inr ⟨hc.id,hc.caller⟩) (fun _ hq => hq)
  | bodyDone hp _ | blockDone hp _ => exact ⟨fun q hq => .inl ⟨q,(htail hp).2 q hq,rfl,rfl⟩⟩
  | ensureDone hp _ => exact .cons (.inl ⟨_,(htail hp).1,rfl,rfl⟩) (htail hp).2
  | signal hid hc hu => exact hu.from (.inr ⟨hid,hc⟩) (fun _ hq => hq)
  | goOn hp _ hu => exact hu.from (.inl ⟨_,(htail hp).1,rfl,rfl⟩) (htail hp).2
  | dead hj => exact hj.from (fun _ hq => hq)

theorem Unwinds.rest (hu : Unwinds p exception target s t) :
    t.nextId = s.nextId ∧ t.actor = rootActor := by
  cases hu with
  | fire => exact ⟨rfl,rfl⟩
  | jump hj =>
    cases hj
    exact ⟨rfl,rfl⟩

theorem CtlStep.nextId_le (hs : CtlStep strict s t) : s.nextId ≤ t.nextId := by
  cases hs with
  | stay | bodyDone | blockDone | ensureDone => exact Nat.le_refl _
  | onDo | ensure => exact Nat.le_succ _
  | signal _ _ hu =>
    rw [hu.rest.1]
    exact Nat.le_succ _
  | goOn _ _ hu => exact Nat.le_of_eq hu.rest.1.symm
  | dead hj =>
    cases hj
    exact Nat.le_refl _

theorem CtlStep.actor_cases (hs : CtlStep strict s t) :
    t.actor = rootActor ∨ t.actor = s.actor ∨ ∃ p ∈ s.pending,t.actor = p.caller.actor := by
  cases hs with
  | stay => exact .inr (.inl rfl)
  | onDo | ensure | ensureDone => exact .inl rfl
  | bodyDone hp _ | blockDone hp _ => exact .inr (.inr ⟨_,by rw [hp]; exact mem_cons_self,rfl⟩)
  | signal _ _ hu => exact .inl hu.rest.2
  | goOn _ _ hu => exact .inl hu.rest.2
  | dead hj =>
    cases hj
    exact .inl rfl

/-- Everything runs on the root actor. -/
structure RootOnly (s : Ctl) : Prop where
  actor : s.actor = rootActor
  callers : ∀ p ∈ s.pending,p.caller.actor = rootActor

theorem RootOnly.step (hr : RootOnly s) (hs : CtlStep strict s t) : RootOnly t := by
  refine ⟨?_,fun p hp => ?_⟩
  · rcases hs.actor_cases with h | h | ⟨p,hp,h⟩
    · exact h
    · exact h.trans hr.actor
    · exact h.trans (hr.callers p hp)
  · rcases hs.from.mem p hp with ⟨q,hq,-,hcaller⟩ | ⟨-,hcaller⟩
    · rw [hcaller]
      exact hr.callers q hq
    · exact hcaller.trans hr.actor

/-! ### Chain and waiting activations -/

def Pending.guards (p : Pending) (h : Handler) : Prop :=
  p.stage = .onDo h ∧ h.entry.isEnsure = false ∨ p.stage = .ensureBody h ∧ h.entry.isEnsure = true

/-- A handler or ensure block is being evaluated after its entry was taken off. -/
def Pending.atBlock (p : Pending) : Prop := p.stage = .handler ∨ ∃ r,p.stage = .ensureBlock r

/-- The chain that belongs to a list of waiting activations. -/
inductive ChainOf : List Pending → List Handler → Prop where
  | nil : ChainOf [] []
  | body {p : Pending} {ps : List Pending} {h : Handler} {c : List Handler} : ChainOf ps c →
      p.guards h → h.jmp = p.id → p.prev = c → ChainOf (p :: ps) (h :: c)
  | block {p : Pending} {ps : List Pending} {c : List Handler} : ChainOf ps c → p.atBlock →
      p.prev = c → ChainOf (p :: ps) c
  | unwinding {p : Pending} {ps : List Pending} {fired c : List Handler} {h : Handler}
      {exception : Oop} {target : Handler} : ChainOf ps (fired ++ h :: c) →
      p.stage = .unwinding exception target h.jmp → ChainOf (p :: ps) c

theorem ChainOf.split {ps : List Pending} (hc : ChainOf ps chain)
    (hids : ps.Pairwise (fun p q => p.id > q.id)) (he : chain = above ++ h :: below) :
    ∃ q qs,ps.dropWhile (fun q => q.id != h.jmp) = q :: qs ∧ q.guards h ∧ q.id = h.jmp ∧
      q.prev = below ∧ ChainOf qs below := by
  have hskip : ∀ {p : Pending} {ps : List Pending},(p :: ps).Pairwise (fun p q => p.id > q.id) →
      (∃ q qs,ps.dropWhile (fun q => q.id != h.jmp) = q :: qs ∧ q.guards h ∧ q.id = h.jmp ∧
        q.prev = below ∧ ChainOf qs below) →
      ∃ q qs,(p :: ps).dropWhile (fun q => q.id != h.jmp) = q :: qs ∧ q.guards h ∧ q.id = h.jmp ∧
        q.prev = below ∧ ChainOf qs below := by
    rintro p ps hids ⟨q,qs,hd,hg,hid,hrest⟩
    refine ⟨q,qs,?_,hg,hid,hrest⟩
    have hq : q ∈ ps := (dropWhile_sublist _).subset (hd ▸ mem_cons_self)
    have hlt := (pairwise_cons.mp hids).1 q hq
    rw [dropWhile_cons_of_pos (by simp; omega),hd]
  induction hc generalizing above with
  | nil => simp at he
  | @body p ps g c hc hg hjmp hprev ih =>
    cases above with
    | nil =>
      obtain ⟨rfl,rfl⟩ : g = h ∧ c = below := by simpa using he
      exact ⟨p,ps,by rw [dropWhile_cons_of_neg (by simp [hjmp])],hg,hjmp.symm,hprev,hc⟩
    | cons a above =>
      obtain ⟨rfl,rfl⟩ : g = a ∧ c = above ++ h :: below := by simpa using he
      exact hskip hids (ih (pairwise_cons.mp hids).2 rfl)
  | block hc _ _ ih => exact hskip hids (ih (pairwise_cons.mp hids).2 he)
  | @unwinding p ps fired c g _ _ hc _ ih =>
    have he' : fired ++ g :: c = (fired ++ g :: above) ++ h :: below := by simp [he]
    exact hskip hids (ih (pairwise_cons.mp hids).2 he')

theorem ChainOf.decreasing (hc : ChainOf ps chain) (hids : ps.Pairwise (fun p q => p.id > q.id)) :
    (chain.map Handler.jmp).Pairwise (· > ·) ∧ ∀ h ∈ chain,∃ p ∈ ps,p.id = h.jmp := by
  induction hc with
  | nil => simp
  | @body p ps g c _ _ hjmp _ ih =>
    obtain ⟨hlt,hids⟩ := pairwise_cons.mp hids
    obtain ⟨hdec,hmem⟩ := ih hids
    refine ⟨pairwise_cons.mpr ⟨fun i hi => ?_,hdec⟩,fun h hh => ?_⟩
    · obtain ⟨h,hh,rfl⟩ := List.mem_map.mp hi
      obtain ⟨q,hq,hid⟩ := hmem h hh
      have := hlt q hq
      omega
    · rcases mem_cons.mp hh with rfl | hh
      · exact ⟨p,mem_cons_self,hjmp.symm⟩
      · obtain ⟨q,hq,hid⟩ := hmem h hh
        exact ⟨q,mem_cons_of_mem _ hq,hid⟩
  | block _ _ _ ih =>
    obtain ⟨hdec,hmem⟩ := ih (pairwise_cons.mp hids).2
    refine ⟨hdec,fun h hh => ?_⟩
    obtain ⟨q,hq,hid⟩ := hmem h hh
    exact ⟨q,mem_cons_of_mem _ hq,hid⟩
  | unwinding _ _ ih =>
    obtain ⟨hdec,hmem⟩ := ih (pairwise_cons.mp hids).2
    rw [map_append,map_cons,pairwise_append,pairwise_cons] at hdec
    refine ⟨hdec.2.1.2,fun h hh => ?_⟩
    obtain ⟨q,hq,hid⟩ := hmem h (mem_append_right _ (mem_cons_of_mem _ hh))
    exact ⟨q,mem_cons_of_mem _ hq,hid⟩

/-! The top activation and the chain. -/

section

variable (hc : ChainOf (p :: ps) chain)

include hc

theorem ChainOf.of_onDo (hs : p.stage = .onDo h) :
    chain = h :: p.prev ∧ h.entry.isEnsure = false ∧ ChainOf ps p.prev := by
  cases hc with
  | body hc hg _ hprev =>
    subst hprev
    rcases hg with ⟨hs',he⟩ | ⟨hs',-⟩
    · cases hs.symm.trans hs'
      exact ⟨rfl,he,hc⟩
    · cases hs.symm.trans hs'
  | block _ hb _ => simp [Pending.atBlock,hs] at hb
  | unwinding _ hs' => cases hs.symm.trans hs'

theorem ChainOf.of_ensureBody (hs : p.stage = .ensureBody h) :
    chain = h :: p.prev ∧ h.entry.isEnsure = true ∧ h.jmp = p.id ∧ ChainOf ps p.prev := by
  cases hc with
  | body hc hg hj hprev =>
    subst hprev
    rcases hg with ⟨hs',-⟩ | ⟨hs',he⟩
    · cases hs.symm.trans hs'
    · cases hs.symm.trans hs'
      exact ⟨rfl,he,hj,hc⟩
  | block _ hb _ => simp [Pending.atBlock,hs] at hb
  | unwinding _ hs' => cases hs.symm.trans hs'

theorem ChainOf.of_atBlock (hb : p.atBlock) :
    chain = p.prev ∧ ChainOf ps p.prev := by
  cases hc with
  | body _ hg =>
    rcases hg with ⟨hs,-⟩ | ⟨hs,-⟩ <;> simp [Pending.atBlock,hs] at hb
  | block hc _ hprev =>
    subst hprev
    exact ⟨rfl,hc⟩
  | unwinding _ hs => simp [Pending.atBlock,hs] at hb

theorem ChainOf.of_unwinding {exc : Oop} {i : Nat}
    (hs : p.stage = .unwinding exc target i) :
    ∃ fired g,g.jmp = i ∧ ChainOf ps (fired ++ g :: chain) := by
  cases hc with
  | body _ hg => rcases hg with ⟨hs',-⟩ | ⟨hs',-⟩ <;> cases hs.symm.trans hs'
  | block _ hb _ => simp [Pending.atBlock,hs] at hb
  | unwinding hc hs' =>
    cases hs.symm.trans hs'
    exact ⟨_,_,rfl,hc⟩

end

/-! ### What a step does to the chain -/

structure Stacked (pending : List Pending) (chain : List Handler) (nextId : Nat) : Prop where
  ids : pending.Pairwise (fun p q => p.id > q.id)
  below : ∀ p ∈ pending,p.id < nextId
  chainOf : ChainOf pending chain

/-- An entry is pushed or taken off, with entries above it that are no ensure entries. -/
inductive ChainStep (chain : List Handler) (trace : List EvalEvent) (n : Nat) :
    List Handler → List EvalEvent → Nat → Prop where
  | keep : ChainStep chain trace n chain trace n
  | enter {h : Handler} {trace' : List EvalEvent} : h.jmp = n →
      trace' = (if h.entry.isEnsure then .entered n :: trace else trace) →
      ChainStep chain trace n (h :: chain) trace' (n + 1)
  | leave {h : Handler} {below : List Handler} : chain = h :: below →
      h.entry.isEnsure = false → ChainStep chain trace n below trace n
  | handle {above below : List Handler} {h : Handler} {n' : Nat} : chain = above ++ h :: below →
      (∀ g ∈ above,g.entry.isEnsure = false) → h.entry.isEnsure = false → n ≤ n' →
      ChainStep chain trace n below (.handled h.jmp :: trace) n'
  | fire {above below : List Handler} {h : Handler} {n' : Nat} : chain = above ++ h :: below →
      (∀ g ∈ above,g.entry.isEnsure = false) → h.entry.isEnsure = true → n ≤ n' →
      ChainStep chain trace n below (.ran h.jmp :: trace) n'

theorem Stacked.top {n : Nat} (h : Stacked (p :: ps) chain n) : (∀ q ∈ ps,q.id < p.id) ∧
      ps.Pairwise (fun p q => p.id > q.id) ∧ p.id < n ∧ ∀ q ∈ ps,q.id < n := by
  have hids := pairwise_cons.mp h.ids
  exact ⟨hids.1,hids.2,h.below p mem_cons_self,fun q hq => h.below q (mem_cons_of_mem _ hq)⟩

theorem Stacked.cons {p : Pending} {ps : List Pending} {n : Nat} (hlt : ∀ q ∈ ps,q.id < p.id)
    (hids : ps.Pairwise (fun p q => p.id > q.id)) (hp : p.id < n)
    (hc : ChainOf (p :: ps) chain) : Stacked (p :: ps) chain n := by
  refine ⟨pairwise_cons.mpr ⟨hlt,hids⟩,fun q hq => ?_,hc⟩
  rcases mem_cons.mp hq with rfl | hq
  · exact hp
  · have := hlt q hq
    omega

variable (fired : List Handler)

theorem Stacked.jump (hj : Jumps strict rootActor target s t)
    (hids : s.pending.Pairwise (fun p q => p.id > q.id)) (hbelow : ∀ p ∈ s.pending,p.id < s.nextId)
    (hchain : ChainOf s.pending (fired ++ s.chains rootActor)) :
    Stacked t.pending (t.chains rootActor) t.nextId ∧ (strict → ∀ n ≤ s.nextId,
      ChainStep (s.chains rootActor) s.trace n (t.chains rootActor) t.trace t.nextId) := by
  obtain @⟨above,below,h,g,q,qs,hc,habove,hjmp,hne,hdrop,hstage⟩ := hj
  have hsplit : fired ++ s.chains rootActor = (fired ++ above) ++ h :: below := by
    rw [hc,append_assoc]
  obtain ⟨q',qs',hdrop',hguards,hid,hprev,hrest⟩ := hchain.split hids hsplit
  rw [hjmp,hdrop] at hdrop'
  obtain ⟨rfl,rfl⟩ : q = q' ∧ qs = qs' := by simpa using hdrop'
  have hens : h.entry.isEnsure = false := by
    rcases hguards with ⟨-,he⟩ | ⟨hs,-⟩
    · exact he
    · cases hstage.symm.trans hs
  have hsub : (q :: qs).Sublist s.pending := hdrop ▸ dropWhile_sublist _
  have hqs := pairwise_cons.mp (hids.sublist hsub)
  rw [hid] at hqs
  simp only [update_self]
  refine ⟨.cons (by simpa [hid] using hqs.1) hqs.2 ?_ (.block hrest (.inl rfl) hprev),
    fun hstrict n hn => ?_⟩
  · exact hbelow q (hsub.subset mem_cons_self)
  · rw [hid]
    exact .handle hc (habove hstrict) hens hn

theorem Stacked.unwinds (hu : Unwinds p exception target s t) (hroot : p.caller.actor = rootActor)
    (hids : s.pending.Pairwise (fun p q => p.id > q.id)) (hlt : ∀ q ∈ s.pending,q.id < p.id)
    (hp : p.id < s.nextId) (hchain : ChainOf s.pending (fired ++ s.chains rootActor)) :
    Stacked t.pending (t.chains rootActor) t.nextId ∧ ∀ n ≤ s.nextId,
      ChainStep (s.chains rootActor) s.trace n (t.chains rootActor) t.trace t.nextId := by
  cases hu with
  | @fire above below h hc habove hens =>
    rw [hroot] at hc
    simp only [hroot,update_self]
    have hfired : ChainOf s.pending ((fired ++ above) ++ h :: below) := by
      rw [append_assoc,← hc]
      exact hchain
    exact ⟨.cons hlt hids hp (.unwinding hfired rfl),fun n hn => .fire hc habove hens hn⟩
  | jump hj =>
    rw [hroot] at hj
    have := Stacked.jump fired hj hids (fun q hq => Nat.lt_trans (hlt q hq) hp) hchain
    exact ⟨this.1,this.2 trivial⟩

/-- On the root actor every step keeps chain and activations together. -/
theorem Stacked.step (hr : RootOnly s) (hst : Stacked s.pending (s.chains rootActor) s.nextId)
    (hs : CtlStep strict s t) :
    Stacked t.pending (t.chains rootActor) t.nextId ∧ (strict →
      ChainStep (s.chains rootActor) s.trace s.nextId (t.chains rootActor) t.trace t.nextId) := by
  have hc := hst.chainOf
  have htop : ∀ {p : Pending} {ps : List Pending},s.pending = p :: ps →
      p.caller.actor = rootActor ∧ Stacked (p :: ps) (s.chains rootActor) s.nextId := by
    intro p ps hp
    rw [hp] at hst
    exact ⟨hr.callers p (by rw [hp]; exact mem_cons_self),hst⟩
  have hcalls : ∀ {p : Pending} {h : Handler},s.Calls p h → p.guards h →
      Stacked (p :: s.pending) (h :: s.chains rootActor) (s.nextId + 1) := by
    intro p h hcall hg
    have hprev := hcall.prev
    rw [hr.actor] at hprev
    exact .cons (fun q hq => hcall.id ▸ hst.below q hq) hst.ids (by rw [hcall.id]; omega)
      (.body hc hg (hcall.jmp.trans hcall.id.symm) hprev)
  cases hs with
  | stay => exact ⟨hst,fun _ => .keep⟩
  | onDo hcall hstage hens =>
    simp only [hr.actor,update_self]
    exact ⟨hcalls hcall (.inl ⟨hstage,hens⟩),fun _ => .enter hcall.jmp (by simp [hens])⟩
  | ensure hcall hstage hens =>
    simp only [hr.actor,update_self]
    exact ⟨hcalls hcall (.inr ⟨hstage,hens⟩),fun _ => .enter hcall.jmp (by simp [hens])⟩
  | bodyDone hp hstage =>
    obtain ⟨hroot,hst⟩ := htop hp
    obtain ⟨hchain,hens,hrest⟩ := hst.chainOf.of_onDo hstage
    obtain ⟨-,hids,-,hbelow⟩ := hst.top
    simp only [hroot,update_self,hchain,tail_cons]
    exact ⟨⟨hids,hbelow,hrest⟩,fun _ => .leave rfl hens⟩
  | blockDone hp hstage =>
    obtain ⟨-,hst⟩ := htop hp
    obtain ⟨hchain,hrest⟩ := hst.chainOf.of_atBlock hstage
    obtain ⟨-,hids,-,hbelow⟩ := hst.top
    exact ⟨⟨hids,hbelow,by rw [hchain]; exact hrest⟩,fun _ => .keep⟩
  | @ensureDone p ps h v hp hstage =>
    obtain ⟨hroot,hst⟩ := htop hp
    obtain ⟨hchain,hens,hjmp,hrest⟩ := hst.chainOf.of_ensureBody hstage
    obtain ⟨hlt,hids,hid,-⟩ := hst.top
    simp only [hroot,update_self,hchain,tail_cons,← hjmp]
    rw [← hjmp] at hlt hid
    exact ⟨.cons hlt hids hid (.block hrest (.inr ⟨_,rfl⟩) rfl),
      fun _ => .fire (show h :: p.prev = [] ++ h :: p.prev from rfl) (by simp) hens (Nat.le_refl _)⟩
  | signal hp hcall hu =>
    have := Stacked.unwinds [] hu (hcall.trans hr.actor) hst.ids
      (fun q hq => hp ▸ hst.below q hq) (by simp [hp]) hc
    exact ⟨this.1,fun _ => this.2 _ (Nat.le_succ _)⟩
  | goOn hp hstage hu =>
    obtain ⟨hroot,hst⟩ := htop hp
    obtain ⟨hlt,hids,hid,-⟩ := hst.top
    obtain ⟨fired,g,-,hrest⟩ := hst.chainOf.of_unwinding hstage
    rw [append_cons] at hrest
    have := Stacked.unwinds _ hu hroot hids hlt hid hrest
    exact ⟨this.1,fun _ => this.2 _ (Nat.le_refl _)⟩
  | dead hj =>
    rw [hr.actor] at hj
    have := Stacked.jump [] hj hst.ids hst.below hc
    exact ⟨this.1,fun hstrict => this.2 hstrict _ (Nat.le_refl _)⟩

end

end SmalltalkA
