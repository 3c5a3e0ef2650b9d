import SmalltalkA.Interpreter.Unwinding

/-! Handlers and actors. `on:do:` pushes its entry on the chain of the actor that runs, but
`sta_eval_block` continues on the root actor, with another chain, slab and heap. -/

set_option autoImplicit false

namespace SmalltalkA

open Interleaving List Function

/-- A class is `target` or inherits from it. -/
inductive Inherits (mem : Memory) (nilOop target : Oop) : Oop → Prop where
  | self : target ≠ 0 → target ≠ nilOop → Inherits mem nilOop target target
  | super {cls sup : Oop} : cls ≠ 0 → cls ≠ nilOop → mem.slot cls 0 = some sup →
      Inherits mem nilOop target sup → Inherits mem nilOop target cls

/-- The entries of the calls in whose bodies the thread is, innermost first. An ensure block run by
an unwinding is outside of its own `ensure:`. -/
def enclosing : List Pending → List Handler
  | [] => []
  | p :: ps =>
    match p.stage with
    | .onDo h | .ensureBody h => h :: enclosing ps
    | .handler | .ensureBlock _ => enclosing ps
    | .unwinding _ _ i => ((enclosing ps).dropWhile (fun h => h.jmp != i)).tail

section

variable {ω : Type} (env : Env ω)

def Handles (w : World ω) (exception : Oop) (h : Handler) : Prop :=
  h.entry.isEnsure = false ∧ ∃ i,oopClassIndex w.mem exception = .ok i ∧
    Inherits w.mem env.nilOop h.entry.exceptionClass (classTableGet w i)

/-- `h` is the first entry of the chain that handles the exception. -/
def Innermost (w : World ω) (exception : Oop) (chain : List Handler) (h : Handler) : Prop :=
  ∃ above below,chain = above ++ h :: below ∧ Handles env w exception h ∧
    ∀ g ∈ above,¬Handles env w exception g

def Selects (w : World ω) (exception : Oop) (chain : List Handler) : Option Handler → Prop
  | some h => Innermost env w exception chain h
  | none => ∀ g ∈ chain,¬Handles env w exception g

def HeadsFor (vm : Vm ω) (exception : Oop) (target : Handler) : Prop :=
  ∃ q qs,vm.pending = q :: qs ∧
    ((∃ i,q.stage = .unwinding exception target i) ∨ q.id = target.jmp ∧ q.stage = .handler)

/-- All loops of the thread run on `a`, and a signal goes to the innermost `on:do:` around it, or to
an entry the thread started with. -/
structure OwnHandlers (a : Nat) (base : List Handler) (vm : Vm ω) : Prop where
  actor : vm.loop.actor = a ∧ ∀ p ∈ vm.pending,p.caller.actor = a
  delivered : ∀ len exception vm',signalException env vm len exception = .ok vm' →
    ∃ h,Innermost env vm.world exception (enclosing vm.pending ++ base) h ∧
      HeadsFor vm' exception h
  caught : ∀ len exception,signalException env vm len exception = .error .exception →
    ∃ h ∈ base,Innermost env vm.world exception (enclosing vm.pending ++ base) h
  unhandled : ∀ exception,findTarget env vm.world exception vm.own.handlers = .ok none →
    Selects env vm.world exception (enclosing vm.pending ++ base) none

/-- A thread about to run actor `a`, whose chain holds catch-all entries only; the root actor's may
hold another thread's. -/
structure StartsOn (a : Nat) (base : List Handler) (vm : Vm ω) : Prop where
  actor : vm.loop.actor = a
  pending : vm.pending = []
  chain : vm.chain a = base
  catchAll : ∀ h ∈ base,h.jmp = 0 ∧ h.entry.isEnsure = false
  root : a = rootActor → base = []
  others : ∀ h ∈ vm.chain rootActor,h.jmp < vm.nextId
  nextId : 0 < vm.nextId

variable {env}

/-! ### The search -/

theorem isKindOf_spec {w : World ω} {target : Oop} :
    ∀ {fuel : Nat} {cls : Oop} {b : Bool},isKindOf env w target fuel cls = .ok b →
      (b = true ↔ Inherits w.mem env.nilOop target cls)
  | 0,_,_,h => by cases h
  | fuel + 1,cls,b,h => by
    unfold isKindOf at h
    split at h
    · rename_i hnil
      cases h
      refine ⟨nofun,fun h => ?_⟩
      cases h with
      | self h0 hn | super h0 hn _ _ => exact absurd hnil (by simp [h0,hn])
    · rename_i hnil
      rw [not_or] at hnil
      split at h
      · rename_i heq
        subst heq
        cases h
        exact ⟨fun _ => .self hnil.1 hnil.2,fun _ => rfl⟩
      · rename_i hne
        obtain ⟨sup,hsup,h⟩ := bind_ok h
        rw [isKindOf_spec h]
        have hsup := defined_ok hsup
        refine ⟨fun hi => .super hnil.1 hnil.2 hsup hi,fun hi => ?_⟩
        cases hi with
        | self => exact absurd rfl hne
        | super _ _ hs hi =>
          cases hsup.symm.trans hs
          exact hi

variable {exception : Oop} {p : Pending} {vm : Vm ω} {target : Handler}

theorem findTarget_spec {w : World ω} :
    ∀ {chain : List Handler} {r : Option Handler},findTarget env w exception chain = .ok r →
      Selects env w exception chain r
  | [],r,h => by
    cases h
    simp [Selects]
  | g :: prev,r,h => by
    have hskip : ¬Handles env w exception g → findTarget env w exception prev = .ok r →
        Selects env w exception (g :: prev) r := by
      intro hg h
      have ih := findTarget_spec h
      cases r with
      | none => exact fun g' hg' => (mem_cons.mp hg').elim (fun he => he ▸ hg) (ih g')
      | some h =>
        obtain ⟨above,below,hc,hh,habove⟩ := ih
        refine ⟨g :: above,below,by rw [hc]; rfl,hh,fun g' hg' => ?_⟩
        exact (mem_cons.mp hg').elim (fun he => he ▸ hg) (habove g')
    unfold findTarget at h
    split at h
    · rename_i hens
      exact hskip (fun hh => by simp [Handles,hens] at hh) h
    · rename_i hens
      obtain ⟨i,hi,h⟩ := bind_ok h
      obtain ⟨b,hb,h⟩ := bind_ok h
      have hkind := isKindOf_spec hb
      cases b with
      | true =>
        cases h
        exact ⟨[],prev,rfl,⟨by simpa using hens,i,hi,hkind.mp rfl⟩,by simp⟩
      | false =>
        refine hskip ?_ h
        rintro ⟨-,j,hj,hinh⟩
        cases hi.symm.trans hj
        cases hkind.mpr hinh

theorem bindVm_error {α β : Type} {r : Except Fault α} {f : α → Except VmEnd β} {e : VmEnd}
    (h : (vmFault r >>= f) = .error e) : (∃ flt,e = .fault flt) ∨ ∃ a,r = .ok a ∧ f a = .error e := by
  cases r with
  | ok a => exact .inr ⟨a,rfl,h⟩
  | error flt =>
    cases h
    exact .inl ⟨flt,rfl⟩

theorem evalBlock_error {block : Oop} {args : List Oop} {e : VmEnd}
    (h : evalBlock env vm p block args = .error e) : ∃ flt,e = .fault flt := by
  unfold evalBlock at h
  rcases bindVm_error h with hf | ⟨b,-,h⟩
  · exact hf
  rcases bindVm_error h with hf | ⟨⟨mem,k,slots⟩,-,h⟩
  · exact hf
  · cases h

theorem longjmp_exception (h : longjmp env vm target = .error .exception) : target.jmp = 0 := by
  unfold longjmp at h
  split at h
  · assumption
  · split at h
    · split at h
      · obtain ⟨flt,hf⟩ := evalBlock_error h
        cases hf
      · cases h
    · cases h

theorem unwind_ok {vm' : Vm ω} {chain : List Handler}
    (h : unwind env vm p exception target chain = .ok vm') :
    HeadsFor vm' exception target := by
  induction chain with
  | nil => cases h
  | cons g prev ih =>
    unfold unwind at h
    split at h
    · obtain ⟨-,q,qs,g,hdrop,-,hctl⟩ := longjmp_ctl h
      have hpend := congrArg Ctl.pending hctl
      have hid := head_dropWhile_not (fun q : Pending => q.id != target.jmp) (l := vm.pending) (by
          change vm.pending.dropWhile _ = _ at hdrop
          rw [hdrop]
          simp)
      change vm.pending.dropWhile _ = _ at hdrop
      simp only [hdrop,head_cons] at hid
      exact ⟨_,_,hpend,.inr ⟨by simpa using hid,rfl⟩⟩
    · split at h
      · exact ⟨_,_,(evalBlock_ok h).pending,.inl ⟨_,rfl⟩⟩
      · exact ih h

theorem unwind_exception {chain : List Handler}
    (h : unwind env vm p exception target chain = .error .exception) :
    target.jmp = 0 := by
  induction chain with
  | nil => cases h
  | cons g prev ih =>
    unfold unwind at h
    split at h
    · exact longjmp_exception h
    · split at h
      · obtain ⟨flt,hf⟩ := evalBlock_error h
        cases hf
      · exact ih h

theorem OwnHandlers.of_chain {a : Nat} {base : List Handler}
    (hactor : vm.loop.actor = a ∧ ∀ p ∈ vm.pending,p.caller.actor = a)
    (hchain : vm.own.handlers = enclosing vm.pending ++ base)
    (hids : ∀ h ∈ enclosing vm.pending,h.jmp ≠ 0) : OwnHandlers env a base vm := by
  refine ⟨hactor,fun len exception vm' h => ?_,fun len exception h => ?_,fun exception h => ?_⟩
  · unfold signalException at h
    obtain ⟨o,hfind,h⟩ := bindVm_ok h
    cases o with
    | none => cases h
    | some target =>
      rw [hchain] at hfind
      exact ⟨target,findTarget_spec hfind,unwind_ok h⟩
  · unfold signalException at h
    rcases bindVm_error h with ⟨flt,hf⟩ | ⟨o,hfind,h⟩
    · cases hf
    cases o with
    | none => cases h
    | some target =>
      rw [hchain] at hfind
      have hjmp := unwind_exception h
      rcases mem_append.mp (findTarget_mem hfind) with hmem | hmem
      · exact absurd hjmp (hids target hmem)
      · exact ⟨target,hmem,findTarget_spec hfind⟩
  · rw [hchain] at h
    exact findTarget_spec h

end

/-! ### The root actor -/

theorem ChainOf.eq_enclosing {ps : List Pending} {chain : List Handler} (hc : ChainOf ps chain)
    (hids : ps.Pairwise (fun p q => p.id > q.id)) : chain = enclosing ps := by
  induction hc with
  | nil => rfl
  | body _ hg _ _ ih =>
    rw [ih (pairwise_cons.mp hids).2]
    rcases hg with ⟨hs,-⟩ | ⟨hs,-⟩ <;> simp only [enclosing,hs]
  | block _ hb _ ih =>
    rw [ih (pairwise_cons.mp hids).2]
    rcases hb with hs | ⟨r,hs⟩ <;> simp only [enclosing,hs]
  | @unwinding p ps fired c h _ _ hc hs ih =>
    have hids := (pairwise_cons.mp hids).2
    simp only [enclosing,hs,← ih hids]
    -- the entries above `h` belong to later calls
    have hdec := (hc.decreasing hids).1
    rw [map_append,map_cons,pairwise_append] at hdec
    rw [dropWhile_append_of_pos,dropWhile_cons_of_neg (by simp),tail_cons]
    intro g hg
    have := hdec.2.2 g.jmp (List.mem_map_of_mem hg) h.jmp mem_cons_self
    simp
    omega

/-! ### Any other actor -/

section

variable {strict : Prop} {a : Nat} {base : List Handler} {s t : Ctl}

/-- In a body that actor `a` has entered, the thread is on the root actor; the outermost call waits
with its entry on `a`'s chain. -/
structure Above (a : Nat) (base : List Handler) (s : Ctl) (ps : List Pending) (p : Pending) :
    Prop where
  actor : s.actor = rootActor
  pending : s.pending = ps ++ [p]
  callers : ∀ q ∈ ps,q.caller.actor = rootActor
  caller : p.caller.actor = a
  id : p.id < s.nextId
  others : ∀ h ∈ s.chains rootActor,h.jmp ≠ p.id
  bottom : (∃ h,p.stage = .onDo h ∨ p.stage = .ensureBody h) ∧ (s.chains a).tail = base ∨
    (∃ r,p.stage = .ensureBlock r) ∧ s.chains a = base

/-- The thread of another actor is on that actor, or in a body it has entered. -/
structure OffRoot (a : Nat) (base : List Handler) (s : Ctl) : Prop where
  below : ∀ h ∈ s.chains rootActor,h.jmp < s.nextId
  place : s.pending = [] ∧ s.actor = a ∧ s.chains a = base ∨ ∃ ps p,Above a base s ps p

variable {p : Pending} {ps : List Pending} {target : Handler}

theorem Above.onRoot {qs : List Pending} {chain : List Handler} {trace : List EvalEvent} {n : Nat}
    (hab : Above a base s ps p) (ha : a ≠ rootActor)
    (hbelow : ∀ h ∈ s.chains rootActor,h.jmp < s.nextId) (hqs : ∀ q ∈ qs,q.caller.actor = rootActor)
    (hn : s.nextId ≤ n)
    (hchain : ∀ h ∈ chain,h ∈ s.chains rootActor ∨ h.jmp = s.nextId ∧ s.nextId < n) :
    OffRoot a base ⟨rootActor,update s.chains rootActor chain,qs ++ [p],trace,n⟩ := by
  have hid := hab.id
  refine ⟨fun h hh => ?_,.inr ⟨qs,p,rfl,rfl,hqs,hab.caller,Nat.lt_of_lt_of_le hid hn,?_,?_⟩⟩
  · simp only [update_self] at hh
    rcases hchain h hh with hh | ⟨hj,hlt⟩
    · exact Nat.lt_of_lt_of_le (hbelow h hh) hn
    · dsimp only
      omega
  · intro h hh
    simp only [update_self] at hh
    rcases hchain h hh with hh | ⟨hj,-⟩
    · exact hab.others h hh
    · omega
  · simpa only [update_of_ne ha] using hab.bottom

theorem Above.jump (hj : Jumps strict rootActor target s t) (hab : Above a base s ps p)
    (ha : a ≠ rootActor) (hbelow : ∀ h ∈ s.chains rootActor,h.jmp < s.nextId) :
    OffRoot a base t := by
  obtain @⟨above,below,h,g,q,qs,hc,habove,hjmp,hne,hdrop,hstage⟩ := hj
  have hp : (p.id != target.jmp) = true := by
    have := hab.others h (by simp [hc])
    simp
    omega
  -- the target is on the root actor's chain, so it is not the outermost call's
  rw [hab.pending,dropWhile_append] at hdrop
  split at hdrop
  · simp [hp] at hdrop
  · cases hps : ps.dropWhile (fun q => q.id != target.jmp) with
    | nil => simp_all
    | cons q' qs' =>
      rw [hps,cons_append,List.cons.injEq] at hdrop
      obtain ⟨rfl,rfl⟩ := hdrop
      have hsub : ∀ r ∈ q' :: qs',r ∈ ps := fun r hr =>
        (dropWhile_sublist _).subset (hps ▸ hr)
      rw [← cons_append]
      refine hab.onRoot ha hbelow ?_ (Nat.le_refl _) (fun g hg => .inl (by simp [hc,hg]))
      intro r hr
      rcases mem_cons.mp hr with rfl | hr
      · exact hab.callers q' (hsub q' mem_cons_self)
      · exact hab.callers r (hsub r (mem_cons_of_mem _ hr))

theorem Above.unwinds {q : Pending} {exception : Oop} (hu : Unwinds q exception target s t)
    (hq : q.caller.actor = rootActor) (hab : Above a base s ps p) (ha : a ≠ rootActor)
    (hbelow : ∀ h ∈ s.chains rootActor,h.jmp < s.nextId) : OffRoot a base t := by
  cases hu with
  | @fire above below h hc habove hens =>
    rw [hq] at hc ⊢
    rw [hab.pending,← cons_append]
    refine hab.onRoot ha hbelow ?_ (Nat.le_refl _) (fun g hg => .inl (by simp [hc,hg]))
    intro r hr
    rcases mem_cons.mp hr with rfl | hr
    · exact hq
    · exact hab.callers r hr
  | jump hj =>
    rw [hq] at hj
    exact hab.jump hj ha hbelow

theorem Jumps.not_catchAll (hj : Jumps strict a target s t) (hc : ∀ h ∈ s.chains a,h.jmp = 0) :
    False := by
  obtain @⟨above,below,h,g,q,qs,hch,habove,hjmp,hne,hdrop,hstage⟩ := hj
  exact hne (hjmp ▸ hc h (by simp [hch]))

theorem OffRoot.step (ha : a ≠ rootActor)
    (hbase : ∀ h ∈ base,h.jmp = 0 ∧ h.entry.isEnsure = false) (ho : OffRoot a base s)
    (hs : CtlStep strict s t) : OffRoot a base t := by
  have hbelow := ho.below
  rcases ho.place with ⟨hp,hactor,hchain⟩ | ⟨ps,p,hab⟩
  · have hzero : ∀ h ∈ s.chains a,h.jmp = 0 := by
      rw [hchain]
      exact fun h hh => (hbase h hh).1
    have hcalls : ∀ {p : Pending} {h : Handler} {trace : List EvalEvent},s.Calls p h →
        (p.stage = .onDo h ∨ p.stage = .ensureBody h) →
        OffRoot a base ⟨rootActor,update s.chains s.actor (h :: s.chains s.actor),
          p :: s.pending,trace,s.nextId + 1⟩ := by
      intro p h trace hc hstage
      rw [hactor,hp]
      refine ⟨fun g hg => ?_,.inr ⟨[],p,rfl,rfl,by simp,hc.caller.trans hactor,?_,?_,?_⟩⟩
      · simp only [update_of_ne (Ne.symm ha)] at hg
        exact Nat.lt_succ_of_lt (hbelow g hg)
      · rw [hc.id]
        exact Nat.lt_succ_self _
      · intro g hg
        simp only [update_of_ne (Ne.symm ha)] at hg
        have := hbelow g hg
        have := hc.id
        omega
      · exact .inl ⟨⟨h,hstage⟩,by simp [hchain]⟩
    cases hs with
    | stay => exact ho
    | onDo hc hstage _ => exact hcalls hc (.inl hstage)
    | ensure hc hstage _ => exact hcalls hc (.inr hstage)
    | bodyDone hq | blockDone hq | ensureDone hq | goOn hq => simp [hp] at hq
    | dead hj =>
      rw [hactor] at hj
      exact (hj.not_catchAll hzero).elim
    | @signal p exception target _ _ hq hu =>
      rw [hactor] at hq
      cases hu with
      | @fire above below h hc habove hens =>
        have hc : s.chains p.caller.actor = above ++ h :: below := hc
        have hmem : h ∈ base := by
          rw [hq,hchain] at hc
          simp [hc]
        rw [(hbase h hmem).2] at hens
        cases hens
      | jump hj =>
        rw [hq] at hj
        exact (hj.not_catchAll hzero).elim
  · -- the top activation is one above the outermost call, or that call itself
    have htop : ∀ {q : Pending} {qs : List Pending},s.pending = q :: qs →
        (q = p ∧ qs = [] ∧ ps = []) ∨
          ∃ ps',ps = q :: ps' ∧ qs = ps' ++ [p] ∧ q.caller.actor = rootActor ∧
            ∀ r ∈ ps',r.caller.actor = rootActor := by
      intro q qs hq
      have hpend := hab.pending
      rw [hq] at hpend
      cases ps with
      | nil =>
        obtain ⟨rfl,rfl⟩ : q = p ∧ qs = [] := by simpa using hpend
        exact .inl ⟨rfl,rfl,rfl⟩
      | cons r ps' =>
        obtain ⟨rfl,rfl⟩ : q = r ∧ qs = ps' ++ [p] := by simpa using hpend
        exact .inr ⟨ps',rfl,rfl,hab.callers q mem_cons_self,
          fun r hr => hab.callers r (mem_cons_of_mem _ hr)⟩
    have hcalls : ∀ {q : Pending} {h : Handler} {trace : List EvalEvent},s.Calls q h →
        OffRoot a base ⟨rootActor,update s.chains s.actor (h :: s.chains s.actor),
          q :: s.pending,trace,s.nextId + 1⟩ := by
      intro q h trace hc
      rw [hab.actor,hab.pending,← cons_append]
      refine hab.onRoot ha hbelow ?_ (Nat.le_succ _) ?_
      · intro r hr
        rcases mem_cons.mp hr with rfl | hr
        · exact hc.caller.trans hab.actor
        · exact hab.callers r hr
      · intro g hg
        rcases mem_cons.mp hg with rfl | hg
        · exact .inr ⟨hc.jmp,Nat.lt_succ_self _⟩
        · exact .inl hg
    cases hs with
    | stay => exact ho
    | onDo hc _ _ => exact hcalls hc
    | ensure hc _ _ => exact hcalls hc
    | bodyDone hq hstage =>
      rcases htop hq with ⟨rfl,rfl,-⟩ | ⟨ps',-,rfl,hroot,hps'⟩
      · refine ⟨?_,.inl ⟨rfl,hab.caller,?_⟩⟩
        · rw [hab.caller]
          simpa only [update_of_ne (Ne.symm ha)] using hbelow
        · rcases hab.bottom with ⟨-,hbot⟩ | ⟨⟨r,hr⟩,-⟩
          · simp [hab.caller,hbot]
          · cases hstage.symm.trans hr
      · rw [hroot]
        exact hab.onRoot ha hbelow hps' (Nat.le_refl _) (fun g hg => .inl (mem_of_mem_tail hg))
    | blockDone hq hstage =>
      rcases htop hq with ⟨rfl,rfl,-⟩ | ⟨ps',-,rfl,hroot,hps'⟩
      · refine ⟨hbelow,.inl ⟨rfl,hab.caller,?_⟩⟩
        rcases hab.bottom with ⟨⟨h,hh⟩,-⟩ | ⟨-,hbot⟩
        · rcases hh with hh | hh <;> simp [hh] at hstage
        · exact hbot
      · rw [hroot,← update_eq_self rootActor s.chains]
        exact hab.onRoot ha hbelow hps' (Nat.le_refl _) (fun g hg => .inl hg)
    | @ensureDone q qs h v hq hstage =>
      rcases htop hq with ⟨rfl,rfl,-⟩ | ⟨ps',-,rfl,hroot,hps'⟩
      · rw [hab.caller]
        refine ⟨by simpa only [update_of_ne (Ne.symm ha)] using hbelow,
          .inr ⟨[],_,rfl,rfl,by simp,hab.caller,hab.id,?_,?_⟩⟩
        · simpa only [update_of_ne (Ne.symm ha)] using hab.others
        · rcases hab.bottom with ⟨-,hbot⟩ | ⟨⟨r,hr⟩,-⟩
          · exact .inr ⟨⟨v,rfl⟩,by simp [hbot]⟩
          · cases hstage.symm.trans hr
      · rw [hroot,← cons_append]
        refine hab.onRoot ha hbelow ?_ (Nat.le_refl _) (fun g hg => .inl (mem_of_mem_tail hg))
        intro r hr
        rcases mem_cons.mp hr with rfl | hr
        · exact hroot
        · exact hps' r hr
    | signal hq hcall hu =>
      have hab' : Above a base { s with nextId := s.nextId + 1 } ps p :=
        { hab with id := Nat.lt_succ_of_lt hab.id }
      exact hab'.unwinds hu (hcall.trans hab.actor) ha (fun h hh => Nat.lt_succ_of_lt (hbelow h hh))
    | @goOn q qs exception target i _ hq hstage hu =>
      rcases htop hq with ⟨rfl,rfl,-⟩ | ⟨ps',-,rfl,hroot,hps'⟩
      · rcases hab.bottom with ⟨⟨h,hh⟩,-⟩ | ⟨⟨r,hr⟩,-⟩
        · rcases hh with hh | hh <;> cases hstage.symm.trans hh
        · cases hstage.symm.trans hr
      · have hab' : Above a base ⟨q.caller.actor,s.chains,ps' ++ [p],s.trace,s.nextId⟩ ps' p :=
          { hab with actor := hroot,pending := rfl,callers := hps' }
        exact hab'.unwinds hu hroot ha hbelow
    | dead hj =>
      rw [hab.actor] at hj
      exact hab.jump hj ha hbelow

end

/-! ### Every thread -/

section

variable {ω : Type} {env : Env ω} {failed : World ω → List Oop → Option Oop}
  {a : Nat} {base : List Handler} {vm₀ vm : Vm ω}

theorem StartsOn.offRoot (h : StartsOn a base vm₀) (ha : a ≠ rootActor)
    (hrun : Path (threadStep env failed) (fun _ _ => True) vm₀ vm) : OffRoot a base vm.ctl := by
  refine hrun.invariant (I := fun vm => OffRoot a base vm.ctl)
    ⟨h.others,.inl ⟨h.pending,h.actor,h.chain⟩⟩ ?_
  intro vm₁ _ vm₂ ho _ hs
  exact ho.step ha h.catchAll (vmStep_ctl (threadStep_some hs))

theorem StartsOn.onRoot (h : StartsOn rootActor base vm₀)
    (hrun : Path (threadStep env failed) (fun _ _ => True) vm₀ vm) :
    RootOnly vm.ctl ∧ Stacked vm.pending (vm.chain rootActor) vm.nextId ∧
      0 < vm.nextId ∧ ∀ p ∈ vm.pending,0 < p.id := by
  have hchain : vm₀.chain rootActor = [] := h.chain.trans (h.root rfl)
  refine hrun.invariant (I := fun vm => RootOnly vm.ctl ∧
    Stacked vm.pending (vm.chain rootActor) vm.nextId ∧ 0 < vm.nextId ∧
    ∀ p ∈ vm.pending,0 < p.id) ⟨⟨h.actor,?_⟩,?_,h.nextId,?_⟩ ?_
  · simp [Vm.ctl,h.pending]
  · rw [h.pending,hchain]
    exact ⟨.nil,by simp,.nil⟩
  · simp [h.pending]
  · rintro vm₁ _ vm₂ ⟨hr,hst,hn,hpos⟩ - hs
    have hstep := vmStep_ctl (threadStep_some hs)
    refine ⟨hr.step hstep,(Stacked.step hr hst hstep).1,
      Nat.lt_of_lt_of_le hn hstep.nextId_le,fun p hp => ?_⟩
    rcases hstep.from.mem p hp with ⟨q,hq,hid,-⟩ | ⟨hid,-⟩
    · exact hid ▸ hpos q hq
    · exact hid ▸ hn

/-- In every reachable state of a thread the handlers are the actor's own exactly if it is the root
actor or the thread is outside all `on:do:` and `ensure:`. -/
theorem own_handlers_iff (h₀ : StartsOn a base vm₀)
    (hrun : Path (threadStep env failed) (fun _ _ => True) vm₀ vm) :
    OwnHandlers env a base vm ↔ a = rootActor ∨ vm.pending = [] := by
  by_cases ha : a = rootActor
  · subst ha
    refine ⟨fun _ => .inl rfl,fun _ => ?_⟩
    obtain ⟨hr,hst,-,hpos⟩ := h₀.onRoot hrun
    have hown : vm.own.handlers = vm.chain rootActor := by
      have hactor : vm.loop.actor = rootActor := hr.actor
      rw [Vm.own,hactor]
      rfl
    have henc := hst.chainOf.eq_enclosing hst.ids
    refine .of_chain ⟨hr.actor,hr.callers⟩ ?_ (fun h hh => ?_)
    · rw [h₀.root rfl,append_nil,hown,henc]
    · rw [← henc] at hh
      obtain ⟨p,hp,hid⟩ := (hst.chainOf.decreasing hst.ids).2 h hh
      have := hpos p hp
      omega
  · have hplace := (h₀.offRoot ha hrun).place
    constructor
    · intro hown
      rcases hplace with ⟨hp,-⟩ | ⟨ps,p,hab⟩
      · exact .inr hp
      · exact absurd (hown.actor.1.symm.trans hab.actor) ha
    · intro hp
      have hp := hp.resolve_left ha
      rcases hplace with ⟨-,hactor,hchain⟩ | ⟨ps,p,hab⟩
      · refine .of_chain ⟨hactor,by simp [hp]⟩ ?_ (by simp [hp,enclosing])
        have hactor : vm.loop.actor = a := hactor
        rw [Vm.own,hactor,hp]
        exact hchain
      · have hpend : vm.pending = ps ++ [p] := hab.pending
        simp [hp] at hpend

end

theorem protectStart_startsOn (a : Nat) : StartsOn a [] (protectStart a) where
  actor := rfl
  pending := rfl
  chain := rfl
  catchAll := by simp
  root := fun _ => rfl
  others := by simp [protectStart,startVm,Vm.chain]
  nextId := Nat.one_pos

/-- On the root actor the handler block of the signal runs with the actor's own handlers. -/
theorem own_handlers_in_handler_block : ∃ vm,OwnHandlers (protectEnv signalMain) rootActor [] vm ∧
      vm.trace = [.handled 1,.ran 2,.entered 2] := by
  have hpath : Path (threadStep (protectEnv signalMain) noFailure) (fun _ _ => True)
      (protectStart rootActor) _ := runAll_path (List.replicate 13 ()) rfl
  exact ⟨_,(own_handlers_iff (protectStart_startsOn rootActor) hpath).mpr (.inl rfl),rfl⟩

/-- On another actor the same program runs the body on the root actor, does not find its `on:do:`
and dies. -/
theorem signal_misses_own_handler : StartsOn 2 [] (protectStart 2) ∧
      ∃ vm,Path (threadStep (protectEnv signalMain) noFailure) (fun _ _ => True)
          (protectStart 2) vm ∧ ¬OwnHandlers (protectEnv signalMain) 2 [] vm ∧
        (∃ h ∈ enclosing vm.pending,h.entry.exceptionClass = 576) ∧
        ∃ f,vmStep (protectEnv signalMain) noFailure vm = .error (.fault f) :=
  ⟨protectStart_startsOn 2,_,runAll_path (List.replicate 10 ()) rfl,
    fun hown => absurd hown.actor.1 (by decide),⟨_,.tail _ (.head _),rfl⟩,_,rfl⟩

end SmalltalkA
