import SmalltalkA.Actor.FutureResult
import SmalltalkA.Interpreter.Preemption
import SmalltalkA.Interpreter.SlabMoves

/-! Processing of one ask (`sta_actor_process_one_preemptible`): the activation on the actor's stack
slab, slice by slice, and the reply that `route_reply` gives. -/

set_option autoImplicit false

namespace SmalltalkA

open Runs ObjectGraph List

section

variable {ω : Type}

/-- The two pointers of `STA_StackSlab` that move. -/
structure Slab where
  top : Nat
  sp : Nat
  deriving DecidableEq

def CallStack.slab (k : CallStack) : Slab := ⟨k.top,k.sp⟩

/-- The word below `slab->sp`: the last one of the innermost frame, if it has one. -/
def CallStack.lastWord (k : CallStack) : Option Oop :=
  match k.frames with
  | [] => none
  | f :: _ => (f.act.stack ++ f.act.temps.reverse).head?

/-- The slab after `sta_stack_pop`. -/
def Slab.pop (s : Slab) : Slab := { s with sp := s.sp - 8 }

structure AskMessage where
  selector : Oop
  args : List Oop
  futureId : Nat

/-- The actor fields that processing a message reads. -/
structure Behavior where
  behaviorObj : Oop
  isSupervisor : Bool

/-- How a message is left: `route_reply` with the word popped off the slab, or
`handle_actor_exception`. -/
inductive Ending (ω : Type) where
  | supervised (slab : Slab)
  | notUnderstood (slab : Slab)
  | replied (futureId : Nat) (word : Option Oop) (e : Exec ω) (slab : Slab)
  | crashed (futureId : Nat) (slab : Slab)
  /-- the loop's result is the word that stands for a preemption -/
  | unreported (slab : Slab)
  | died (f : Fault)

def Ending.slab : Ending ω → Option Slab
  | .supervised s | .notUnderstood s | .replied _ _ _ s | .crashed _ s | .unreported s => some s
  | .died _ => none

/-- How long the slices are, and what other threads do to the actor between them. -/
structure Slicing (ω : Type) where
  quota : Nat → Nat
  between : Nat → Exec ω → Exec ω

/-- A message in processing: the loop's state, the number of the slice, the slab saved by its
catch-all handler, and `pending_future_id`. -/
structure Processing (ω : Type) where
  machine : Machine ω
  slice : Nat
  saved : Slab
  pendingFutureId : Nat

variable (env : Env ω)

/-- `sta_interpret_actor` up to the loop; the left side is the return of -1. -/
def startActor (e : Exec ω) (c : Call) : Except Fault (Exec ω ⊕ Machine ω) :=
  let a := newActivation env.nilOop c.code.header c.method c.receiver c.args
  match framePush e.stack a with
  | none => .ok (.inl ⟨e.world,{ e.stack with top := max e.stack.top e.stack.sp }⟩)
  | some k =>
    if methodLargeFrame c.code.header then
      match giveContext a (a.argCount + a.localCount) e.world with
      | .ok (a,w) => .ok (.inr (enterLoop ⟨w,k.setAct a⟩))
      | .error (.fatal .contextAllocation) => .ok (.inl ⟨e.world,k⟩)
      | .error f => .error f
    else .ok (.inr (enterLoop ⟨e.world,k⟩))

/-- One instruction, or the end of a slice: a preempted one is followed by the next; a result is
pushed on the slab and popped again; an exception puts the slab back to where the slice began. -/
def processStep (s : Slicing ω) (p : Processing ω) : Except (Ending ω) (Processing ω) :=
  match step env (sliceMode (some (s.quota p.slice))) p.machine with
  | .ok m => .ok { p with machine := m }
  | .error (.preempted e) =>
    let e := s.between p.slice e
    .ok { p with machine := enterLoop e,slice := p.slice + 1,saved := e.stack.slab }
  | .error (.returned v e) =>
    if v = oopPreempted then .error (.unreported e.stack.slab)
    else .error (.replied p.pendingFutureId (some v) e e.stack.slab)
  | .error (.unwound _) => .error (.crashed p.pendingFutureId p.saved)
  | .error (.fault f) => .error (.died f)

def dispatchMessage (b : Behavior) (msg : AskMessage) (w : World ω) :
    Except Fault (Option Call) := do
  let found ← methodLookup env w (← defined ((w.mem b.behaviorObj).map Obj.classIndex)) msg.selector
  if found = 0 then return none
  let code ← defined (env.methods found)
  return some ⟨found,code,b.behaviorObj,msg.args,false⟩

def firstSlice (m : Machine ω) (futureId : Nat) : Processing ω :=
  ⟨m,0,m.exec.stack.slab,futureId⟩

def forSupervisor (childFailed : Oop) (b : Behavior) (msg : AskMessage) : Prop :=
  b.isSupervisor = true ∧ msg.selector = childFailed

/-- `sta_actor_process_one_preemptible` from the dequeue of a message on. A return of -1 by
`sta_interpret_actor` goes the way of a completion. -/
inductive Processed (childFailed : Oop) (s : Slicing ω) (b : Behavior) (msg : AskMessage)
    (e : Exec ω) : Ending ω → Prop
  | supervised (hsup : forSupervisor childFailed b msg) :
      Processed childFailed s b msg e (.supervised e.stack.slab)
  | lost {f : Fault} (hsup : ¬ forSupervisor childFailed b msg)
      (hcall : dispatchMessage env b msg e.world = .error f) :
      Processed childFailed s b msg e (.died f)
  | notUnderstood (hsup : ¬ forSupervisor childFailed b msg)
      (hcall : dispatchMessage env b msg e.world = .ok none) :
      Processed childFailed s b msg e (.notUnderstood e.stack.slab)
  | notStarted {c : Call} {e' : Exec ω} (hsup : ¬ forSupervisor childFailed b msg)
      (hcall : dispatchMessage env b msg e.world = .ok (some c))
      (hstart : startActor env e c = .ok (.inl e')) :
      Processed childFailed s b msg e
        (.replied msg.futureId e'.stack.lastWord e' e'.stack.slab.pop)
  | ran {c : Call} {m : Machine ω} {r : Ending ω} (hsup : ¬ forSupervisor childFailed b msg)
      (hcall : dispatchMessage env b msg e.world = .ok (some c))
      (hstart : startActor env e c = .ok (.inr m))
      (hrun : Halts (processStep env s) (firstSlice m msg.futureId) r) :
      Processed childFailed s b msg e r

end

/-! ### The reply -/

/-- `heap_size` of `route_reply`, rounded up by `sta_heap_init`. -/
def transferCapacity (est : Nat) : Nat := ((if est < 256 then 256 else est * 2) + 15) / 16 * 16

/-- What `route_reply` stores: the word and its transfer heap, allocated at `region`; the inner none
leaves the future unresolved. -/
def routeReply (p : CopyParams) (fuel : Nat) (region : Option Nat) (m : Memory) (v : Oop) :
    Option (Option (Memory × Oop × Option Heap)) :=
  if isShared m v then some (some (m,v,none))
  else do
    let est ← staDeepCopyEstimateRoots p.formats p.room (fuel + 1) m [v]
    match region with
    | none => some none
    | some base =>
      let (s,w) ← staDeepCopy { p with gc := none } fuel v ⟨⟨base,transferCapacity est,0⟩,m,[],[]⟩
      match w with
      | none => some none
      | some w => some (some (s.mem,w,some s.heap))

/-- The value leads to finitely many well-formed objects and there is memory for its copy. -/
structure ReplyReady (p : CopyParams) (fuel : Nat) (objs : List Oop) (base : Nat) (m : Memory)
    (v : Oop) : Prop where
  graph : GraphOk p.formats m objs
  value : isShared m v = true ∨ v ∈ objs
  region : base % 16 = 0 ∧ 0 < base
  free : ∀ est,staDeepCopyEstimateRoots p.formats p.room (fuel + 1) m [v] = some est →
    ∀ o : Nat,base ≤ o → o < base + transferCapacity est → m o = none
  bounds : objs.length ≤ fuel ∧ objs.length < p.room

theorem le_transferCapacity (est : Nat) : est ≤ transferCapacity est := by
  unfold transferCapacity
  split <;> omega

theorem routeReply_isomorphic {p : CopyParams} {fuel base : Nat} {objs : List Oop} {m : Memory}
    {v : Oop} (h : ReplyReady p fuel objs base m v) :
    ∃ m' w heap,routeReply p fuel (some base) m v = some (some (m',w,heap)) ∧
      Isomorphic (mutableGraph p.formats m) [v] (mutableGraph p.formats m') [w] := by
  unfold routeReply
  by_cases hsh : isShared m v = true
  · rw [if_pos hsh]
    refine ⟨m,v,none,rfl,h.graph.kept (fun _ _ => rfl) (fun _ hv => hv) (fun w hw => .inl ?_)⟩
    rw [mem_singleton.mp hw]
    exact hsh
  · obtain ⟨hfuel,hroom⟩ := h.bounds
    obtain ⟨est,vs,hest,-⟩ := estimateOop_defined p.room h.graph (fuel + 1) v [] h.value
      (Nat.lt_succ_of_le (Nat.le_trans (length_filter_le ..) hfuel))
    have hroots : staDeepCopyEstimateRoots p.formats p.room (fuel + 1) m [v] = some est := by
      simp [staDeepCopyEstimateRoots,estimateAll,hest]
    have hfree := h.free est hroots
    have hcap := le_transferCapacity est
    obtain ⟨s',w,hcopy,-,hsame,hiso⟩ := deepCopy_isomorphic (p := { p with gc := none })
      (s := ⟨⟨base,transferCapacity est,0⟩,m,[],[]⟩) h.graph h.value hroots
      ⟨h.region.1,h.region.2,hfree⟩ (by simpa using hcap) hfuel hroom hroom
    refine ⟨s'.mem,w,some s'.heap,?_,hiso _ (fun _ _ _ => rfl) ?_⟩
    · rw [if_neg hsh,hroots]
      simp [hcopy]
    · refine fun u hu => isShared_grow hu (fun o obj ho => ?_)
      rw [hsame o (fun hin => ?_)]
      · exact ho
      · have hnone : m o = none := hfree o hin.1 (Nat.lt_of_lt_of_le hin.2 (by simpa using hcap))
        cases hnone.symm.trans ho

/-! ### The slab -/

section

variable {ω : Type}

/-- The bottom frame lies at `a`, all else above it. -/
structure Rests (base a : Nat) (k : CallStack) : Prop where
  base : k.base = base
  outer : k.outer = []
  top : a + frameHeaderSize ≤ k.top
  bottom : ∃ upper,k.addrs = upper ++ [a] ∧ ∀ x ∈ upper,a + frameHeaderSize ≤ x

variable {a base : Nat} {k k' : CallStack} {p : Processing ω}

theorem Rests.same (h : Rests base a k) (hs : SameSlab k k') : Rests base a k' :=
  ⟨hs.base.trans h.base,hs.outer.trans h.outer,hs.top ▸ h.top,hs.addrs ▸ h.bottom⟩

theorem Rests.move (h : Rests base a k) (hm : SlabMove k k') : Rests base a k' := by
  have htop := h.top
  obtain ⟨upper,haddrs,hupper⟩ := h.bottom
  cases hm with
  | same hs => exact h.same hs
  | push hp =>
    obtain ⟨addr,haddr,hlow,hhigh⟩ := hp.place
    refine ⟨hp.base.trans h.base,hp.outer.trans h.outer,by omega,addr :: upper,?_,?_⟩
    · rw [haddr,haddrs]
      rfl
    · intro x hx
      rcases mem_cons.mp hx with rfl | hx
      · omega
      · exact hupper x hx
  | pop rest hne hp =>
    obtain ⟨inner,hinner⟩ := hp.place
    obtain ⟨rest,b,rfl⟩ := (eq_nil_or_concat rest).resolve_left hne
    have heq : upper ++ [a] = (inner ++ k'.top :: rest) ++ [b] := by
      rw [← haddrs,hinner]
      simp
    obtain ⟨rfl,hb⟩ := append_inj' heq rfl
    obtain rfl : a = b := by simpa using hb
    refine ⟨hp.base.trans h.base,hp.outer.trans h.outer,hupper _ (by simp),rest,
      by simpa using hp.addrs,?_⟩
    exact fun x hx => hupper x (by simp [hx])

theorem Rests.returned (h : Rests base a k) (hp : PoppedTo k [] k') : k'.slab = ⟨a,base⟩ := by
  obtain ⟨upper,haddrs,-⟩ := h.bottom
  obtain ⟨inner,hinner⟩ := hp.place
  have htop : a = k'.top := by
    have := (append_inj' (haddrs.symm.trans hinner) rfl).2
    simpa using this
  have hframes : k'.frames = [] := map_eq_nil_iff.mp hp.addrs
  simp [CallStack.slab,CallStack.sp,hframes,hp.outer,h.outer,hp.base,h.base,htop]

/-- The actor runs nothing. -/
structure CallStack.Idle (k : CallStack) : Prop where
  frames : k.frames = []
  outer : k.outer = []
  low : k.base ≤ k.top

theorem CallStack.Idle.slab (h : k.Idle) : k.slab = ⟨k.top,k.base⟩ := by
  simp [CallStack.slab,CallStack.sp,h.frames,h.outer]

theorem CallStack.Idle.push (h : k.Idle) {a : Activation} (hk : framePush k a = some k') :
    Rests k.base k.top k' := by
  have hlow := h.low
  have hsp : k.sp = k.base := congrArg Slab.sp h.slab
  unfold framePush at hk
  dsimp only at hk
  split at hk
  · obtain rfl := Option.some.inj hk
    rw [hsp,Nat.max_eq_left hlow]
    refine ⟨rfl,h.outer,?_,[],?_,nofun⟩
    · simp only [frameByteSize]
      omega
    · simp [CallStack.addrs,h.frames]
  · cases hk

variable {env : Env ω} {s : Slicing ω}

/-- A message in processing, its first frame at the bottom. -/
structure Underway (base a futureId : Nat) (p : Processing ω) : Prop where
  rests : Rests base a p.machine.exec.stack
  saved : a + frameHeaderSize ≤ p.saved.top
  pending : p.pendingFutureId = futureId

theorem Underway.next {futureId : Nat} {p' : Processing ω} (hprim : KeepsSlab env)
    (hbetween : ∀ n e,SameSlab e.stack (s.between n e).stack) (h : Underway base a futureId p)
    (hstep : processStep env s p = .ok p') : Underway base a futureId p' := by
  have hout : SlabOutcome p.machine.exec.stack
      (step env (sliceMode (some (s.quota p.slice))) p.machine) := step_outcome hprim _
  unfold processStep at hstep
  split at hstep
  · rename_i m hm
    rw [hm] at hout
    cases hstep
    exact ⟨h.rests.move hout,h.saved,h.pending⟩
  · rename_i e he
    rw [he] at hout
    cases hstep
    have hrests := (h.rests.same hout).same (hbetween p.slice e)
    refine ⟨?_,hrests.top,h.pending⟩
    rw [enterLoop_exec]
    exact hrests
  · split at hstep <;> cases hstep
  · cases hstep
  · cases hstep

theorem Underway.ending {futureId : Nat} {r : Ending ω} (hprim : KeepsSlab env)
    (h : Underway base a futureId p) (hstep : processStep env s p = .error r) :
    (∃ v e,step env (sliceMode (some (s.quota p.slice))) p.machine = .error (.returned v e) ∧
      e.stack.slab = ⟨a,base⟩ ∧
      (r = .unreported e.stack.slab ∨ r = .replied futureId (some v) e e.stack.slab)) ∨
    (∃ slab,r = .crashed futureId slab ∧ a < slab.top) ∨ ∃ f,r = .died f := by
  have hout : SlabOutcome p.machine.exec.stack
      (step env (sliceMode (some (s.quota p.slice))) p.machine) := step_outcome hprim _
  unfold processStep at hstep
  split at hstep
  · cases hstep
  · cases hstep
  · rename_i v e he
    rw [he] at hout
    refine .inl ⟨v,e,he,h.rests.returned hout,?_⟩
    split at hstep
    · cases hstep
      exact .inl rfl
    · cases hstep
      exact .inr (by rw [h.pending])
  · cases hstep
    have := h.saved
    exact .inr (.inl ⟨_,by rw [h.pending],by simp only [frameHeaderSize] at this; omega⟩)
  · cases hstep
    exact .inr (.inr ⟨_,rfl⟩)

/-! ### The first frame -/

/-- There is room for the first frame and, if the method needs one, for its context. -/
structure FirstFrameFits (e : Exec ω) (c : Call) : Prop where
  frame : e.stack.fits (max e.stack.top e.stack.sp +
    frameByteSize c.args.length (methodNumTemps c.code.header - c.args.length)) = true
  context : methodLargeFrame c.code.header = true → e.world.heap.used +
    alignedSize (c.args.length + (methodNumTemps c.code.header - c.args.length)) ≤
      e.world.heap.capacity

theorem setSlots_defined (o : Oop) (vs : List Oop) : ∀ (w : World ω) (i : Nat) (obj : Obj),
    w.mem o = some obj → i + vs.length ≤ obj.payload.length →
    ∃ w',w.setSlots o i vs = .ok w' := by
  induction vs with
  | nil => exact fun w _ _ _ _ => ⟨w,rfl⟩
  | cons v vs ih =>
    intro w i obj ho hlen
    rw [length_cons] at hlen
    let obj' := { obj with payload := obj.payload.set i v }
    let w' := { w with mem := w.mem.put o (some obj') }
    have hset : w.setSlot o i v = .ok w' := by
      simp [World.setSlot,Memory.setSlot,ho,show i < obj.payload.length by omega,defined,w',obj']
    obtain ⟨w'',hw''⟩ := ih w' (i + 1) obj' (Memory.put_same ..) (by simp [obj']; omega)
    exact ⟨w'',by rw [World.setSlots,hset]; exact hw''⟩

theorem giveContext_defined (a : Activation) (size : Nat) (w : World ω)
    (hsize : size ≤ a.temps.length) :
    giveContext a size w = .error (.fatal .contextAllocation) ∧
      w.heap.capacity < w.heap.used + alignedSize size ∨
    (∃ aw,giveContext a size w = .ok aw) ∧ w.heap.used + alignedSize size ≤ w.heap.capacity := by
  by_cases hfull : w.heap.used + alignedSize size > w.heap.capacity
  · exact .inl ⟨by simp [giveContext,World.alloc,heapAlloc,hfull],hfull⟩
  · obtain ⟨w',hw'⟩ := setSlots_defined (w.heap.base + w.heap.used) (a.temps.take size) { w with
        heap := { w.heap with used := w.heap.used + alignedSize size }
        mem := w.mem.put (w.heap.base + w.heap.used) (some (newObj clsArray size)) }
      0 (newObj clsArray size) (Memory.put_same ..) (by simp [newObj])
    refine .inr ⟨⟨({ a with context := w.heap.base + w.heap.used,marker := true },w'),?_⟩,by omega⟩
    simp only [giveContext,World.alloc,heapAlloc,if_neg hfull,Option.map_some]
    rw [if_neg (by omega),hw']
    rfl

theorem startActor_cases (env : Env ω) (e : Exec ω) (c : Call) :
    (FirstFrameFits e c ∧ ∃ m,startActor env e c = .ok (.inr m)) ∨
    (¬ FirstFrameFits e c ∧ ∃ e',startActor env e c = .ok (.inl e')) := by
  unfold startActor
  dsimp only
  cases hk : framePush e.stack (newActivation env.nilOop c.code.header c.method c.receiver c.args)
    with
  | none =>
    refine .inr ⟨fun h => ?_,_,rfl⟩
    have := h.frame
    simp [framePush,newActivation,this] at hk
  | some k =>
    have hfits : e.stack.fits (max e.stack.top e.stack.sp +
        frameByteSize c.args.length (methodNumTemps c.code.header - c.args.length)) = true := by
      unfold framePush at hk
      dsimp only at hk
      split at hk
      · assumption
      · cases hk
    by_cases hlarge : methodLargeFrame c.code.header = true
    · simp only [hlarge,if_true]
      rcases giveContext_defined (newActivation env.nilOop c.code.header c.method c.receiver c.args)
          (c.args.length + (methodNumTemps c.code.header - c.args.length))
          e.world (by simp [newActivation]) with ⟨hfail,hfull⟩ | ⟨⟨aw,hok⟩,hroom⟩
      · have hfail' := hfail
        simp only [newActivation] at hfail' ⊢
        rw [hfail']
        exact .inr ⟨fun h => absurd (h.context hlarge) (by omega),_,rfl⟩
      · have hok' := hok
        simp only [newActivation] at hok' ⊢
        rw [hok']
        exact .inl ⟨⟨hfits,fun _ => hroom⟩,_,rfl⟩
    · simp only [hlarge]
      exact .inl ⟨⟨hfits,fun h => absurd h hlarge⟩,_,rfl⟩

theorem startActor_underway {e : Exec ω} {c : Call} {m : Machine ω} (hidle : e.stack.Idle)
    (h : startActor env e c = .ok (.inr m)) (futureId : Nat) :
    Underway e.stack.base e.stack.top futureId (firstSlice m futureId) := by
  suffices hrests : Rests e.stack.base e.stack.top m.exec.stack from ⟨hrests,hrests.top,rfl⟩
  unfold startActor at h
  dsimp only at h
  split at h
  · cases h
  · rename_i k hk
    have hpush := hidle.push hk
    split at h
    · split at h
      · cases h
        rw [enterLoop_exec]
        exact hpush.same (sameSlab_setAct _ _)
      · cases h
      · cases h
    · cases h
      rw [enterLoop_exec]
      exact hpush

/-! ### What a reply stands for -/

/-- The activation returns `v` out of its bottom frame, in whatever slices. -/
def Completes (env : Env ω) (s : Slicing ω) (p : Processing ω) (v : Oop) (e : Exec ω) : Prop :=
  ∃ u,Reaches (processStep env s) p u ∧
    step env (sliceMode (some (s.quota u.slice))) u.machine = .error (.returned v e)

/-- The future of the message is resolved only with what its completed activation returned. -/
def ReplyFaithful (env : Env ω) (s : Slicing ω) (b : Behavior) (msg : AskMessage) (e : Exec ω)
    (futureId : Nat) (word : Option Oop) (e' : Exec ω) : Prop :=
  futureId = msg.futureId ∧ ∃ c m v,dispatchMessage env b msg e.world = .ok (some c) ∧
    startActor env e c = .ok (.inr m) ∧ Completes env s (firstSlice m msg.futureId) v e' ∧
    word = some v ∧
    ∀ p fuel objs base,ReplyReady p fuel objs base e'.world.mem v →
      ∃ m' w heap,routeReply p fuel (some base) e'.world.mem v = some (some (m',w,heap)) ∧
        Isomorphic (mutableGraph p.formats e'.world.mem) [v] (mutableGraph p.formats m') [w]

/-- Every end of the processing leaves the slab as it was, and resolves the future with the
activation's result only. -/
def RepliesCorrectly (env : Env ω) (childFailed : Oop) (s : Slicing ω) (b : Behavior)
    (msg : AskMessage) (e : Exec ω) : Prop :=
  ∀ r,Processed env childFailed s b msg e r →
    (∀ futureId word e' slab,r = .replied futureId word e' slab →
      ReplyFaithful env s b msg e futureId word e') ∧
    ∀ slab,r.slab = some slab → slab = e.stack.slab

/-- The first frame of the selected method fits, and no exception gets to the catch-all handler. -/
def RunsToItsEnd (env : Env ω) (childFailed : Oop) (s : Slicing ω) (b : Behavior)
    (msg : AskMessage) (e : Exec ω) : Prop :=
  ∀ c,¬ forSupervisor childFailed b msg → dispatchMessage env b msg e.world = .ok (some c) →
    FirstFrameFits e c ∧ ∀ m futureId slab,startActor env e c = .ok (.inr m) →
      ¬ Halts (processStep env s) (firstSlice m msg.futureId) (.crashed futureId slab)

theorem Underway.run {futureId : Nat} {u : Processing ω} (hprim : KeepsSlab env)
    (hbetween : ∀ n e,SameSlab e.stack (s.between n e).stack) (h : Underway base a futureId p)
    (hr : Reaches (processStep env s) p u) : Underway base a futureId u :=
  hr.invariant (fun _ _ _ hv hstep => hv.next hprim hbetween hstep) h

end

/-! An actor whose class has one method, run without interruption. -/

def oneMethodEnv (code : CompiledMethod) : Env Unit :=
  ⟨0,0,0,0,fun o => if o = 256 then some code else none,fun _ => 0,fun _ _ _ => 256,fun _ => none⟩

/-- The behavior object at 4096, its class at 8192, and `room` bytes of heap. -/
def oneMethodActor (room : Nat) : Exec Unit where
  world :=
    { heap := ⟨65536,room,0⟩
      mem := fun o =>
        if o = 4096 then some ⟨1,0,0,0,[]⟩
        else if o = 8192 then some ⟨0,0,0,0,[0,16,1]⟩ else none
      classTable := [0,8192]
      handlers := []
      signaled := 0
      rest := () }
  stack := ⟨1024,some 2048,1024,[],[]⟩

def wholeSlices : Slicing Unit := ⟨fun _ => 1000,fun _ e => e⟩

/-- `answer: x  ^self`, without and with a context for its argument. -/
def returnsSelf (largeFrame : Bool) : CompiledMethod :=
  ⟨methodHeader 1 1 0 0 false largeFrame,[],[Opcode.returnSelf.code,0]⟩

end SmalltalkA
