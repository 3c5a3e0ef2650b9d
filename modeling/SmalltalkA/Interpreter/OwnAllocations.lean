import SmalltalkA.Interpreter.Collecting
import SmalltalkA.Interpreter.Nested

/-! The objects that the interpreter itself allocates: contexts, closures, Messages and exceptions,
with `sta_heap_alloc`, which does not collect, where primitives use `sta_heap_alloc_gc`. -/

set_option autoImplicit false

namespace SmalltalkA

open List

section

variable {ω : Type}

/-- The BlockCannotReturn exception of `OP_NON_LOCAL_RETURN`. -/
def makeBlockCannotReturn (env : Env ω) (w : World ω) (result : Oop) :
    Except Fault (Oop × World ω) :=
  match w.alloc clsBlockCannotReturn 4 with
  | none => .error (.fatal .blockCannotReturn)
  | some (exc,w) => do return (exc,← w.setSlots exc 0 [env.nilOop,env.nilOop,result,env.nilOop])

/-- The FutureFailure exception of `signal_future_failure`. -/
def makeFutureFailure (env : Env ω) (w : World ω) (reason : Oop) : Except Fault (Oop × World ω) :=
  match w.alloc clsFutureFailure 2 with
  | none => .error (.fatal .inPrimitive)
  | some (exc,w) => do return (exc,← w.setSlots exc 0 [reason,env.nilOop])

end

/-! ## The allocations and what they are to give -/

inductive OwnAllocation
  /-- the context of a new activation, with its first `size` slots -/
  | context (a : Activation) (size : Nat)
  /-- `OP_BLOCK_COPY` and `OP_CLOSURE_COPY` -/
  | closure (captures : Bool) (cm : CompiledMethod) (insn : Insn) (a : Activation)
  | message (selector receiverClass : Oop) (args : List Oop)
  | blockCannotReturn (result : Oop)
  | futureFailure (reason : Oop)

def HasContents {ω : Type} (w : World ω) (o : Oop) (classIndex : Nat) (contents : List Oop) :
    Prop :=
  w.mem o = some ⟨classIndex,0,0,0,contents⟩

namespace OwnAllocation

def extra (captures : Bool) (a : Activation) : List Oop := if captures then [a.context] else []

def requests : OwnAllocation → List Nat
  | .context _ size => [size]
  | .closure captures _ _ a => [5 + (extra captures a).length]
  | .message _ _ args => [3,args.length]
  | .blockCannotReturn _ => [4]
  | .futureFailure _ => [2]

section

variable {ω : Type} (env : Env ω) (w : World ω)

/-- What the allocation reads is there, and is not in the free part of the heap. -/
def Valid : OwnAllocation → Prop
  | .context a size => size ≤ a.temps.length
  | .closure _ cm insn _ => ∃ desc startPc bodyLen numArgs tempOff,
      methodLiteral cm insn.operand = .ok desc ∧ w.mem.slot desc 0 = some startPc ∧
      w.mem.slot desc 1 = some bodyLen ∧ w.mem.slot desc 2 = some numArgs ∧
      w.mem.slot desc 3 = some tempOff
  | .message selector _ _ => ∀ o,o = selector ∨ o = env.nilOop →
      o < w.heap.base + w.heap.used ∨ w.heap.base + w.heap.capacity ≤ o
  | _ => True

def Succeeds : OwnAllocation → Prop
  | .context a size => ∃ a' w',giveContext a size w = .ok (a',w') ∧
      HasContents w' a'.context clsArray (a.temps.take size)
  | .closure captures cm insn a => ∃ l w' o desc startPc numArgs tempOff,
      copyBlock (extra captures a) cm insn a w = .ok (l,w') ∧ l.stack = o :: a.stack ∧
      methodLiteral cm insn.operand = .ok desc ∧ w.mem.slot desc 0 = some startPc ∧
      w.mem.slot desc 2 = some numArgs ∧ w.mem.slot desc 3 = some tempOff ∧
      HasContents w' o clsBlockClosure
        ([startPc,numArgs,a.method,a.receiver,tempOff] ++ extra captures a)
  | .message selector receiverClass args => ∃ msg arr w',
      makeMessage env w selector receiverClass args = .ok (msg,w') ∧ msg ≠ selector ∧
      arr ≠ env.nilOop ∧ HasContents w' msg clsMessage [selector,arr,receiverClass] ∧
      HasContents w' arr clsArray args
  | .blockCannotReturn result => ∃ exc w',makeBlockCannotReturn env w result = .ok (exc,w') ∧
      HasContents w' exc clsBlockCannotReturn [env.nilOop,env.nilOop,result,env.nilOop]
  | .futureFailure reason => ∃ exc w',makeFutureFailure env w reason = .ok (exc,w') ∧
      HasContents w' exc clsFutureFailure [reason,env.nilOop]

end

end OwnAllocation

def requestBytes (requests : List Nat) : Nat := (requests.map alignedSize).sum

/-- The primitives' allocator would get an object as large as all that are asked for. -/
def WouldFit (e : Exec ActorRest) (requests : List Nat) : Prop :=
  ∃ e' o,primAlloc e clsArray ((requestBytes requests - 16) / 8) = some (e',some o)

theorem wouldFit_of_isSome {e : Exec ActorRest} {requests : List Nat}
    (h : ((primAlloc e clsArray ((requestBytes requests - 16) / 8)).bind (·.2)).isSome = true) :
    WouldFit e requests := by
  obtain ⟨o,ho⟩ := Option.isSome_iff_exists.mp h
  obtain ⟨⟨e',o'⟩,halloc,rfl⟩ := Option.bind_eq_some_iff.mp ho
  exact ⟨e',o,halloc⟩

def HasRoom (h : Heap) (requests : List Nat) : Prop :=
  h.used + requestBytes requests ≤ h.capacity

/-! ## When the plain allocator is enough -/

section

variable {ω : Type}

variable {w : World ω}

theorem alloc_none {classIndex nwords : Nat}
    (h : ¬ w.heap.used + alignedSize nwords ≤ w.heap.capacity) :
    w.alloc classIndex nwords = none := by
  simp only [World.alloc,heapAlloc]
  rw [if_pos (by omega)]
  rfl

def World.putObj (w : World ω) (o : Oop) (obj : Obj) : World ω :=
  { w with mem := w.mem.put o (some obj) }

def World.bumped (w : World ω) (nwords : Nat) : World ω :=
  { w with heap := { w.heap with used := w.heap.used + alignedSize nwords } }

theorem alloc_eq {classIndex nwords : Nat} (h : w.heap.used + alignedSize nwords ≤ w.heap.capacity)
    :
    w.alloc classIndex nwords = some (w.heap.base + w.heap.used,
      (w.bumped nwords).putObj (w.heap.base + w.heap.used) (newObj classIndex nwords)) := by
  simp only [World.alloc,heapAlloc]
  rw [if_neg (Nat.not_lt.mpr h)]
  rfl

theorem putObj_putObj (w : World ω) (o : Oop) (x y : Obj) :
    (w.putObj o x).putObj o y = w.putObj o y := by
  simp [World.putObj,Memory.put]

theorem putObj_same {o : Oop} {obj : Obj} (h : w.mem o = some obj) : w.putObj o obj = w := by
  have hmem : w.mem.put o (some obj) = w.mem := by
    rw [Memory.put,← h,Function.update_eq_self]
  rw [World.putObj,hmem]

theorem setSlots_eq {o : Oop} {vs : List Oop} : ∀ {w : World ω} {obj : Obj} {i : Nat},
    w.mem o = some obj → i + vs.length = obj.payload.length →
      w.setSlots o i vs = .ok (w.putObj o { obj with payload := obj.payload.take i ++ vs }) := by
  induction vs with
  | nil =>
    intro w obj i hobj hlen
    have htake : obj.payload.take i ++ [] = obj.payload := by
      rw [append_nil,show i = obj.payload.length by simpa using hlen,take_length]
    rw [htake,putObj_same hobj]
    rfl
  | cons v vs ih =>
    intro w obj i hobj hlen
    rw [length_cons] at hlen
    have hset : w.setSlot o i v = .ok (w.putObj o { obj with payload := obj.payload.set i v }) := by
      simp [World.setSlot,Memory.setSlot,hobj,show i < obj.payload.length by omega,defined,
        World.putObj,bind,Except.bind,pure,Except.pure]
    have hrest := @ih (w.putObj o { obj with payload := obj.payload.set i v })
      { obj with payload := obj.payload.set i v } (i + 1) (Memory.put_same _ _ _)
      (by rw [length_set]; omega)
    have htake : (obj.payload.set i v).take (i + 1) ++ vs = obj.payload.take i ++ v :: vs := by
      rw [take_succ_eq_append_getElem (by rw [length_set]; omega),take_set_of_le (Nat.le_refl i)]
      simp
    rw [World.setSlots,hset]
    simpa [bind,Except.bind,putObj_putObj,htake] using hrest

theorem alloc_fill {w : World ω} {classIndex nwords : Nat} {vs : List Oop}
    (hlen : vs.length = nwords) (hroom : w.heap.used + alignedSize nwords ≤ w.heap.capacity) :
    ∃ w₁ w',w.alloc classIndex nwords = some (w.heap.base + w.heap.used,w₁) ∧
      w₁.setSlots (w.heap.base + w.heap.used) 0 vs = .ok w' ∧
      HasContents w' (w.heap.base + w.heap.used) classIndex vs ∧
      ∀ o,o ≠ w.heap.base + w.heap.used → w'.mem o = w.mem o := by
  refine ⟨_,_,alloc_eq hroom,setSlots_eq (Memory.put_same _ _ _) ?_,Memory.put_same _ _ _,?_⟩
  · simpa [newObj] using hlen
  · intro o hne
    rw [putObj_putObj]
    exact Memory.put_other hne _

theorem makeMessage_eq (env : Env ω) (selector receiverClass : Oop) {args : List Oop}
    (h : w.heap.used + alignedSize 3 + alignedSize args.length ≤ w.heap.capacity) :
    let msg := w.heap.base + w.heap.used
    let arr := msg + alignedSize 3
    ∃ w',makeMessage env w selector receiverClass args = .ok (msg,w') ∧
      HasContents w' msg clsMessage [selector,arr,receiverClass] ∧
      HasContents w' arr clsArray args := by
  intro msg arr
  have hne : arr ≠ msg := by
    have hpos := alignedSize_pos 3
    have harr : (arr : Nat) = msg + alignedSize 3 := rfl
    intro heq
    rw [heq] at harr
    omega
  have hmsg : w.alloc clsMessage 3 = some (msg,(w.bumped 3).putObj msg (newObj clsMessage 3)) :=
    alloc_eq (by omega)
  have hbase : w.heap.base + (w.heap.used + alignedSize 3) = arr := (Nat.add_assoc _ _ _).symm
  obtain ⟨w₁,w₂,halloc,hfill,harr,hother⟩ := @alloc_fill _
    ((w.bumped 3).putObj msg (newObj clsMessage 3)) clsArray args.length args rfl h
  simp only [World.putObj,World.bumped,hbase] at halloc hfill harr hother
  have hobj : w₂.mem msg = some (newObj clsMessage 3) := by
    rw [hother msg hne.symm,Memory.put_same]
  refine ⟨w₂.putObj msg ⟨clsMessage,0,0,0,[selector,arr,receiverClass]⟩,?_,Memory.put_same _ _ _,?_⟩
  · simp only [makeMessage,hmsg,World.putObj,World.bumped,halloc]
    rw [hfill]
    have hlast := @setSlots_eq _ _ [selector,arr,receiverClass] _ _ 0 hobj rfl
    simp only [bind,Except.bind,hlast]
    rfl
  · exact (Memory.put_other hne _).trans harr

namespace OwnAllocation

variable (env : Env ω) {w : World ω}

theorem context_succeeds_iff {a : Activation} {size : Nat} (hsize : size ≤ a.temps.length) :
    (OwnAllocation.context a size).Succeeds env w ↔
      w.heap.used + alignedSize size ≤ w.heap.capacity := by
  constructor
  · rintro ⟨a',w',hgive,-⟩
    by_contra hfull
    simp [giveContext,alloc_none hfull] at hgive
  · intro hroom
    have hlen : (a.temps.take size).length = size := by rw [length_take]; omega
    obtain ⟨w₁,w',halloc,hfill,hcontents,-⟩ := @alloc_fill _ w clsArray _ _ hlen hroom
    refine ⟨{ a with context := w.heap.base + w.heap.used,marker := true },w',?_,hcontents⟩
    simp only [giveContext,halloc]
    rw [if_neg (Nat.not_lt.mpr hsize),hfill]
    rfl

theorem closure_succeeds_iff {captures : Bool} {cm : CompiledMethod} {insn : Insn}
    {a : Activation} (hvalid : (OwnAllocation.closure captures cm insn a).Valid env w) :
    (OwnAllocation.closure captures cm insn a).Succeeds env w ↔
      w.heap.used + alignedSize (5 + (extra captures a).length) ≤ w.heap.capacity := by
  obtain ⟨desc,startPc,bodyLen,numArgs,tempOff,hdesc,h0,h1,h2,h3⟩ := hvalid
  constructor
  · rintro ⟨l,w',o,-,-,-,-,hcopy,-⟩
    by_contra hfull
    simp [copyBlock,alloc_none hfull,hdesc,h0,h1,h2,h3,defined,bind,Except.bind] at hcopy
  · intro hroom
    obtain ⟨w₁,w',halloc,hfill,hcontents,-⟩ := @alloc_fill _ w clsBlockClosure _
      ([startPc,numArgs,a.method,a.receiver,tempOff] ++ extra captures a)
      (by rw [length_append]; rfl) hroom
    refine ⟨{ a.toLocals.push (w.heap.base + w.heap.used) with
      pc := ((smallIntVal startPc + smallIntVal bodyLen) % 2 ^ 32).toNat },w',_,desc,startPc,
      numArgs,tempOff,?_,rfl,hdesc,h0,h2,h3,hcontents⟩
    simp only [copyBlock,hdesc,h0,h1,h2,h3,defined,bind,Except.bind,halloc,hfill]
    rfl

theorem message_succeeds_iff {selector receiverClass : Oop} {args : List Oop}
    (hvalid : (OwnAllocation.message selector receiverClass args).Valid env w) :
    (OwnAllocation.message selector receiverClass args).Succeeds env w ↔
      w.heap.used + (alignedSize 3 + alignedSize args.length) ≤ w.heap.capacity := by
  constructor
  · rintro ⟨msg,arr,w',hmake,hmsg,harr,hcontents,-⟩
    by_contra hfull
    by_cases hfirst : w.heap.used + alignedSize 3 ≤ w.heap.capacity
    · -- the Message without its argument Array has nil in its place
      have hnone : ((w.bumped 3).putObj (w.heap.base + w.heap.used) (newObj clsMessage 3)).alloc
          clsArray args.length = none := alloc_none (by
            simpa [World.putObj,World.bumped,Nat.add_assoc] using hfull)
      have hfill := @setSlots_eq _ (w.heap.base + w.heap.used) [selector,env.nilOop,receiverClass]
        ((w.bumped 3).putObj (w.heap.base + w.heap.used) (newObj clsMessage 3)) _ 0
        (Memory.put_same _ _ _) rfl
      simp only [makeMessage,alloc_eq hfirst,hnone,bind,Except.bind,hfill] at hmake
      cases hmake
      have hslots := (Memory.put_same _ _ _).symm.trans hcontents
      simp at hslots
      exact harr hslots.2.2.2.2.symm
    · simp only [makeMessage,alloc_none hfirst] at hmake
      cases hmake
      exact hmsg rfl
  · intro hroom
    obtain ⟨w',hmake,hmsg,harr⟩ := makeMessage_eq env selector receiverClass
      (le_of_eq_of_le (Nat.add_assoc _ _ _) hroom)
    have hold : ∀ o : Nat,o = selector ∨ o = env.nilOop →
        o < w.heap.base + w.heap.used ∨ w.heap.base + w.heap.capacity ≤ o := hvalid
    have hpos := alignedSize_pos args.length
    have hpos3 := alignedSize_pos 3
    refine ⟨_,_,w',hmake,?_,?_,hmsg,harr⟩
    · intro heq
      have := hold _ (.inl heq)
      omega
    · intro heq
      have := hold _ (.inr heq)
      omega

theorem blockCannotReturn_succeeds_iff {result : Oop} :
    (OwnAllocation.blockCannotReturn result).Succeeds env w ↔
      w.heap.used + alignedSize 4 ≤ w.heap.capacity := by
  constructor
  · rintro ⟨exc,w',hmake,-⟩
    by_contra hfull
    simp [makeBlockCannotReturn,alloc_none hfull] at hmake
  · intro hroom
    obtain ⟨w₁,w',halloc,hfill,hcontents,-⟩ := @alloc_fill _ w clsBlockCannotReturn 4
      [env.nilOop,env.nilOop,result,env.nilOop] rfl hroom
    refine ⟨_,w',?_,hcontents⟩
    simp only [makeBlockCannotReturn,halloc,hfill,bind,Except.bind]
    rfl

theorem futureFailure_succeeds_iff {reason : Oop} :
    (OwnAllocation.futureFailure reason).Succeeds env w ↔
      w.heap.used + alignedSize 2 ≤ w.heap.capacity := by
  constructor
  · rintro ⟨exc,w',hmake,-⟩
    by_contra hfull
    simp [makeFutureFailure,alloc_none hfull] at hmake
  · intro hroom
    obtain ⟨w₁,w',halloc,hfill,hcontents,-⟩ := @alloc_fill _ w clsFutureFailure 2
      [reason,env.nilOop] rfl hroom
    refine ⟨_,w',?_,hcontents⟩
    simp only [makeFutureFailure,halloc,hfill,bind,Except.bind]
    rfl

theorem succeeds_iff {site : OwnAllocation} (hvalid : site.Valid env w) :
    site.Succeeds env w ↔ HasRoom w.heap site.requests := by
  cases site with
  | context a size => simpa [HasRoom,requestBytes,requests] using context_succeeds_iff env hvalid
  | closure captures cm insn a =>
    simpa [HasRoom,requestBytes,requests] using closure_succeeds_iff env hvalid
  | message selector receiverClass args =>
    simpa [HasRoom,requestBytes,requests] using message_succeeds_iff env hvalid
  | blockCannotReturn result =>
    simpa [HasRoom,requestBytes,requests] using @blockCannotReturn_succeeds_iff _ env w result
  | futureFailure reason =>
    simpa [HasRoom,requestBytes,requests] using @futureFailure_succeeds_iff _ env w reason

end OwnAllocation

end

/-- No allocation of the interpreter fails for want of memory that a collection or a growth would
give, just when the heap has room without them. -/
theorem own_allocation_iff (env : Env ActorRest) (e : Exec ActorRest) (site : OwnAllocation)
    (hvalid : site.Valid env e.world) :
    (WouldFit e site.requests → site.Succeeds env e.world) ↔
      (WouldFit e site.requests → HasRoom e.world.heap site.requests) :=
  imp_congr_right (fun _ => OwnAllocation.succeeds_iff env hvalid)

theorem message_roomy :
    (OwnAllocation.message 528 512 [768]).Succeeds collectEnv (collectWorld 4096) :=
  (own_allocation_iff collectEnv (collectStart 4096).exec _
    (by rintro o (rfl | rfl) <;> decide)).mpr (fun _ => by unfold HasRoom; decide)
    (wouldFit_of_isSome (by decide +kernel))

/-- A dead object fills the heap up to the argument Array: a collection would make room, but the
Message gets nil. -/
theorem message_without_arguments :
    WouldFit (collectStart 80).exec (OwnAllocation.message 528 512 [768]).requests ∧
      (∃ w',makeMessage collectEnv (collectWorld 80) 528 512 [768] = .ok (8208,w') ∧
        w'.mem.slot 8208 1 = some collectEnv.nilOop) ∧
      ¬ (OwnAllocation.message 528 512 [768]).Succeeds collectEnv (collectWorld 80) := by
  refine ⟨wouldFit_of_isSome (by decide +kernel),?_,?_⟩
  · exact ⟨_,rfl,rfl⟩
  · rw [OwnAllocation.succeeds_iff collectEnv (by rintro o (rfl | rfl) <;> decide)]
    unfold HasRoom
    decide

end SmalltalkA
