import SmalltalkA.Oop

/-! The variables of block activations. All closures of a method keep theirs in one context array,
each block at the offset the compiler gave it. -/

set_option autoImplicit false

namespace SmalltalkA

open List

/-- A method or block as `emit_block` lays it out: arguments, then temporaries, from `tempOff` on.
`path` are the starts of the block and of those around it, innermost first. -/
structure BlockInfo where
  path : List Nat
  tempOff : Nat
  numArgs : Nat
  numTemps : Nat
  deriving DecidableEq,Repr

namespace BlockInfo

def bound (b : BlockInfo) : Nat := b.tempOff + b.numArgs + b.numTemps

/-- Slot `i` of the context is one of the block's parameters and temporaries. -/
def Owns (b : BlockInfo) (i : Nat) : Prop := b.tempOff ≤ i ∧ i < b.bound

/-- The variables of `b` are lexically visible in `c`. -/
def Encloses (b c : BlockInfo) : Prop := b.path <:+ c.path ∧ b.path ≠ c.path

/-- An activation of `b` is safe from one of `c` in the same context: its variables lie above all
that `c` can name, or `c` is inside it. -/
def Apart (b c : BlockInfo) : Prop :=
  (∀ i,b.Owns i → c.bound ≤ i) ∨ b.Encloses c ∧ b.bound ≤ c.tempOff

end BlockInfo

/-- An activation with a context that has not returned. -/
structure LiveBlock where
  ctx : Oop
  block : BlockInfo
  deriving DecidableEq,Repr

/-- The slots of all objects and the activations with a context, newest first. -/
structure Storage where
  slots : Oop → Nat → Option Oop
  live : List LiveBlock

def writeSlots (slots : Oop → Nat → Option Oop) (ctx : Oop) (off : Nat) (vs : List Oop) :
    Oop → Nat → Option Oop :=
  fun o i => if o = ctx ∧ off ≤ i ∧ i < off + vs.length then vs[i - off]? else slots o i

/-- What happens to the variables: a closure is activated, a method is entered with a new context,
the `n`-th live activation assigns to a slot, activations return, and all else. -/
inductive VarEvent where
  | activate (ctx : Oop) (block : BlockInfo) (args : List Oop)
  | enter (ctx : Oop) (block : BlockInfo)
  | store (n slot : Nat) (v : Oop)
  | leave
  | other

def Storage.Runs (s : Storage) (n : Nat) (x : LiveBlock) : Prop :=
  s.live[n]? = some x ∧ ∀ m y,m < n → s.live[m]? = some y → y.ctx ≠ x.ctx

inductive StorageStep : VarEvent → Storage → Storage → Prop where
  | activate {s : Storage} (ctx : Oop) (block : BlockInfo) (args : List Oop) :
      StorageStep (.activate ctx block args) s
        ⟨writeSlots s.slots ctx block.tempOff args,⟨ctx,block⟩ :: s.live⟩
  | enter {s : Storage} (ctx : Oop) (block : BlockInfo) (slots : Oop → Nat → Option Oop)
      (fresh : ∀ l ∈ s.live,l.ctx ≠ ctx) (same : ∀ l ∈ s.live,slots l.ctx = s.slots l.ctx) :
      StorageStep (.enter ctx block) s ⟨slots,⟨ctx,block⟩ :: s.live⟩
  | store {s : Storage} (n slot : Nat) (v : Oop) (x : LiveBlock) (runs : s.Runs n x) :
      StorageStep (.store n slot v) s ⟨writeSlots s.slots x.ctx slot [v],s.live⟩
  | leave {s : Storage} (live : List LiveBlock) (sub : live.Sublist s.live) :
      StorageStep .leave s ⟨s.slots,live⟩
  | other {s : Storage} (slots : Oop → Nat → Option Oop)
      (same : ∀ l ∈ s.live,slots l.ctx = s.slots l.ctx) : StorageStep .other s ⟨slots,s.live⟩

/-- A new activation finds its arguments and nil in its variables, and those of the others change
only through assignments by blocks that see them. -/
structure KeepsVariables (nilOop : Oop) (ev : VarEvent) (s s' : Storage) : Prop where
  fresh : ∀ ctx b args,ev = .activate ctx b args → args.length = b.numArgs ∧
    (∀ i,i < b.numArgs → s'.slots ctx (b.tempOff + i) = args[i]?) ∧
    ∀ i,i < b.numTemps → s'.slots ctx (b.tempOff + b.numArgs + i) = some nilOop
  kept : ∀ n l i,s.live[n]? = some l → l.block.Owns i →
    s'.slots l.ctx i = s.slots l.ctx i ∨
      ∃ m x v,ev = .store m i v ∧ s.live[m]? = some x ∧ x.ctx = l.ctx ∧
        (m = n ∨ l.block.Encloses x.block)

/-- A closure gets as many arguments as it takes, its temporaries hold nil from before, and no live
activation of its context uses its slots or slots below them, except enclosing blocks. An assignment
goes to a slot the running block can name, or to one no other live activation uses. -/
def noOverlap (nilOop : Oop) (s : Storage) : VarEvent → Prop
  | .activate ctx b args => args.length = b.numArgs ∧
      (∀ i,i < b.numTemps → s.slots ctx (b.tempOff + b.numArgs + i) = some nilOop) ∧
      ∀ l ∈ s.live,l.ctx = ctx → l.block.Apart b
  | .store n slot _ => ∀ x m l,s.live[n]? = some x → s.live[m]? = some l → m ≠ n →
      l.ctx = x.ctx → l.block.Owns slot → slot < x.block.bound
  | _ => True

/-! ### Overwritten slots -/

section

variable {slots : Oop → Nat → Option Oop} {ctx : Oop} {off : Nat} {vs : List Oop}

theorem writeSlots_at {i : Nat} (hi : i < vs.length) :
    writeSlots slots ctx off vs ctx (off + i) = vs[i]? := by
  simp [writeSlots,hi]

theorem writeSlots_outside {o i : Nat} (h : o = ctx → off ≤ i → i < off + vs.length → False) :
    writeSlots slots ctx off vs o i = slots o i := by
  simp only [writeSlots]
  exact if_neg (fun ⟨ho,hle,hlt⟩ => h ho hle hlt)

theorem writeSlots_nil : writeSlots slots ctx off [] = slots := by
  funext o i
  exact writeSlots_outside (fun _ hle hlt => by simp at hlt; omega)

theorem writeSlots_cons (v : Oop) : writeSlots (writeSlots slots ctx off [v]) ctx (off + 1) vs =
      writeSlots slots ctx off (v :: vs) := by
  funext o i
  simp only [writeSlots,length_cons,length_nil]
  by_cases ho : o = ctx
  · by_cases hi : i = off
    · subst hi
      rw [if_neg (by omega),if_pos ⟨ho,by omega,by omega⟩,if_pos ⟨ho,by omega,by omega⟩]
      simp
    · by_cases hr : off < i ∧ i < off + (vs.length + 1)
      · rw [if_pos ⟨ho,by omega,by omega⟩,if_pos ⟨ho,by omega,by omega⟩]
        rw [show i - off = i - (off + 1) + 1 by omega,getElem?_cons_succ]
      · rw [if_neg (by omega),if_neg (by omega),if_neg (by omega)]
  · simp [ho]

end

/-! ### Live activations stay apart -/

/-- Of two live activations of one context, the older one is safe from the newer. -/
def LiveApart (s : Storage) : Prop :=
  s.live.Pairwise (fun newer older => older.ctx = newer.ctx → older.block.Apart newer.block)

theorem BlockInfo.Apart.not_owns {b c : BlockInfo} (h : b.Apart c) {i : Nat} (hi : b.Owns i)
    (hc : c.Owns i) : False := by
  rcases h with h | ⟨-,h⟩
  · have := h i hi
    have := hc.2
    omega
  · have := hi.2
    have := hc.1
    omega

variable {nilOop : Oop} {ev : VarEvent} {s s' : Storage}

theorem LiveApart.step (hs : LiveApart s) (hev : noOverlap nilOop s ev)
    (h : StorageStep ev s s') : LiveApart s' := by
  cases h with
  | activate ctx block args => exact pairwise_cons.mpr ⟨fun l hl => hev.2.2 l hl,hs⟩
  | enter ctx block slots fresh same =>
    exact pairwise_cons.mpr ⟨fun l hl heq => absurd heq (fresh l hl),hs⟩
  | store n slot v x runs => exact hs
  | leave live sub => exact hs.sublist sub
  | other slots same => exact hs

theorem LiveApart.encloses (hs : LiveApart s) {n m i : Nat} {x l : LiveBlock}
    (hx : s.Runs n x) (hl : s.live[m]? = some l) (hne : m ≠ n) (hctx : l.ctx = x.ctx)
    (hown : l.block.Owns i) (hi : i < x.block.bound) : l.block.Encloses x.block := by
  have hnm : n < m := by
    rcases Nat.lt_or_gt_of_ne hne with hlt | hgt
    · exact absurd hctx (hx.2 m l hlt hl)
    · exact hgt
  obtain ⟨hn,rfl⟩ := List.getElem?_eq_some_iff.mp hx.1
  obtain ⟨hm,rfl⟩ := List.getElem?_eq_some_iff.mp hl
  rcases pairwise_iff_getElem.mp hs n m hn hm hnm hctx with h | ⟨h,-⟩
  · have := h i hown
    omega
  · exact h

theorem StorageStep.keeps (hs : LiveApart s) (hev : noOverlap nilOop s ev)
    (h : StorageStep ev s s') : KeepsVariables nilOop ev s s' := by
  cases h with
  | activate ctx block args =>
    obtain ⟨hlen,hnil,hapart⟩ := hev
    refine ⟨?_,fun n l i hl hown => .inl ?_⟩
    · intro _ _ _ heq
      cases heq
      refine ⟨hlen,fun i hi => writeSlots_at (by omega),fun i hi => ?_⟩
      exact (writeSlots_outside (fun _ _ hlt => by omega)).trans (hnil i hi)
    · refine writeSlots_outside (fun hctx hle hlt => ?_)
      refine (hapart l (mem_of_getElem? hl) hctx).not_owns hown ⟨hle,?_⟩
      unfold BlockInfo.bound
      omega
  | enter ctx block slots fresh same | other slots same =>
    exact ⟨nofun,fun n l i hl _ => .inl (congrFun (same l (mem_of_getElem? hl)) i)⟩
  | store n slot v x runs =>
    refine ⟨nofun,fun m l i hl hown => ?_⟩
    by_cases hhit : l.ctx = x.ctx ∧ i = slot
    · obtain ⟨hctx,rfl⟩ := hhit
      refine .inr ⟨n,x,v,rfl,runs.1,hctx.symm,?_⟩
      by_cases hmn : m = n
      · exact .inl hmn.symm
      · have hbound := hev x m l runs.1 hl hmn hctx hown
        exact .inr (hs.encloses runs hl hmn hctx hown hbound)
    · refine .inl (writeSlots_outside (fun hctx hle hlt => hhit ⟨hctx,?_⟩))
      simp at hlt
      omega
  | leave live sub => exact ⟨nofun,fun _ _ _ _ _ => .inl rfl⟩

def ApartStep (nilOop : Oop) (s s' : Storage) : Prop :=
  ∃ ev,noOverlap nilOop s ev ∧ StorageStep ev s s'

theorem LiveApart.run {s₀ : Storage} (h₀ : LiveApart s₀)
    (hrun : Relation.ReflTransGen (ApartStep nilOop) s₀ s) : LiveApart s := by
  induction hrun with
  | refl => exact h₀
  | tail _ hstep ih =>
    obtain ⟨ev,hev,h⟩ := hstep
    exact ih.step hev h

end SmalltalkA
