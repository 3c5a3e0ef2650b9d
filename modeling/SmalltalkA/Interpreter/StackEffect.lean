import SmalltalkA.Compiler.StackDepth
import SmalltalkA.Interpreter.Loop

/-! The interpreter does to the expression stack what the labelling says: every instruction finds
the values it takes, and leaves as many as it pushes. -/

set_option autoImplicit false

namespace SmalltalkA

variable {ω : Type}

variable {l l' : Locals} {v : Oop} {w w' : World ω} {a : Activation} {cm : CompiledMethod}
  {insn : Insn} {o : Opcode}

theorem Locals.pop_depth (h : l.pop = .ok (v,l')) : l.stack.length = l'.stack.length + 1 := by
  unfold Locals.pop at h
  split at h
  · next v' rest hs =>
    cases h
    simp [hs]
  · cases h

theorem Locals.peek_depth (h : l.peek = .ok v) : 1 ≤ l.stack.length := by
  cases hs : l.stack with
  | nil => simp [Locals.peek,hs,defined] at h
  | cons a as => simp

theorem storeSlot_depth {ptr : SlotPtr} {i : Nat} (h : storeSlot ptr l w i v = .ok (l',w')) :
    l'.stack = l.stack := by
  cases ptr with
  | inline =>
    obtain ⟨l'',hl,hr⟩ := bind_ok h
    cases hr
    unfold Locals.setTemp at hl
    split at hl <;> cases hl
    rfl
  | payload o =>
    obtain ⟨w'',hw,hr⟩ := bind_ok h
    cases hr
    rfl

theorem copyBlock_depth {extra : List Oop} (h : copyBlock extra cm insn a w = .ok (l,w')) :
    l.stack.length = a.stack.length + 1 := by
  obtain ⟨desc,-,h⟩ := bind_ok h
  obtain ⟨startPc,-,h⟩ := bind_ok h
  obtain ⟨bodyLen,-,h⟩ := bind_ok h
  obtain ⟨numArgs,-,h⟩ := bind_ok h
  obtain ⟨tempOff,-,h⟩ := bind_ok h
  split at h
  · cases h
  · obtain ⟨w'',-,h⟩ := bind_ok h
    cases h
    rfl

theorem condJump_depth {op : Opcode} {on off : Oop} (h : condJump op on off insn l = .ok l') :
    l.stack.length = l'.stack.length + 1 := by
  obtain ⟨⟨v,l''⟩,hpop,h⟩ := bind_ok h
  rw [Locals.pop_depth hpop]
  dsimp only at h
  split at h
  · cases h
    rfl
  · split at h <;> cases h
    rfl

def StackEffect (o : Opcode) (before after : Locals) : Prop :=
  o.pops ≤ before.stack.length ∧ after.stack.length = before.stack.length - o.pops + o.pushes

theorem StackEffect.peeked (hpops : o.pops = 1) (hpushes : o.pushes = 1) (hpeek : l.peek = .ok v)
    (hl : l'.stack = l.stack) :
    StackEffect o l l' := by
  have hd := Locals.peek_depth hpeek
  simp only [StackEffect,hpops,hpushes,hl]
  omega

theorem StackEffect.popped {l₁ : Locals} (hpops : o.pops = 1) (hpushes : o.pushes = 0)
    (hpop : l.pop = .ok (v,l₁)) (hl : l'.stack = l₁.stack) :
    StackEffect o l l' := by
  have hd := Locals.pop_depth hpop
  simp only [StackEffect,hpops,hpushes,hl]
  omega

theorem StackEffect.pushed (hpops : o.pops = 0) (hpushes : o.pushes = 1)
    (hl : l'.stack = v :: l.stack) : StackEffect o l l' := by
  simp [StackEffect,hpops,hpushes,hl]

/-- An instruction of the current activation that succeeds. -/
theorem localStep_depth {env : Env ω} {ptr : SlotPtr} (ho : Opcode.ofCode insn.opcode = some o)
    (h : localStep env ptr cm insn a w = .ok (l,w')) : StackEffect o a.toLocals l := by
  unfold localStep at h
  simp only [ho] at h
  cases o with
  | storeTemp =>
    obtain ⟨v,hv,h⟩ := bind_ok h
    obtain ⟨⟨l₁,w₁⟩,hstore,h⟩ := bind_ok h
    cases h
    have hs := storeSlot_depth hstore
    exact .peeked rfl rfl hv hs
  | popStoreTemp =>
    obtain ⟨⟨v,l₁⟩,hv,h⟩ := bind_ok h
    obtain ⟨⟨l₂,w₁⟩,hstore,h⟩ := bind_ok h
    cases h
    have hs := storeSlot_depth hstore
    exact .popped rfl rfl hv hs
  | storeInstvar =>
    obtain ⟨v,hv,h⟩ := bind_ok h
    obtain ⟨w₁,-,h⟩ := bind_ok h
    cases h
    exact .peeked rfl rfl hv rfl
  | popStoreInstvar =>
    obtain ⟨⟨v,l₁⟩,hv,h⟩ := bind_ok h
    obtain ⟨w₁,-,h⟩ := bind_ok h
    cases h
    exact .popped rfl rfl hv rfl
  | storeGlobal =>
    obtain ⟨assoc,-,h⟩ := bind_ok h
    obtain ⟨v,hv,h⟩ := bind_ok h
    obtain ⟨w₁,-,h⟩ := bind_ok h
    cases h
    exact .peeked rfl rfl hv rfl
  | popStoreGlobal =>
    obtain ⟨assoc,-,h⟩ := bind_ok h
    obtain ⟨⟨v,l₁⟩,hv,h⟩ := bind_ok h
    obtain ⟨w₁,-,h⟩ := bind_ok h
    cases h
    exact .popped rfl rfl hv rfl
  | storeOuterTemp =>
    obtain ⟨ctx,-,h⟩ := bind_ok h
    obtain ⟨v,hv,h⟩ := bind_ok h
    obtain ⟨w₁,-,h⟩ := bind_ok h
    cases h
    exact .peeked rfl rfl hv rfl
  | popStoreOuterTemp =>
    obtain ⟨ctx,-,h⟩ := bind_ok h
    obtain ⟨⟨v,l₁⟩,hv,h⟩ := bind_ok h
    obtain ⟨w₁,-,h⟩ := bind_ok h
    cases h
    exact .popped rfl rfl hv rfl
  | jumpTrue | jumpFalse =>
    obtain ⟨l₁,hjump,h⟩ := bind_ok h
    cases h
    have hd := condJump_depth hjump
    simp only [StackEffect,Opcode.pops,Opcode.pushes]
    omega
  | pop =>
    obtain ⟨⟨v,l₁⟩,hv,h⟩ := bind_ok h
    cases h
    exact .popped rfl rfl hv rfl
  | dup =>
    obtain ⟨v,hv,h⟩ := bind_ok h
    cases h
    have hd := Locals.peek_depth hv
    simp only [StackEffect,Opcode.pops,Opcode.pushes,Locals.advance,Locals.push,List.length_cons]
    omega
  | blockCopy | closureCopy =>
    have hd := copyBlock_depth h
    simp only [StackEffect,Opcode.pops,Opcode.pushes]
    omega
  | pushOuterTemp =>
    obtain ⟨ctx,-,h⟩ := bind_ok h
    obtain ⟨v,-,h⟩ := bind_ok h
    cases h
    exact .pushed rfl rfl rfl
  | nop | jump | jumpBack =>
    cases h
    exact ⟨Nat.zero_le _,rfl⟩
  | pushReceiver | pushNil | pushTrue | pushFalse | pushLit | pushTemp | pushInstvar | pushGlobal
  | pushSmallint | pushMinusOne | pushZero | pushOne | pushTwo =>
    obtain ⟨v,-,h⟩ := bind_ok h
    cases h
    exact .pushed rfl rfl rfl
  | _ => cases h

theorem prepareSend_depth {env : Env ω} {isSuper : Bool} {c : Call}
    (h : prepareSend env isSuper cm insn a w = .ok (c,l,w')) :
    ∃ selector,methodLiteral cm insn.operand = .ok selector ∧
      a.stack.length = l.stack.length + (env.selectorArity selector + 1) := by
  obtain ⟨selector,hsel,h⟩ := bind_ok h
  obtain ⟨⟨args,l₁⟩,hargs,h⟩ := bind_ok h
  obtain ⟨⟨receiver,l₂⟩,hpop,h⟩ := bind_ok h
  obtain ⟨⟨found,args',w₁⟩,-,h⟩ := bind_ok h
  obtain ⟨code,-,h⟩ := bind_ok h
  cases h
  refine ⟨selector,hsel,?_⟩
  have hd := Locals.pop_depth hpop
  unfold Locals.popArgs at hargs
  split at hargs
  · next hle =>
    cases hargs
    simp only [List.length_drop] at hd
    simp only [Locals.advance]
    omega
  · cases hargs

end SmalltalkA
