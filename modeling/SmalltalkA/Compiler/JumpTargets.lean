import SmalltalkA.Compiler.Refine

/-! Where the jumps of a compiled method go. They are meant to reach instruction boundaries; whether
the bytes do so depends on the size of the code each jump passes. -/

set_option autoImplicit false

namespace SmalltalkA

open List

variable {σ : Type}

/-- Every jump the dispatch loop decodes continues at the instruction it is meant for. -/
def JumpsLand (asm : List AInstr) (bytecodes : List Nat) : Prop :=
  ∀ pc ∈ (sweep bytecodes).map Prod.fst,(decodeInsn bytecodes pc).isJump = true →
    ∃ a t b,(pc,a) ∈ codeListing asm ∧ a.target pc = some t ∧ (t,b) ∈ codeListing asm ∧
      (decodeInsn bytecodes pc).jumpTarget pc = t

def AInstr.Fits : AInstr → Prop
  | .op _ _ => True
  | .jump _ skip => skip ≤ 255
  | .back span => span + 2 ≤ 255

instance (a : AInstr) : Decidable a.Fits := by
  cases a <;> (unfold AInstr.Fits; infer_instance)

/-! ## A method ends in an instruction that is no jump -/

def Ended (asm : List AInstr) : Prop := ∃ body o k,asm = body ++ [.op o k] ∧ Fragment body

theorem Ended.prepend {as bs : List AInstr} (ha : Fragment as) (hb : Ended bs) :
    Ended (as ++ bs) := by
  obtain ⟨body,o,k,rfl,hbody⟩ := hb
  exact ⟨as ++ body,o,k,by simp,ha.append hbody⟩

theorem Ended.op (o : Opcode) (k : Nat) : Ended [.op o k] := ⟨[],o,k,rfl,Fragment.nil⟩

variable {a : AInstr} {asm : List AInstr} {pc t : Nat} {o : Opcode}

theorem Ended.target_starts (h : Ended asm) (ha : (pc,a) ∈ codeListing asm)
    (ht : a.target pc = some t) :
    ∃ b,(t,b) ∈ codeListing asm := by
  obtain ⟨body,o,k,rfl,hbody⟩ := h
  rw [codeListing,Layout.listing_append,mem_append] at ha
  rcases ha with ha | ha
  · exact Layout.boundary_starts_item AInstr.size body _ 0 t (hbody.closed 0 pc a t ha ht)
  · simp only [Layout.listing,mem_singleton,Prod.mk.injEq] at ha
    obtain ⟨rfl,rfl⟩ := ha
    cases ht

theorem compileReturn_ended (env : CodegenEnv σ) (expr : Node) (pos : Nat) (t : Tables σ) :
    Ended (compileReturn expr (compiler env expr) pos t).1 := by
  have hvalue : Fragment ((compiler env expr).node true pos t).1 :=
    ((emitter_refines env expr).node true).fragment pos t
  unfold compileReturn
  split
  · exact Ended.prepend hvalue (Ended.op _ _)
  · split
    · exact Ended.op _ _
    · exact Ended.op _ _
    · exact Ended.op _ _
    · exact Ended.prepend hvalue (Ended.op _ _)

theorem compileStatements_ended (env : CodegenEnv σ) {stmts : List Node}
    (h : lastIsReturn stmts = true) (v : Bool) (pos : Nat) (t : Tables σ) :
    Ended (compileStatements env stmts v pos t).1 := by
  have hret : ∀ stmt : Node,stmt.isReturn = true → ∀ v pos (t : Tables σ),
      Ended ((compiler env stmt).node v pos t).1 := by
    intro stmt hs v pos t
    cases stmt <;> first | exact compileReturn_ended env _ pos t | cases hs
  induction stmts generalizing pos t with
  | nil => cases h
  | cons stmt stmts ih =>
    rw [compileStatements,compileStatement]
    cases stmts with
    | nil => exact hret stmt h _ pos t
    | cons stmt' stmts =>
      have hnode := fun v pos t => ((emitter_refines env stmt).node v).fragment pos t
      simp only [isEmpty_cons,Bool.false_eq_true,if_false]
      split
      · next hs => exact hret stmt hs true pos t
      · split
        · exact Ended.prepend (hnode false pos t) (ih h _ _)
        · refine Ended.prepend ?_ (ih h _ _)
          exact (hnode true pos t).append (Fragment.op rfl 0)

theorem compileMethod_ended (env : CodegenEnv σ) (args temps : List String) (body : List Node)
    (vm : σ) : Ended (compileMethod env args temps body vm) := by
  unfold compileMethod compileMethodBody
  split
  · exact Ended.op _ _
  · split
    · next h => exact compileStatements_ended env h _ _ _
    · refine Ended.prepend ((statements_refine env body true).fragment _ _) ?_
      exact Ended.prepend (Fragment.op rfl 0) (Ended.op _ _)

theorem compileMethod_fragment (env : CodegenEnv σ) (args temps : List String)
    (body : List Node) (vm : σ) : Fragment (compileMethod env args temps body vm) :=
  (methodBody_refines env body).fragment _ _

/-! ## What the emitted operand reaches -/

theorem insn_jump (h : o.isForward = true) (skip : Nat) :
    (AInstr.jump o skip).insn = ⟨o.code,skip % 256,2⟩ := by
  have hw := Opcode.code_ne_wide (Opcode.isForward_ne_wide h)
  simp [AInstr.insn,AInstr.bytes,decodeInsn,hw]

theorem decodeInsn_encodeWide (h : o ≠ .wide) {k : Nat} (hk : k < 65536) :
    decodeInsn (encodeWide o k) 0 = ⟨o.code,k,if k ≤ 255 then 2 else 4⟩ := by
  have hw := Opcode.code_ne_wide h
  unfold encodeWide
  split
  · simp only [decodeInsn,getD_cons_zero,hw,if_false,Insn.mk.injEq,true_and,and_true]
    simp only [getD_cons_succ,getD_cons_zero]
    omega
  · simp only [decodeInsn,getD_cons_zero,getD_cons_succ,if_true,Insn.mk.injEq,true_and,and_true]
    omega

theorem opcode_encodeWide (h : o ≠ .wide) (k : Nat) :
    (decodeInsn (encodeWide o k) 0).opcode = o.code := by
  have hw := Opcode.code_ne_wide h
  unfold encodeWide
  split <;> simp [decodeInsn,hw]

theorem insn_op_not_jump (h : o.isPlain = true) (k : Nat) :
    (AInstr.op o k).insn.isJump = false := by
  have hw : o ≠ .wide := by
    rintro rfl
    cases h
  have hcode : (AInstr.op o k).insn.opcode = o.code := opcode_encodeWide hw k
  simp only [Insn.isJump,hcode]
  cases o <;> first | rfl | cases h

theorem jumpTarget_eq_iff (ha : a.WellFormed) (ht : a.target pc = some t)
    (hpc : pc + a.size ≤ 2 ^ 31) (hle : t ≤ 2 ^ 31) (hspan : ∀ span,a = .back span → span ≤ pc) :
    a.insn.isJump = true ∧ (a.insn.jumpTarget pc = t ↔ a.Fits) := by
  cases a with
  | op o k => cases ht
  | jump o skip =>
    cases ht
    rw [insn_jump ha]
    have hback : o.code ≠ Opcode.jumpBack.code := by
      intro h
      cases Opcode.code_injective h
      cases ha
    constructor
    · cases o <;> first | rfl | cases ha
    · simp only [Insn.jumpTarget,hback,if_false,AInstr.Fits]
      omega
  | back span =>
    cases ht
    have hs := hspan span rfl
    have hdec : (AInstr.back span).insn =
        ⟨Opcode.jumpBack.code,(span + 2) % 65536,if (span + 2) % 65536 ≤ 255 then 2 else 4⟩ :=
      decodeInsn_encodeWide (by decide) (Nat.mod_lt _ (by decide))
    rw [hdec]
    refine ⟨rfl,?_⟩
    simp only [Insn.jumpTarget,if_true,AInstr.Fits]
    split <;> omega

theorem Fragment.span_le (h : Fragment asm) {span : Nat} (ha : (pc,.back span) ∈ codeListing asm) :
    span ≤ pc := by
  have hb := h.closed (0 + span) _ _ _ (Layout.listing_shift AInstr.size span ha) rfl
  have hle := (Layout.boundaries_bounds AInstr.size hb).1
  omega

theorem mem_sweep_encode (h : Fragment asm) {i : Insn} :
    (pc,i) ∈ sweep (encode asm) ↔ ∃ a,(pc,a) ∈ codeListing asm ∧ a.insn = i := by
  rw [sweep,sweepFrom_encode h.wellFormed]
  simp [codeListing]

theorem land_iff (hf : Fragment asm) (hsize : codeSize asm ≤ 2 ^ 31)
    (ha : (pc,a) ∈ codeListing asm) (ht : a.target pc = some t) :
    a.insn.isJump = true ∧ (a.insn.jumpTarget pc = t ↔ a.Fits) := by
  have hwf := hf.wellFormed a (Layout.mem_of_mem_listing AInstr.size ha)
  have hpc := (Layout.listing_bounds AInstr.size ha).2
  have hle := (Layout.boundaries_bounds AInstr.size (hf.closed 0 pc a t ha ht)).2
  rw [Nat.zero_add] at hpc hle
  refine jumpTarget_eq_iff hwf ht (Nat.le_trans hpc hsize) (Nat.le_trans hle hsize) ?_
  rintro span rfl
  exact hf.span_le ha

theorem jumpsLand_of_fits (hf : Fragment asm) (he : Ended asm) (hsize : codeSize asm ≤ 2 ^ 31)
    (h : ∀ a ∈ asm,a.Fits) : JumpsLand asm (encode asm) := by
  intro pc hpc hjump
  obtain ⟨⟨pc,i⟩,hmem,rfl⟩ := List.mem_map.mp hpc
  rw [decodeInsn_of_mem_sweep hmem] at hjump ⊢
  obtain ⟨a,ha,rfl⟩ := (mem_sweep_encode hf).mp hmem
  have hfits := h a (Layout.mem_of_mem_listing AInstr.size ha)
  cases hta : a.target pc with
  | none =>
    cases a with
    | op o k =>
      have hplain := hf.wellFormed _ (Layout.mem_of_mem_listing AInstr.size ha)
      rw [insn_op_not_jump hplain] at hjump
      cases hjump
    | jump o skip => cases hta
    | back span => cases hta
  | some t =>
    obtain ⟨b,hb⟩ := he.target_starts ha hta
    exact ⟨a,t,b,ha,hta,hb,(land_iff hf hsize ha hta).2.mpr hfits⟩

theorem fits_of_jumpsLand (hf : Fragment asm) (hsize : codeSize asm ≤ 2 ^ 31)
    (h : JumpsLand asm (encode asm)) : ∀ a ∈ asm,a.Fits := by
  intro a hmem
  obtain ⟨pc,ha⟩ := Layout.mem_listing_of_mem AInstr.size hmem 0
  cases hta : a.target pc with
  | none =>
    cases a with
    | op o k => trivial
    | jump o skip => cases hta
    | back span => cases hta
  | some t =>
    have hiff := land_iff hf hsize ha hta
    have hsweep := (mem_sweep_encode hf).mpr ⟨a,ha,rfl⟩
    have hdec := decodeInsn_of_mem_sweep hsweep
    obtain ⟨a',t',b,ha',hta',-,hland⟩ := h pc (List.mem_map.mpr ⟨_,hsweep,rfl⟩) (hdec ▸ hiff.1)
    cases Layout.listing_unique AInstr.size AInstr.size_pos ha ha'
    rw [hta] at hta'
    cases hta'
    exact hiff.2.mp (hdec ▸ hland)

/-- All jumps of an accepted method land where they should exactly when every inlined body and loop
is short enough for a one-byte operand. -/
theorem codegen_jumps_land_iff (env : CodegenEnv σ) (sel : String) (args temps : List String)
    (body : List Node) (vm vm' : σ) (oop : Oop) (m : CompiledMethod)
    (h : staCodegen env (.method sel args temps body) vm = .ok (oop,m,vm')) :
    JumpsLand (compileMethod env args temps body vm) m.bytecodes ↔
      ∀ a ∈ compileMethod env args temps body vm,a.Fits := by
  obtain ⟨hbytes,hsize⟩ := staCodegen_bytecodes h
  have hf := compileMethod_fragment env args temps body vm
  rw [hbytes]
  exact ⟨fits_of_jumpsLand hf hsize,
    jumpsLand_of_fits hf (compileMethod_ended env args temps body vm) hsize⟩

/-- `x ifTrue: [1. 1. ... 1]` with `n` statements in the block. -/
def ifTrueBody (n : Nat) : List Node :=
  [.send (.var "x") "ifTrue:" [.block [] [] (List.replicate n (.literalInt 1))]]

/-- With three statements everything lands. -/
theorem codegen_jumps_land_short : JumpsLand (compileMethod freshEnv ["x"] [] (ifTrueBody 3) 0)
      [7,0,66,12,14,0,80,0,14,0,80,0,14,0,64,2,3,0,80,0,49,0] :=
  (codegen_jumps_land_iff freshEnv "foo:" ["x"] [] (ifTrueBody 3) 0 1 16
    ⟨131587,[8],[7,0,66,12,14,0,80,0,14,0,80,0,14,0,64,2,3,0,80,0,49,0]⟩
    (by decide +kernel)).mpr (by decide +kernel)

/-- With 65 statements the jump passes 260 bytes, is emitted with operand 4 and lands inside the
block. -/
theorem codegen_jump_misses :
    ∃ oop m vm',staCodegen freshEnv (.method "foo:" ["x"] [] (ifTrueBody 65)) 0 = .ok (oop,m,vm') ∧
      decodeInsn m.bytecodes 2 = ⟨Opcode.jumpFalse.code,4,2⟩ ∧
      ((2,.jump .jumpFalse 260) : Nat × AInstr) ∈
        codeListing (compileMethod freshEnv ["x"] [] (ifTrueBody 65) 0) ∧
      ¬ JumpsLand (compileMethod freshEnv ["x"] [] (ifTrueBody 65) 0) m.bytecodes := by
  refine ⟨16,⟨131587,[8],encode (compileMethod freshEnv ["x"] [] (ifTrueBody 65) 0)⟩,1,
    by decide +kernel,by decide +kernel,by decide +kernel,?_⟩
  intro h
  have hfits := fits_of_jumpsLand (compileMethod_fragment freshEnv ["x"] [] (ifTrueBody 65) 0)
    (by decide +kernel) h
  exact absurd hfits (by decide +kernel)

end SmalltalkA
