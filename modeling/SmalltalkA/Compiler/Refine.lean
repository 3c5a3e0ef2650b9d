import SmalltalkA.Compiler.Compile

/-! The generator refines the abstract one: unless it reports an error, it appends exactly the
encoding of the assembly and leaves the same tables. -/

set_option autoImplicit false

namespace SmalltalkA

open List

variable {σ : Type}

def Codegen.Ok (cg : Codegen σ) : Prop := cg.tab.error = none ∧ cg.code.oom = false

/-- The last opcode byte is not `OP_WIDE`, so a jump emitted next is not taken for a wide one when
it is patched. -/
def Aligned (bytes : List Nat) : Prop :=
  2 ≤ bytes.length → bytes.getD (bytes.length - 2) 0 ≠ Opcode.wide.code

/-- Instructions the dispatch loop decodes one by one, with every jump inside. -/
structure Fragment (asm : List AInstr) : Prop where
  wellFormed : ∀ a ∈ asm,a.WellFormed
  closed : Layout.Closed AInstr.size AInstr.target asm

structure Refines (e : Emit σ) (c : Compile σ) : Prop where
  fragment : ∀ pos t,Fragment (c pos t).1
  ok_before : ∀ cg,(e cg).Ok → cg.Ok
  run : ∀ cg,(e cg).Ok → Aligned cg.code.bytes →
    (e cg).tab = (c cg.code.count cg.tab).2 ∧
      (e cg).code.bytes = cg.code.bytes ++ encode (c cg.code.count cg.tab).1

/-! ## The code buffer -/

variable {b : ByteBuf} {o : Opcode} {x : Nat} {cg : Codegen σ} {env : CodegenEnv σ}

theorem bbWrite_ok {l : List Nat} (h : (bbWrite b l).oom = false) :
    b.oom = false ∧ (bbWrite b l).bytes = b.bytes ++ l := by
  unfold bbWrite at h ⊢
  by_cases ho : b.oom = true
  · simp [ho] at h
  · by_cases hl : b.bytes.length + l.length ≤ b.limit
    · simp [ho,hl]
    · simp [ho,hl] at h

theorem bbEmitWide_eq (b : ByteBuf) (o : Opcode) (k : Nat) :
    bbEmitWide b o k = bbWrite b (encodeWide o k) := by
  unfold bbEmitWide encodeWide bbEmit
  split <;> rfl

@[simp] theorem bbPatchJump_oom (b : ByteBuf) (jumpPc targetPc : Nat) :
    (bbPatchJump b jumpPc targetPc).oom = b.oom := by
  unfold bbPatchJump
  split <;> rfl

theorem bbPatchJump_short {jumpPc targetPc : Nat}
    (h : 2 ≤ jumpPc → b.bytes.getD (jumpPc - 2) 0 ≠ Opcode.wide.code) :
    (bbPatchJump b jumpPc targetPc).bytes =
      b.bytes.set (jumpPc + 1) ((targetPc + 2 ^ 32 - (jumpPc + 2)) % 2 ^ 32 % 256) := by
  unfold bbPatchJump
  rw [if_neg (fun hw => h hw.1 hw.2)]
  rfl

theorem bbPatchJump_bytes {before passed : List Nat}
    (hb : b.bytes = before ++ o.code :: x :: passed) (ha : Aligned before) :
    (bbPatchJump b before.length b.count).bytes =
      before ++ o.code :: passed.length % 256 :: passed := by
  have hcount : b.count = before.length + 2 + passed.length := by
    simp [ByteBuf.count,hb]
    omega
  have hoff : (b.count + 2 ^ 32 - (before.length + 2)) % 2 ^ 32 % 256 = passed.length % 256 := by
    omega
  rw [bbPatchJump_short,hoff,hb,set_append_right _ _ (by omega)]
  · simp
  · intro hlen
    rw [hb,getD_eq_getElem?_getD,getElem?_append_left (by omega),← getD_eq_getElem?_getD]
    exact ha hlen

theorem aligned_append_pair (l : List Nat) (x : Nat) (h : o ≠ .wide) :
    Aligned (l ++ [o.code,x]) := by
  intro _
  simpa using Opcode.code_ne_wide h

theorem aligned_encodeWide (l : List Nat) (k : Nat) (h : o ≠ .wide) :
    Aligned (l ++ encodeWide o k) := by
  unfold encodeWide
  split
  · exact aligned_append_pair l _ h
  · have hl := aligned_append_pair (l ++ [Opcode.wide.code,k / 256 % 256]) (k % 256) h
    simpa using hl

theorem AInstr.aligned_bytes {a : AInstr} (h : a.WellFormed) (l : List Nat) :
    Aligned (l ++ a.bytes) := by
  cases a with
  | op o k =>
    refine aligned_encodeWide l k ?_
    rintro rfl
    cases h
  | jump o skip =>
    refine aligned_append_pair l _ ?_
    rintro rfl
    cases h
  | back span => exact aligned_encodeWide l _ (by decide)

theorem Aligned.encode {l : List Nat} {asm : List AInstr} (hl : Aligned l)
    (h : ∀ a ∈ asm,a.WellFormed) : Aligned (l ++ encode asm) := by
  induction asm generalizing l with
  | nil => simpa [SmalltalkA.encode] using hl
  | cons a as ih =>
    have ha := AInstr.aligned_bytes (h a mem_cons_self) l
    have has := ih ha (fun b hb => h b (mem_cons_of_mem _ hb))
    simpa [SmalltalkA.encode] using has

/-! ## Fragments -/

theorem Fragment.nil : Fragment [] := ⟨by simp,Layout.Closed.nil⟩

theorem Fragment.append {as bs : List AInstr} (ha : Fragment as) (hb : Fragment bs) :
    Fragment (as ++ bs) where
  wellFormed := by
    intro a h
    rcases mem_append.mp h with h | h
    · exact ha.wellFormed a h
    · exact hb.wellFormed a h
  closed := ha.closed.append hb.closed

theorem Fragment.op (h : o.isPlain = true) (k : Nat) : Fragment [.op o k] :=
  ⟨by simpa [AInstr.WellFormed] using h,Layout.Closed.single fun _ => rfl⟩

section

open Layout

variable {o : Opcode} {as bs : List AInstr}

section

variable (ho : o.isForward = true) (ha : Fragment as)

include ho ha

theorem Fragment.skip :
    Fragment (.jump o (codeSize as) :: as) where
  wellFormed := forall_mem_cons.mpr ⟨ho,ha.wellFormed⟩
  closed := by
    intro pos
    rw [targetsIn_cons]
    refine ⟨?_,(ha.closed _).mono fun t ht => mem_cons_of_mem _ ht⟩
    rintro t ⟨⟩
    exact mem_cons_of_mem _ (end_mem_boundaries AInstr.size as (pos + 2))

theorem Fragment.branch (hb : Fragment bs) :
    Fragment (.jump o (codeSize (as ++ [.jump .jump (codeSize bs)])) ::
      as ++ .jump .jump (codeSize bs) :: bs) where
  wellFormed := forall_mem_cons.mpr ⟨ho,(ha.append (Fragment.skip rfl hb)).wellFormed⟩
  closed := by
    have htail := (ha.append (Fragment.skip (o := .jump) rfl hb)).closed
    intro pos
    rw [cons_append,targetsIn_cons]
    refine ⟨?_,(htail _).mono fun t ht => mem_cons_of_mem _ ht⟩
    rintro t ⟨⟩
    refine mem_cons_of_mem _ ((mem_boundaries_append _ _ _ _ _).mpr (.inr ?_))
    refine mem_cons_of_mem _ ?_
    have hstart := start_mem_boundaries AInstr.size bs (pos + 2 + codeSize as + 2)
    simpa [codeSize,extent,Nat.add_assoc] using hstart

theorem Fragment.loop (hb : Fragment bs) :
    Fragment (as ++ .jump o (codeSize (bs ++ [.back (codeSize as + 2 + codeSize bs)])) ::
      bs ++ [.back (codeSize as + 2 + codeSize bs)]) where
  wellFormed := by
    intro a hmem
    simp only [mem_append,mem_cons,not_mem_nil,or_false] at hmem
    rcases hmem with (hmem | rfl | hmem) | rfl
    · exact ha.wellFormed a hmem
    · exact ho
    · exact hb.wellFormed a hmem
    · trivial
  closed := by
    intro pos
    generalize hloop : AInstr.back (codeSize as + 2 + codeSize bs) = again
    generalize hexit : AInstr.jump o (codeSize (bs ++ [again])) = exit
    have hsize : exit.size = 2 := by rw [← hexit]; rfl
    have hwhole : ∀ t,t ∈ boundaries AInstr.size pos (as ++ exit :: bs ++ [again]) ↔
        t ∈ boundaries AInstr.size pos as ∨ t = pos + codeSize as ∨
          t ∈ boundaries AInstr.size (pos + codeSize as + 2) (bs ++ [again]) := by
      intro t
      rw [append_assoc,mem_boundaries_append]
      simp [boundaries,hsize]
    simp only [targetsIn_append,targetsIn_cons,hsize,hwhole]
    refine ⟨⟨(ha.closed pos).mono fun t ht => .inl ht,?_,(hb.closed _).mono fun t ht => ?_⟩,
      ?_,targetsIn_nil _ _⟩
    · intro t ht
      rw [← hexit] at ht
      cases ht
      exact .inr (.inr (end_mem_boundaries AInstr.size (bs ++ [again]) _))
    · exact .inr (.inr ((mem_boundaries_append _ _ _ _ _).mpr (.inl ht)))
    · intro t ht
      rw [← hloop] at ht
      cases ht
      refine .inl ?_
      have hstart := start_mem_boundaries AInstr.size as pos
      convert hstart using 1
      simp [codeSize,extent,hsize]
      omega

end

end

/-! ## Steps -/

structure Emitted (cg cg' : Codegen σ) (l : List Nat) : Prop where
  ok_before : cg.Ok
  tab_eq : cg'.tab = cg.tab
  bytes_eq : cg'.code.bytes = cg.code.bytes ++ l

theorem emitWide_emitted {k : Nat} (h : (emitWide o k cg).Ok) :
    Emitted cg (emitWide o k cg) (encodeWide o k) := by
  simp only [Codegen.Ok,emitWide,bbEmitWide_eq] at h
  exact ⟨⟨h.1,(bbWrite_ok h.2).1⟩,rfl,by simp [emitWide,bbEmitWide_eq,(bbWrite_ok h.2).2]⟩

theorem emitOp_emitted (h : (emitOp o cg).Ok) :
    Emitted cg (emitOp o cg) [o.code,0] := emitWide_emitted (k := 0) h

theorem Emitted.count_eq {cg' : Codegen σ} {y : Nat} (h : Emitted cg cg' [x,y]) :
    cg'.code.count = cg.code.count + 2 := by
  simp [ByteBuf.count,h.bytes_eq]

theorem Emitted.aligned {cg' : Codegen σ} (h : Emitted cg cg' [o.code,x]) (ho : o ≠ .wide) :
    Aligned cg'.code.bytes := by
  rw [h.bytes_eq]
  exact aligned_append_pair _ _ ho

theorem patchJump_tab (jumpPc : Nat) (cg : Codegen σ) : (patchJump jumpPc cg).tab = cg.tab := rfl

theorem emitWide_tab (o : Opcode) (k : Nat) (cg : Codegen σ) : (emitWide o k cg).tab = cg.tab := rfl

theorem emitJumpBack_tab (loopTop : Nat) (cg : Codegen σ) :
    (emitJumpBack loopTop cg).tab = cg.tab := by
  unfold emitJumpBack
  rw [emitWide_tab]

theorem patchJump_ok (jumpPc : Nat) (cg : Codegen σ) : (patchJump jumpPc cg).Ok ↔ cg.Ok := by
  simp [Codegen.Ok,patchJump]

theorem patchJump_bytes {before passed : List Nat} {jumpPc : Nat}
    (hb : cg.code.bytes = before ++ o.code :: x :: passed) (ha : Aligned before)
    (hpc : jumpPc = before.length) : (patchJump jumpPc cg).code.bytes =
      before ++ o.code :: passed.length % 256 :: passed :=
  hpc ▸ bbPatchJump_bytes hb ha

theorem Opcode.isForward_ne_wide (h : o.isForward = true) : o ≠ .wide := by
  rintro rfl
  cases h

namespace Refines

variable {c d : Compile σ} {cg : Codegen σ} {e f : Emit σ} {o : Opcode}

section

variable (h : Refines e c) (hok : (e cg).Ok) (ha : Aligned cg.code.bytes)

include h hok ha

theorem tab_eq :
    (e cg).tab = (c cg.code.count cg.tab).2 :=
  (h.run cg hok ha).1

theorem bytes_eq :
    (e cg).code.bytes = cg.code.bytes ++ encode (c cg.code.count cg.tab).1 :=
  (h.run cg hok ha).2

theorem aligned :
    Aligned (e cg).code.bytes := by
  rw [h.bytes_eq hok ha]
  exact ha.encode (h.fragment _ _).wellFormed

theorem count_eq :
    (e cg).code.count = cg.code.count + codeSize (c cg.code.count cg.tab).1 := by
  rw [ByteBuf.count,h.bytes_eq hok ha]
  simp [ByteBuf.count]

end

theorem nothing : Refines (id : Emit σ) Compile.nothing where
  fragment _ _ := Fragment.nil
  ok_before _ h := h
  run _ _ _ := ⟨rfl,(append_nil _).symm⟩

theorem andThen (he : Refines e c) (hf : Refines f d) :
    Refines (fun cg => f (e cg)) (c.andThen d) where
  fragment pos t := (he.fragment _ _).append (hf.fragment _ _)
  ok_before cg h := he.ok_before cg (hf.ok_before _ h)
  run cg h ha := by
    have hok := hf.ok_before _ h
    have hrun := hf.run _ h (he.aligned hok ha)
    rw [he.count_eq hok ha,he.tab_eq hok ha,he.bytes_eq hok ha,append_assoc] at hrun
    exact ⟨hrun.1,by simpa [Compile.andThen] using hrun.2⟩

theorem wide (h : o.isPlain = true) (k : Nat) :
    Refines (emitWide o k : Emit σ) (Compile.op o k) where
  fragment _ _ := Fragment.op h k
  ok_before cg hok := (emitWide_emitted hok).ok_before
  run cg hok _ :=
    ⟨rfl,by simpa [Compile.op,encode,AInstr.bytes] using (emitWide_emitted hok).bytes_eq⟩

theorem op (h : o.isPlain = true) : Refines (emitOp o : Emit σ) (Compile.op o 0) := wide h 0

theorem when (b : Bool) (h : o.isPlain = true) :
    Refines (emitWhen b o : Emit σ) (Compile.when b o) := by
  cases b
  · exact nothing
  · exact op h

theorem tables {f : Tables σ → Tables σ} (h : ∀ t,(f t).error = none → t.error = none) :
    Refines (onTables f) (Compile.tables f) where
  fragment _ _ := Fragment.nil
  ok_before _ hok := ⟨h _ hok.1,hok.2⟩
  run _ _ _ := ⟨rfl,(append_nil _).symm⟩

theorem withTemps {e : Nat → Emit σ} {c : Nat → Compile σ} (h : ∀ k,Refines (e k) (c k)) :
    Refines (fun cg => e cg.tab.tempNames.length cg) (Compile.withTemps c) where
  fragment pos t := (h _).fragment pos t
  ok_before cg hok := (h _).ok_before cg hok
  run cg hok ha := (h _).run cg hok ha

theorem unlessError (h : Refines e c) :
    Refines (fun cg => if cg.tab.error.isSome then cg else e cg) c := by
  have hrun : ∀ cg : Codegen σ,(if cg.tab.error.isSome then cg else e cg).Ok →
      (if cg.tab.error.isSome then cg else e cg) = e cg := by
    intro cg hok
    cases herr : cg.tab.error with
    | none => rfl
    | some msg => simp [Codegen.Ok,herr] at hok
  refine ⟨h.fragment,?_,?_⟩
  · intro cg hok
    exact h.ok_before cg (hrun cg hok ▸ hok)
  · intro cg hok ha
    rw [hrun cg hok]
    exact h.run cg (hrun cg hok ▸ hok) ha

theorem guarded {e : Bool → Emit σ} {c : Bool → Compile σ} (h : ∀ v,Refines (e v) (c v))
    (i : Option (Bool → Emit σ)) (v : Bool) : Refines ((guarded e i).node v) (c v) :=
  (h v).unlessError

theorem value {e : Emit σ} {c : Compile σ} (h : Refines e c) (v : Bool) :
    Refines (emitValue e v) (compileValue c v) := by
  cases v
  · exact nothing
  · exact h

/-! Jumps are emitted with operand 0 and patched once the code they pass is there. -/

section

variable (ho : o.isForward = true) (he : Refines e c)

include ho he

theorem skip :
    Refines (emitSkip o e) (Compile.skip o c) where
  fragment pos t := by
    exact Fragment.skip ho (he.fragment (pos + 2) t)
  ok_before cg h := (emitOp_emitted (he.ok_before _ ((patchJump_ok _ _).mp h))).ok_before
  run cg h ha := by
    have hbody := (patchJump_ok _ _).mp h
    have hop := emitOp_emitted (he.ok_before _ hbody)
    have hrun := he.run _ hbody (hop.aligned (Opcode.isForward_ne_wide ho))
    rw [hop.tab_eq,hop.bytes_eq,hop.count_eq,append_assoc] at hrun
    have hp : (patchJump cg.code.count _).code.bytes = _ := patchJump_bytes hrun.2 ha rfl
    exact ⟨hrun.1,by simpa [emitSkip,Compile.skip,encode,AInstr.bytes] using hp⟩

theorem emitBranch_first
    (h : (emitOp .jump (e (emitOp o cg))).Ok) (ha : Aligned cg.code.bytes) :
    (e (emitOp o cg)).tab = (c (cg.code.count + 2) cg.tab).2 ∧
    (e (emitOp o cg)).code.count = cg.code.count + 2 + codeSize (c (cg.code.count + 2) cg.tab).1 ∧
    (patchJump cg.code.count (emitOp .jump (e (emitOp o cg)))).code.bytes =
      cg.code.bytes ++ encode (.jump o (codeSize (c (cg.code.count + 2) cg.tab).1 + 2) ::
        (c (cg.code.count + 2) cg.tab).1) ++ [Opcode.jump.code,0] := by
  have hjump := emitOp_emitted h
  have hop := emitOp_emitted (he.ok_before _ hjump.ok_before)
  have hrun := he.run _ hjump.ok_before (hop.aligned (Opcode.isForward_ne_wide ho))
  rw [hop.tab_eq,hop.bytes_eq,hop.count_eq,append_assoc] at hrun
  have hb : (emitOp .jump (e (emitOp o cg))).code.bytes = cg.code.bytes ++ o.code :: 0 ::
      (encode (c (cg.code.count + 2) cg.tab).1 ++ [Opcode.jump.code,0]) := by
    rw [hjump.bytes_eq,hrun.2]
    simp
  have hp : (patchJump cg.code.count _).code.bytes = _ := patchJump_bytes hb ha rfl
  refine ⟨hrun.1,?_,?_⟩
  · rw [ByteBuf.count,hrun.2]
    simp [ByteBuf.count]
    omega
  · rw [hp]
    simp [encode,AInstr.bytes]

theorem branch (hf : Refines f d) :
    Refines (emitBranch o e f) (Compile.branch o c d) where
  fragment pos t := Fragment.branch ho (he.fragment _ _) (hf.fragment _ _)
  ok_before cg h := by
    have hend := hf.ok_before _ ((patchJump_ok _ _).mp h)
    have hjump := emitOp_emitted ((patchJump_ok _ _).mp hend)
    exact (emitOp_emitted (he.ok_before _ hjump.ok_before)).ok_before
  run cg h ha := by
    have hother := (patchJump_ok _ _).mp h
    have hjump := (patchJump_ok _ _).mp (hf.ok_before _ hother)
    obtain ⟨htab,hcount,hbytes⟩ := emitBranch_first ho he hjump ha
    generalize hr : c (cg.code.count + 2) cg.tab = r at htab hcount hbytes
    have hfrag : Fragment r.1 := hr ▸ he.fragment _ _
    have hrun := hf.run _ hother (by rw [hbytes]; exact aligned_append_pair _ _ (by decide))
    have hpc : (patchJump cg.code.count (emitOp .jump (e (emitOp o cg)))).code.count =
        cg.code.count + 2 + codeSize r.1 + 2 := by
      rw [ByteBuf.count,hbytes]
      simp [ByteBuf.count,codeSize,Layout.extent]
      omega
    rw [hpc,patchJump_tab,(emitOp_emitted hjump).tab_eq,htab,hbytes,append_assoc] at hrun
    have hwf : ∀ a ∈ AInstr.jump o (codeSize r.1 + 2) :: r.1,a.WellFormed :=
      forall_mem_cons.mpr ⟨ho,hfrag.wellFormed⟩
    have hal := ha.encode hwf
    have hp : (patchJump (e (emitOp o cg)).code.count _).code.bytes = _ :=
      patchJump_bytes hrun.2 hal (by
        rw [hcount]
        simp [ByteBuf.count,codeSize,Layout.extent]
        omega)
    refine ⟨?_,?_⟩
    · have htab' := (patchJump_tab (e (emitOp o cg)).code.count _).trans hrun.1
      simpa [emitBranch,Compile.branch,hr] using htab'
    · simpa [emitBranch,Compile.branch,hr,encode,AInstr.bytes,codeSize,Layout.extent] using hp

end

theorem emitJumpBack_eq (cg : Codegen σ) {loopTop span : Nat} (h : cg.code.count = loopTop + span) :
    emitJumpBack loopTop cg = emitWide .jumpBack ((span + 2) % 65536) cg := by
  have hle := cg.code.count_le
  have hoff : ((cg.code.count + 2) % 2 ^ 32 + 2 ^ 32 - loopTop) % 2 ^ 32 % 65536 =
      (span + 2) % 65536 := by omega
  simp only [emitJumpBack,hoff]

theorem loop (ho : o.isForward = true) (he : Refines e c) (hf : Refines f d) :
    Refines (emitLoop o e f) (Compile.loop o c d) where
  fragment pos t := Fragment.loop ho (he.fragment _ _) (hf.fragment _ _)
  ok_before cg h := by
    have hback := emitWide_emitted ((patchJump_ok _ _).mp h)
    exact he.ok_before _ (emitOp_emitted (hf.ok_before _ hback.ok_before)).ok_before
  run cg h ha := by
    have hback := (patchJump_ok _ _).mp h
    have hbody := (emitWide_emitted hback).ok_before
    have hop := emitOp_emitted (hf.ok_before _ hbody)
    have hcond := he.run _ hop.ok_before ha
    have hcount := he.count_eq hop.ok_before ha
    generalize hr : c cg.code.count cg.tab = r at hcond hcount
    have hrun := hf.run _ hbody (hop.aligned (Opcode.isForward_ne_wide ho))
    rw [hop.tab_eq,hop.bytes_eq,hop.count_eq,hcond.1,hcond.2,hcount] at hrun
    generalize hs : d (cg.code.count + codeSize r.1 + 2) r.2 = s at hrun
    have hspan : (f (emitOp o (e cg))).code.count =
        cg.code.count + (codeSize r.1 + 2 + codeSize s.1) := by
      rw [ByteBuf.count,hrun.2]
      simp [ByteBuf.count]
      omega
    have hwide := emitJumpBack_eq _ hspan
    rw [hwide] at hback
    have hem := emitWide_emitted hback
    have hb : (emitJumpBack cg.code.count (f (emitOp o (e cg)))).code.bytes =
        (cg.code.bytes ++ encode r.1) ++ o.code :: 0 ::
          encode (s.1 ++ [.back (codeSize r.1 + 2 + codeSize s.1)]) := by
      rw [hwide,hem.bytes_eq,hrun.2]
      simp [encode,AInstr.bytes]
    have hal : Aligned (cg.code.bytes ++ encode r.1) := by
      have hwf := (he.fragment cg.code.count cg.tab).wellFormed
      rw [hr] at hwf
      exact ha.encode hwf
    have hp : (patchJump (e cg).code.count _).code.bytes = _ :=
      patchJump_bytes hb hal (by simp [ByteBuf.count,hcond.2])
    refine ⟨?_,?_⟩
    · have htab : (emitLoop o e f cg).tab = s.2 := by
        unfold emitLoop
        rw [patchJump_tab,emitJumpBack_tab,hrun.1]
      simpa [Compile.loop,hr,hs] using htab
    · simpa [emitLoop,Compile.loop,hr,hs,encode,AInstr.bytes,Layout.extent,AInstr.size] using hp

end Refines

/-! ## Operands -/

structure RefOk (r : Ref σ) : Prop where
  plain : ∀ t o k,(r t).1 = some (o,k) → o.isPlain = true
  keeps : ∀ t,(r t).2.error = none → t.error = none

theorem cgError_keeps (msg : String) (t : Tables σ) : (cgError msg t).error ≠ none := by
  unfold cgError
  cases h : t.error <;> simp [h]

theorem Refines.ref {r : Ref σ} (h : RefOk r) : Refines (emitRef r) (Compile.ref r) where
  fragment _ t := by
    have hp := h.plain t
    unfold Compile.ref
    split
    · next o k t' heq => exact Fragment.op (hp o k (by rw [heq])) k
    · exact Fragment.nil
  ok_before cg hok := by
    have hk := h.keeps cg.tab
    unfold emitRef at hok
    split at hok
    · next o k t' heq =>
      simp only [Codegen.Ok,bbEmitWide_eq] at hok
      exact ⟨hk (by rw [heq]; exact hok.1),(bbWrite_ok hok.2).1⟩
    · next t' heq => exact ⟨hk (by rw [heq]; exact hok.1),hok.2⟩
  run cg hok _ := by
    unfold emitRef at hok ⊢
    unfold Compile.ref
    split at hok
    · next o k t' heq =>
      simp only [Codegen.Ok,bbEmitWide_eq] at hok
      simp [heq,bbEmitWide_eq,(bbWrite_ok hok.2).2,encode,AInstr.bytes]
    · next t' heq => simp [heq,encode]

theorem RefOk.some {r : Ref σ} (h : o.isPlain = true) {f : Tables σ → Nat} {g : Tables σ → Tables σ}
    (hg : ∀ t,(g t).error = none → t.error = none) (hr : ∀ t,r t = (.some (o,f t),g t)) :
    RefOk r where
  plain t o' k hk := by
    rw [hr] at hk
    simp only [Option.some.injEq,Prod.mk.injEq] at hk
    exact hk.1 ▸ h
  keeps t ht := hg t (by simpa [hr] using ht)

theorem cgAddLiteral_error (oop : Oop) (t : Tables σ) : (cgAddLiteral oop t).2.error = t.error := rfl

theorem literalRef_ok (oop : Oop) : RefOk (literalRef oop : Ref σ) :=
  RefOk.some (by decide) (fun t h => cgAddLiteral_error oop t ▸ h) (fun _ => rfl)

theorem literalIntRef_ok (value : Int) : RefOk (literalIntRef value : Ref σ) := by
  have hl := literalRef_ok (σ := σ) (smallIntOop value)
  constructor
  · intro t o k h
    unfold literalIntRef at h
    repeat' split at h
    all_goals first
      | exact hl.plain t o k h
      | (simp only [Option.some.injEq,Prod.mk.injEq] at h; rw [← h.1]; rfl)
  · intro t h
    unfold literalIntRef at h
    repeat' split at h
    all_goals exact hl.keeps t h

theorem RefOk.orError {r : Ref σ} (h : ∀ t,(∃ msg t',r t = (none,cgError msg t')) ∨
    ∃ (s : Ref σ) (t' : Tables σ),RefOk s ∧ r t = s t' ∧ t'.error = t.error) : RefOk r where
  plain t o k hk := by
    rcases h t with ⟨msg,t',hr⟩ | ⟨s,t',hs,hr,_⟩
    · simp [hr] at hk
    · exact hs.plain t' o k (hr ▸ hk)
  keeps t ht := by
    rcases h t with ⟨msg,t',hr⟩ | ⟨s,t',hs,hr,he⟩
    · rw [hr] at ht
      exact absurd ht (cgError_keeps msg t')
    · rw [hr] at ht
      exact he ▸ hs.keeps t' ht

theorem literalStringRef_ok (env : CodegenEnv σ) (text : String) :
    RefOk (literalStringRef env text) := by
  apply RefOk.orError
  intro t
  unfold literalStringRef
  simp only
  split
  · exact .inl ⟨_,_,rfl⟩
  · exact .inr ⟨_,_,literalRef_ok _,rfl,rfl⟩

theorem literalSymbolRef_ok (env : CodegenEnv σ) (name : String) :
    RefOk (literalSymbolRef env name) := by
  apply RefOk.orError
  intro t
  unfold literalSymbolRef
  simp only
  split
  · exact .inl ⟨_,_,rfl⟩
  · exact .inr ⟨_,_,literalRef_ok _,rfl,rfl⟩

theorem literalArrayRef_ok (env : CodegenEnv σ) (elements : List Node) :
    RefOk (literalArrayRef env elements) := by
  apply RefOk.orError
  intro t
  unfold literalArrayRef
  simp only
  split
  · exact .inl ⟨_,_,rfl⟩
  · exact .inr ⟨_,_,literalRef_ok _,rfl,rfl⟩

theorem cgLookupGlobal_error (env : CodegenEnv σ) (name : String) (t : Tables σ) :
    (cgLookupGlobal env name t).2.error = t.error := by
  unfold cgLookupGlobal
  simp only
  repeat' split
  all_goals rfl

theorem lookupRef_ok (env : CodegenEnv σ) (name msg : String) {temp instvar global : Opcode}
    (ht : temp.isPlain = true) (hi : instvar.isPlain = true) (hg : global.isPlain = true) :
    RefOk (lookupRef env name msg temp instvar global) := by
  apply RefOk.orError
  intro t
  have herr := cgLookupGlobal_error env name t
  unfold lookupRef
  cases cgFindTemp t name with
  | some idx =>
    exact .inr ⟨fun t => (some (temp,idx % 65536),t),t,
      RefOk.some ht (fun _ h => h) (fun _ => rfl),rfl,rfl⟩
  | none =>
    cases cgFindInstvar env name with
    | some idx =>
      exact .inr ⟨fun t => (some (instvar,idx % 65536),t),t,
        RefOk.some hi (fun _ h => h) (fun _ => rfl),rfl,rfl⟩
    | none =>
      simp only
      split
      · split
        · exact .inl ⟨_,_,rfl⟩
        · exact .inr ⟨fun t' => (some (global,(cgAddLiteral _ t').1),(cgAddLiteral _ t').2),_,
            RefOk.some hg (fun t' h => cgAddLiteral_error _ t' ▸ h) (fun _ => rfl),rfl,herr⟩
      · exact .inl ⟨_,_,rfl⟩

theorem variableRef_ok (env : CodegenEnv σ) (name : String) : RefOk (variableRef env name) :=
  lookupRef_ok env name _ rfl rfl rfl

theorem assignmentRef_ok (env : CodegenEnv σ) (name : String) (v : Bool) :
    RefOk (assignmentRef env name v) := by
  cases v <;> exact lookupRef_ok env name _ rfl rfl rfl

theorem cgInternSelector_keeps (env : CodegenEnv σ) (sel : String) (t : Tables σ)
    (h : (cgInternSelector env sel t).2.error = none) : t.error = none := by
  unfold cgInternSelector at h
  simp only at h
  split at h
  · exact absurd h (cgError_keeps _ _)
  · split at h
    · exact absurd h (cgError_keeps _ _)
    · exact h

theorem selectorRef_ok (env : CodegenEnv σ) (h : o.isPlain = true) (sel : String) :
    RefOk (selectorRef env o sel) :=
  RefOk.some h (cgInternSelector_keeps env sel) (fun _ => rfl)

/-! ## Blocks -/

theorem cgAddTemps_error (names : List String) (t : Tables σ) :
    (cgAddTemps names t).error = t.error := by
  induction names generalizing t with
  | nil => rfl
  | cons name names ih => simp [cgAddTemps,ih,cgAddTemp]

theorem openBlock_error (args temps : List String) (stmts : List Node) (t : Tables σ) :
    (openBlock args temps stmts t).error = t.error := by
  simp [openBlock,cgAddTemps_error]

theorem storeDescriptor_keeps {descIdx : Nat} {slots : List Oop} {t : Tables σ}
    (h : (storeDescriptor env descIdx slots t).error = none) : t.error = none := by
  unfold storeDescriptor at h
  simp only at h
  split at h
  · exact absurd h (cgError_keeps _ _)
  · exact h

theorem closeBlock_keeps {before t : Tables σ} {numArgs start stop : Nat}
    (h : (closeBlock env before numArgs start stop t).error = none) : t.error = none := by
  have ht := storeDescriptor_keeps h
  exact ht

theorem copyOp_isPlain (t : Tables σ) : (copyOp t).isPlain = true := by
  unfold copyOp
  split <;> rfl

theorem Refines.openBlock (args temps : List String) (stmts : List Node) : Refines
      (fun cg : Codegen σ => onTables (openBlock args temps stmts)
        (emitWide (copyOp cg.tab) (lbAddUnique cg.tab.literals 0).1 cg))
      (fun _ t => ([.op (copyOp t) (lbAddUnique t.literals 0).1],
        SmalltalkA.openBlock args temps stmts t)) := by
  have hem : ∀ cg : Codegen σ,(onTables (SmalltalkA.openBlock args temps stmts)
      (emitWide (copyOp cg.tab) (lbAddUnique cg.tab.literals 0).1 cg)).Ok →
      Emitted cg (emitWide (copyOp cg.tab) (lbAddUnique cg.tab.literals 0).1 cg)
        (encodeWide (copyOp cg.tab) (lbAddUnique cg.tab.literals 0).1) :=
    fun cg h => emitWide_emitted ⟨openBlock_error args temps stmts _ ▸ h.1,h.2⟩
  refine ⟨?_,?_,?_⟩
  · intro pos t
    exact Fragment.op (copyOp_isPlain t) _
  · intro cg h
    exact (hem cg h).ok_before
  · intro cg h _
    refine ⟨rfl,?_⟩
    simpa [onTables,encode,AInstr.bytes] using (hem cg h).bytes_eq

theorem Refines.block (env : CodegenEnv σ) (args temps : List String) (stmts : List Node)
    {e : Emit σ} {c : Compile σ} (he : Refines e c) :
    Refines (emitBlock env args temps stmts e) (Compile.block env args temps stmts c) := by
  have hopen := Refines.openBlock (σ := σ) args temps stmts
  have hbody := hopen.andThen (he.andThen (Refines.op (o := .returnTop) rfl))
  refine ⟨?_,?_,?_⟩
  · intro pos t
    exact hbody.fragment pos t
  · intro cg h
    exact hbody.ok_before cg ⟨closeBlock_keeps h.1,h.2⟩
  · intro cg h ha
    have hok : (emitOp .returnTop (e (onTables (SmalltalkA.openBlock args temps stmts)
        (emitWide (copyOp cg.tab) (lbAddUnique cg.tab.literals 0).1 cg)))).Ok :=
      ⟨closeBlock_keeps h.1,h.2⟩
    have hrun := hbody.run cg hok ha
    have hstart := hopen.count_eq ((he.andThen (Refines.op rfl)).ok_before _ hok) ha
    have hend := hbody.count_eq hok ha
    refine ⟨?_,hrun.2⟩
    have htab : (emitBlock env args temps stmts e cg).tab =
        closeBlock env cg.tab args.length _ _ _ := rfl
    rw [htab,hstart,hend,hrun.1]
    simp [Compile.block,Compile.andThen,codeSize,Layout.extent,Nat.add_assoc]

/-! ## Nodes -/

structure EmitterRefines (e : Emitter σ) (c : Compiler σ) : Prop where
  node : ∀ v,Refines (e.node v) (c.node v)
  inline : Option.Rel (fun f g => ∀ v,Refines (f v) (g v)) e.inlineBody c.inlineBody

theorem EmitterRefines.leaf {e : Bool → Emit σ} {c : Bool → Compile σ}
    (h : ∀ v,Refines (e v) (c v)) : EmitterRefines (guarded e none) ⟨c,none⟩ :=
  ⟨Refines.guarded h none,.none⟩

abbrev EmittersRefine (es : List (Emitter σ)) (cs : List (Compiler σ)) : Prop :=
  List.Forall₂ EmitterRefines es cs

theorem EmittersRefine.bodies {es : List (Emitter σ)} {cs : List (Compiler σ)}
    (h : EmittersRefine es cs) :
    List.Forall₂ (Option.Rel fun f g => ∀ v,Refines (f v) (g v))
      (es.map Emitter.inlineBody) (cs.map Compiler.inlineBody) := by
  induction h with
  | nil => exact .nil
  | cons hn _ ih => exact .cons hn.inline ih

theorem Refines.blockBodyInline (temps : List String) (isEmpty : Bool) {e : Bool → Emit σ}
    {c : Bool → Compile σ} (h : ∀ v,Refines (e v) (c v)) (v : Bool) :
    Refines (emitBlockBodyInline temps isEmpty e v) (compileBlockBodyInline temps isEmpty c v) := by
  unfold emitBlockBodyInline compileBlockBodyInline
  cases isEmpty with
  | true => exact Refines.when v rfl
  | false =>
    have hadd : Refines (onTables (cgAddTemps temps) : Emit σ) (Compile.tables (cgAddTemps temps)) :=
      Refines.tables fun t ht => cgAddTemps_error temps t ▸ ht
    have hrestore : ∀ saved,Refines (onTables (cgRestoreTemps saved) : Emit σ)
        (Compile.tables (cgRestoreTemps saved)) := fun saved => Refines.tables fun _ ht => ht
    exact Refines.withTemps fun saved => (hadd.andThen (h v)).andThen (hrestore saved)

section

variable (sel : String) {receiver : Emitter σ} {receiver' : Compiler σ}
  {args : List (Emitter σ)} {args' : List (Compiler σ)}

variable {c : Bool → Compile σ} {e : Bool → Emit σ} {o : Opcode} {α β : Type} {R : α → β → Prop}

theorem Refines.inlinedIf (ho : o.isForward = true) (hr : EmitterRefines receiver receiver')
    (h : ∀ v,Refines (e v) (c v)) (v : Bool) :
    Refines (emitInlinedIf o receiver e v) (compileInlinedIf o receiver' c v) := by
  cases v with
  | true => exact (hr.node true).andThen (Refines.branch ho (h true) (Refines.op rfl))
  | false => exact (hr.node true).andThen (Refines.skip ho (h false))

theorem rel_ite {p : Prop} [Decidable p] {a c : Option α} {b d : Option β} (hab : Option.Rel R a b)
    (hcd : Option.Rel R c d) :
    Option.Rel R (if p then a else c) (if p then b else d) := by
  split
  · exact hab
  · exact hcd

theorem tryEmitInlinedIf_refines (hr : EmitterRefines receiver receiver')
    (ha : EmittersRefine args args') (v : Bool) :
    Option.Rel Refines (tryEmitInlinedIf sel receiver args v)
      (tryCompileInlinedIf sel receiver' args' v) := by
  have hb := ha.bodies
  unfold tryEmitInlinedIf tryCompileInlinedIf
  generalize args.map Emitter.inlineBody = l at hb
  generalize args'.map Compiler.inlineBody = l' at hb
  rcases hb with _ | ⟨h₀ | _,_ | ⟨h₁ | _,_ | _⟩⟩
  case cons.some.nil =>
    exact rel_ite (.some (Refines.inlinedIf rfl hr h₀ v))
      (rel_ite (.some (Refines.inlinedIf rfl hr h₀ v)) .none)
  case cons.some.cons.some.nil =>
    exact rel_ite (.some ((hr.node true).andThen (Refines.branch rfl (h₀ v) (h₁ v))))
      (rel_ite (.some ((hr.node true).andThen (Refines.branch rfl (h₁ v) (h₀ v)))) .none)
  all_goals exact .none

theorem Refines.inlinedLoop (ho : o.isForward = true) {f : Emit σ} {d : Compile σ}
    (h : ∀ v,Refines (e v) (c v)) (hf : Refines f d) (v : Bool) :
    Refines (emitInlinedLoop o e f v) (compileInlinedLoop o c d v) :=
  (Refines.loop ho (h true) hf).andThen (Refines.when v rfl)

theorem tryEmitInlinedLoop_refines (hr : EmitterRefines receiver receiver')
    (ha : EmittersRefine args args') (v : Bool) :
    Option.Rel Refines (tryEmitInlinedLoop sel receiver args v)
      (tryCompileInlinedLoop sel receiver' args' v) := by
  have hi := hr.inline
  have hb := ha.bodies
  unfold tryEmitInlinedLoop tryCompileInlinedLoop
  generalize receiver.inlineBody = r at hi
  generalize receiver'.inlineBody = r' at hi
  generalize args.map Emitter.inlineBody = l at hb
  generalize args'.map Compiler.inlineBody = l' at hb
  rcases hi with hc | _
  · rcases hb with _ | ⟨h₀ | _,_ | _⟩
    case some.nil =>
      exact rel_ite (.some (Refines.inlinedLoop rfl hc Refines.nothing v))
        (rel_ite (.some (Refines.inlinedLoop rfl hc Refines.nothing v)) .none)
    case some.cons.some.nil =>
      exact rel_ite (.some (Refines.inlinedLoop rfl hc (h₀ false) v))
        (rel_ite (.some (Refines.inlinedLoop rfl hc (h₀ false) v)) .none)
    all_goals exact .none
  · exact .none

theorem Refines.inlinedLogic {push : Opcode} (ho : o.isForward = true) (hp : push.isPlain = true)
    (hr : EmitterRefines receiver receiver') (h : ∀ v,Refines (e v) (c v)) (v : Bool) :
    Refines (emitInlinedLogic o push receiver e v) (compileInlinedLogic o push receiver' c v) :=
  ((hr.node true).andThen (Refines.branch ho (h true) (Refines.op hp))).andThen
    (Refines.when (!v) rfl)

theorem tryEmitInlinedLogic_refines (hr : EmitterRefines receiver receiver')
    (ha : EmittersRefine args args') (v : Bool) :
    Option.Rel Refines (tryEmitInlinedLogic sel receiver args v)
      (tryCompileInlinedLogic sel receiver' args' v) := by
  have hb := ha.bodies
  unfold tryEmitInlinedLogic tryCompileInlinedLogic
  generalize args.map Emitter.inlineBody = l at hb
  generalize args'.map Compiler.inlineBody = l' at hb
  rcases hb with _ | ⟨h₀ | _,_ | _⟩
  case cons.some.nil =>
    exact rel_ite (.some (Refines.inlinedLogic rfl rfl hr h₀ v))
      (rel_ite (.some (Refines.inlinedLogic rfl rfl hr h₀ v)) .none)
  all_goals exact .none

theorem Refines.timesRepeatLoop (env : CodegenEnv σ) (countIdx iIdx : Nat)
    (h : ∀ v,Refines (e v) (c v)) (v : Bool) :
    Refines (emitTimesRepeatLoop env countIdx iIdx e v)
      (compileTimesRepeatLoop env countIdx iIdx c v) := by
  have hstart := ((Refines.wide (σ := σ) (o := .popStoreTemp) rfl countIdx).andThen
    (Refines.op (o := .pushOne) rfl)).andThen (Refines.wide (o := .popStoreTemp) rfl iIdx)
  have hcond := ((Refines.wide (σ := σ) (o := .pushTemp) rfl iIdx).andThen
    (Refines.wide (o := .pushTemp) rfl countIdx)).andThen
    (Refines.ref (selectorRef_ok env (o := .send) rfl "<="))
  have hbody := ((((h false).andThen (Refines.wide (o := .pushTemp) rfl iIdx)).andThen
    (Refines.op (o := .pushOne) rfl)).andThen
    (Refines.ref (selectorRef_ok env (o := .send) rfl "+"))).andThen
    (Refines.wide (o := .popStoreTemp) rfl iIdx)
  exact (hstart.andThen (Refines.loop rfl hcond hbody)).andThen (Refines.when v rfl)

theorem Refines.timesRepeatTail (env : CodegenEnv σ) (h : ∀ v,Refines (e v) (c v)) (v : Bool)
    (k : Nat) :
    Refines (emitTimesRepeatTail env e v k) (compileTimesRepeatTail env c v k) := by
  have hadd : ∀ t : TempEntry,Refines (onTables (cgAddTemp t) : Emit σ)
      (Compile.tables (cgAddTemp t)) := fun t => Refines.tables fun _ ht => ht
  have hloop := Refines.timesRepeatLoop env (k % 65536) ((k + 1) % 65536) h v
  have hdrop : Refines (onTables fun t : Tables σ => cgRestoreTemps (t.tempNames.length - 2) t)
      (Compile.tables fun t => cgRestoreTemps (t.tempNames.length - 2) t) :=
    Refines.tables fun _ ht => ht
  exact (((hadd _).andThen (hadd _)).andThen hloop).andThen hdrop

theorem Refines.inlinedTimesRepeat (env : CodegenEnv σ) (hr : EmitterRefines receiver receiver')
    (h : ∀ v,Refines (e v) (c v)) (v : Bool) :
    Refines (emitInlinedTimesRepeat env receiver e v)
      (compileInlinedTimesRepeat env receiver' c v) :=
  (hr.node true).andThen (Refines.withTemps (Refines.timesRepeatTail env h v))

theorem tryEmitInlinedTimesRepeat_refines (env : CodegenEnv σ)
    (hr : EmitterRefines receiver receiver') (ha : EmittersRefine args args') (v : Bool) :
    Option.Rel Refines (tryEmitInlinedTimesRepeat env sel receiver args v)
      (tryCompileInlinedTimesRepeat env sel receiver' args' v) := by
  have hb := ha.bodies
  unfold tryEmitInlinedTimesRepeat tryCompileInlinedTimesRepeat
  generalize args.map Emitter.inlineBody = l at hb
  generalize args'.map Compiler.inlineBody = l' at hb
  rcases hb with _ | ⟨h₀ | _,_ | _⟩
  case cons.some.nil =>
    exact rel_ite (.some (Refines.inlinedTimesRepeat env hr h₀ v)) .none
  all_goals exact .none

theorem Refines.arguments (ha : EmittersRefine args args') :
    Refines (emitArgs args) (compileArgs args') := by
  induction ha with
  | nil => exact Refines.nothing
  | cons hn _ ih => exact (hn.node true).andThen ih

theorem Refines.normalSend (env : CodegenEnv σ) (ho : o.isPlain = true) {e : Emit σ} {c : Compile σ}
    (hr : Refines e c) (ha : EmittersRefine args args') (v : Bool) :
    Refines (emitNormalSend env o sel e args v) (compileNormalSend env o sel c args' v) :=
  ((hr.andThen (Refines.arguments ha)).andThen (Refines.ref (selectorRef_ok env ho sel))).andThen
    (Refines.when (!v) rfl)

theorem rel_orElse {x : Option α} {y : Option β} {f : Unit → Option α} {g : Unit → Option β} {a : α}
    {b : β} (h : Option.Rel R x y) (hrest : R ((f ()).getD a) ((g ()).getD b)) :
    R ((x.orElse f).getD a) ((y.orElse g).getD b) := by
  cases h with
  | some h => exact h
  | none => exact hrest

theorem rel_getD {x : Option α} {y : Option β} {a : α} {b : β} (h : Option.Rel R x y) (hab : R a b) :
    R (x.getD a) (y.getD b) := by
  cases h with
  | some h => exact h
  | none => exact hab

theorem Refines.send (env : CodegenEnv σ) (hr : EmitterRefines receiver receiver')
    (ha : EmittersRefine args args') (v : Bool) :
    Refines (emitSend env sel receiver args v) (compileSend env sel receiver' args' v) := by
  have hsend := Refines.normalSend sel env (o := .send) rfl (hr.node true) ha v
  refine rel_orElse (tryEmitInlinedIf_refines sel hr ha v) ?_
  refine rel_orElse (tryEmitInlinedLoop_refines sel hr ha v) ?_
  refine rel_orElse (tryEmitInlinedLogic_refines sel hr ha v) ?_
  exact rel_getD (tryEmitInlinedTimesRepeat_refines sel env hr ha v) hsend

end

abbrev MessagesRefine (es : List (String × List (Emitter σ)))
    (cs : List (String × List (Compiler σ))) : Prop :=
  List.Forall₂ (fun e c => e.1 = c.1 ∧ EmittersRefine e.2 c.2) es cs

theorem Refines.cascadeMessages (env : CodegenEnv σ) {es : List (String × List (Emitter σ))}
    {cs : List (String × List (Compiler σ))} (h : MessagesRefine es cs) :
    Refines (emitCascadeMessages env es) (compileCascadeMessages env cs) := by
  induction h with
  | nil => exact Refines.nothing
  | @cons e c es cs hm hms ih =>
    obtain ⟨sel,args⟩ := e
    obtain ⟨sel',args'⟩ := c
    obtain ⟨rfl,ha⟩ := hm
    have hsend := Refines.ref (selectorRef_ok env (o := .send) rfl sel)
    cases hms with
    | nil => exact (Refines.arguments ha).andThen hsend
    | cons _ _ =>
      exact ((((Refines.op (o := .dup) rfl).andThen (Refines.arguments ha)).andThen hsend).andThen
        (Refines.op (o := .pop) rfl)).andThen ih

theorem Refines.cascade (env : CodegenEnv σ) {e : Emitter σ} {c : Compiler σ}
    {es : List (String × List (Emitter σ))} {cs : List (String × List (Compiler σ))}
    (hr : EmitterRefines e c) (h : MessagesRefine es cs) (v : Bool) :
    Refines (emitCascade env e es v) (compileCascade env c cs v) :=
  ((hr.node true).andThen (Refines.cascadeMessages env h)).andThen (Refines.when (!v) rfl)

theorem Refines.ifInBlock {e f : Emit σ} {c d : Compile σ} (he : Refines e c) (hf : Refines f d) :
    Refines (fun cg => if 0 < cg.tab.blockDepth then e cg else f cg)
      (fun pos t => if 0 < t.blockDepth then c pos t else d pos t) where
  fragment pos t := by
    split
    · exact he.fragment pos t
    · exact hf.fragment pos t
  ok_before cg h := by
    split at h
    · exact he.ok_before cg h
    · exact hf.ok_before cg h
  run cg h ha := by
    by_cases hd : 0 < cg.tab.blockDepth
    · simp only [hd,if_true] at h ⊢
      exact he.run cg h ha
    · simp only [hd,if_false] at h ⊢
      exact hf.run cg h ha

theorem Refines.ret (expr : Node) {e : Emitter σ} {c : Compiler σ} (h : EmitterRefines e c) :
    Refines (emitReturn expr e) (compileReturn expr c) := by
  have hnlr := (h.node true).andThen (Refines.op (o := .nonLocalReturn) rfl)
  have htop := (h.node true).andThen (Refines.op (o := .returnTop) rfl)
  cases expr with
  | literalNil | self => exact hnlr.ifInBlock (Refines.op rfl)
  | literalBool b =>
    cases b with
    | true | false => exact hnlr.ifInBlock (Refines.op rfl)
  | _ => exact hnlr.ifInBlock htop

theorem Refines.statement (stmt : Node) {e : Emitter σ} {c : Compiler σ} {f : Emit σ}
    {d : Compile σ} (h : EmitterRefines e c) (hf : Refines f d) (isLast v : Bool) :
    Refines (emitStatement stmt e isLast v f) (compileStatement stmt c isLast v d) := by
  have hpop := (h.node true).andThen (Refines.op (o := .pop) rfl)
  cases isLast with
  | true => exact h.node _
  | false =>
    unfold emitStatement compileStatement
    cases stmt.isReturn with
    | true => exact h.node true
    | false =>
      cases stmt.isAssign with
      | true => exact (h.node false).andThen hf
      | false => exact hpop.andThen hf

mutual

theorem emitter_refines (env : CodegenEnv σ) :
    (n : Node) → EmitterRefines (emitter env n) (compiler env n)
  | .self | .literalNil | .literalBool true | .literalBool false =>
    .leaf (Refines.value (Refines.op rfl))
  | .literalInt value => .leaf (Refines.value (Refines.ref (literalIntRef_ok value)))
  | .literalFloat =>
    .leaf (Refines.value (Refines.tables fun t h => absurd h (cgError_keeps _ t)))
  | .literalString text => .leaf (Refines.value (Refines.ref (literalStringRef_ok env text)))
  | .literalSymbol name => .leaf (Refines.value (Refines.ref (literalSymbolRef_ok env name)))
  | .literalChar _ => .leaf (Refines.value (Refines.ref (literalRef_ok _)))
  | .literalArray elements =>
    .leaf (Refines.value (Refines.ref (literalArrayRef_ok env elements)))
  | .var name => .leaf (Refines.value (Refines.ref (variableRef_ok env name)))
  | .assign name value => .leaf fun v =>
    ((emitter_refines env value).node true).andThen (Refines.ref (assignmentRef_ok env name v))
  | .send receiver sel args =>
    .leaf (Refines.send sel env (emitter_refines env receiver) (emitters_refine env args))
  | .superSend _ sel args =>
    .leaf (Refines.normalSend sel env rfl (Refines.op rfl) (emitters_refine env args))
  | .cascade receiver messages =>
    .leaf (Refines.cascade env (emitter_refines env receiver) (messages_refine env messages))
  | .ret expr => .leaf fun _ => Refines.ret expr (emitter_refines env expr)
  | .block args temps body =>
    ⟨Refines.guarded (Refines.value (Refines.block env args temps body
        (statements_refine env body true))) _,
      .some (Refines.blockBodyInline temps body.isEmpty (statements_refine env body))⟩
  | .method _ _ _ _ => .leaf fun _ => Refines.tables fun t h => absurd h (cgError_keeps _ t)

theorem emitters_refine (env : CodegenEnv σ) :
    (ns : List Node) → EmittersRefine (emitters env ns) (compilers env ns)
  | [] => .nil
  | n :: ns => .cons (emitter_refines env n) (emitters_refine env ns)

theorem messages_refine (env : CodegenEnv σ) :
    (ms : List (String × List Node)) → MessagesRefine (emitMessages env ms) (compileMessages env ms)
  | [] => .nil
  | (_,args) :: ms => .cons ⟨rfl,emitters_refine env args⟩ (messages_refine env ms)

theorem statements_refine (env : CodegenEnv σ) : (stmts : List Node) → (v : Bool) →
      Refines (emitStatements env stmts v) (compileStatements env stmts v)
  | [],v => Refines.when v rfl
  | stmt :: stmts,v =>
    Refines.statement stmt (emitter_refines env stmt) (statements_refine env stmts v) _ v

end

theorem methodBody_refines (env : CodegenEnv σ) (body : List Node) :
    Refines (emitMethodBody env body) (compileMethodBody env body) := by
  have hself : Refines (emitOp .returnSelf : Emit σ) (Compile.op .returnSelf 0) := Refines.op rfl
  have hpop : Refines (emitOp .pop : Emit σ) (Compile.op .pop 0) := Refines.op rfl
  unfold emitMethodBody compileMethodBody
  cases body.isEmpty with
  | true => exact hself
  | false =>
    cases lastIsReturn body with
    | true => exact statements_refine env body false
    | false =>
      exact (statements_refine env body true).andThen (hpop.andThen hself).unlessError

theorem staCodegen_ok {sel : String} {args temps : List String} {body : List Node} {vm vm' : σ}
    {oop : Oop} {m : CompiledMethod}
    (h : staCodegen env (.method sel args temps body) vm = .ok (oop,m,vm')) :
    (codegenRun env args temps body vm).Ok ∧
      m.bytecodes = (codegenRun env args temps body vm).code.bytes ∧
      methodLargeFrame m.header = (codegenRun env args temps body vm).tab.needsContext := by
  simp only [staCodegen] at h
  cases hoom : (codegenRun env args temps body vm).code.oom with
  | true =>
    simp only [hoom,if_true] at h
    split at h
    · cases h
    · next he => exact absurd he (cgError_keeps _ _)
  | false =>
    simp only [hoom,Bool.false_eq_true,if_false] at h
    split at h
    · cases h
    · next he =>
      split at h
      · cases h
      · cases h
        exact ⟨⟨he,hoom⟩,rfl,methodLargeFrame_header _ _ _ _ _ _⟩

theorem staCodegen_bytecodes {sel : String} {args temps : List String} {body : List Node}
    {vm vm' : σ} {oop : Oop} {m : CompiledMethod}
    (h : staCodegen env (.method sel args temps body) vm = .ok (oop,m,vm')) :
    m.bytecodes = encode (compileMethod env args temps body vm) ∧
      codeSize (compileMethod env args temps body vm) ≤ 2 ^ 31 := by
  obtain ⟨hok,hm,-⟩ := staCodegen_ok h
  have hbytes : (codegenRun env args temps body vm).code.bytes =
      encode (compileMethod env args temps body vm) :=
    ((methodBody_refines env body).run _ hok (by simp [Aligned,cgInit])).2
  refine ⟨hm.trans hbytes,?_⟩
  have hle := (codegenRun env args temps body vm).code.count_le
  rwa [ByteBuf.count,hbytes,length_encode] at hle

end SmalltalkA
