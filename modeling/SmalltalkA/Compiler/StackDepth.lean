import SmalltalkA.Compiler.Code
import SmalltalkA.Compiler.Refine
import SmalltalkA.Lib.Flow

/-! The stack discipline of generated code: structured code is typed by the values it takes from the
expression stack and leaves there, and has one stack depth at every offset. -/

set_option autoImplicit false

namespace SmalltalkA

open Layout List

variable {σ : Type}

/-! ## What instructions do to the expression stack -/

/-- Values an instruction needs on the stack; those it leaves there count as pushed again. -/
def Opcode.pops : Opcode → Nat
  | .storeTemp | .storeInstvar | .storeGlobal | .storeOuterTemp
  | .popStoreTemp | .popStoreInstvar | .popStoreGlobal | .popStoreOuterTemp
  | .pop | .dup | .returnTop | .nonLocalReturn | .jumpTrue | .jumpFalse => 1
  | _ => 0

def Opcode.pushes : Opcode → Nat
  | .pushReceiver | .pushNil | .pushTrue | .pushFalse | .pushLit | .pushTemp | .pushInstvar
  | .pushGlobal | .pushSmallint | .pushMinusOne | .pushZero | .pushOne | .pushTwo
  | .pushOuterTemp | .blockCopy | .closureCopy | .send | .sendSuper => 1
  | .storeTemp | .storeInstvar | .storeGlobal | .storeOuterTemp => 1
  | .dup => 2
  | _ => 0

def Opcode.isReturn : Opcode → Bool
  | .returnTop | .returnSelf | .returnNil | .returnTrue | .returnFalse | .nonLocalReturn => true
  | _ => false

/-- The instruction neither leaves the activation nor jumps, and needs no literal for its stack
effect. -/
def Opcode.isLocal : Opcode → Bool
  | .wide | .jump | .jumpTrue | .jumpFalse | .jumpBack | .send | .sendSuper | .primitive
  | .blockCopy | .closureCopy => false
  | o => !o.isReturn

def Opcode.isSend : Opcode → Bool
  | .send | .sendSuper => true
  | _ => false

def Opcode.isCopy : Opcode → Bool
  | .blockCopy | .closureCopy => true
  | _ => false

def Cell.pops : Cell → Nat
  | ⟨.op _ _,.selector sel _⟩ => staSelectorArity sel + 1
  | ⟨.op o _,_⟩ => o.pops
  | ⟨.jump o _,_⟩ => o.pops
  | ⟨.back _,_⟩ => 0

def Cell.pushes : Cell → Nat
  | ⟨.op o _,_⟩ => o.pushes
  | _ => 0

/-- Where control goes from `pc`: a return goes nowhere, a block copy passes the body, a jump
reaches the code it was patched for. -/
def Cell.next : Cell → Nat → List Nat
  | ⟨.op o k,operand⟩,pc =>
    if o.isReturn then []
    else
      match operand with
      | .body size => [pc + (AInstr.op o k).size + size]
      | _ => [pc + (AInstr.op o k).size]
  | ⟨.jump o skip,_⟩,pc => if o = .jump then [pc + 2 + skip] else [pc + 2,pc + 2 + skip]
  | ⟨.back span,_⟩,pc => [pc - span]

/-- The instruction takes such an operand, and a send pops the arguments pushed for it. -/
def Cell.OperandOk : Cell → Prop
  | ⟨.op o _,.selector sel n⟩ => o.isSend = true ∧ staSelectorArity sel = n
  | ⟨.op o _,.body _⟩ => o.isCopy = true
  | ⟨.op o _,.plain⟩ => o.isSend = false ∧ o.isCopy = false
  | ⟨_,operand⟩ => operand = .plain

def Cell.enters (c : Cell) (pc : Nat) : List (Nat × Nat) :=
  match c.operand with
  | .body _ => [(pc + c.size,0)]
  | _ => []

/-- Control flow of generated code, labelled with the depth of the expression stack. -/
def stackFlow : Flow Cell Nat where
  size := Cell.size
  next := Cell.next
  enters := Cell.enters
  ok c d := c.pops ≤ d ∧ c.OperandOk
  after c d := d - c.pops + c.pushes

abbrev Labelled := stackFlow.Labelled

abbrev Terminated := stackFlow.Terminated

/-! ## Labelling emitted code -/

/-- The offsets of a piece of code, between its start and its end. -/
abbrev cellBounds (pos : Nat) (cells : List Cell) : List Nat := boundaries Cell.size pos cells

variable {p pos y d a b : Nat} {as bs : List Cell} {c : Cell} {P : Nat → Prop} {f : Nat → Nat}
  {o : Opcode} {body : Bool → Code σ} {receiver : Coder σ}

theorem cellBounds_le {cells : List Cell} (h : p ∈ cellBounds pos cells) :
    pos ≤ p ∧ p ≤ pos + cellSize cells := boundaries_bounds Cell.size h

theorem start_mem (pos : Nat) (cells : List Cell) : pos ∈ cellBounds pos cells :=
  start_mem_boundaries Cell.size cells pos

theorem end_mem (pos : Nat) (cells : List Cell) : pos + cellSize cells ∈ cellBounds pos cells :=
  end_mem_boundaries Cell.size cells pos

theorem mem_cellBounds_append :
    p ∈ cellBounds pos (as ++ bs) ↔ p ∈ cellBounds pos as ∨ p ∈ cellBounds (pos + cellSize as) bs :=
  mem_boundaries_append Cell.size as bs pos p

theorem mem_cellBounds_cons {cs : List Cell} (h : p ∈ cellBounds (pos + c.size) cs) :
    p ∈ cellBounds pos (c :: cs) :=
  mem_cons_of_mem _ h

@[simp] theorem cellSize_append (as bs : List Cell) :
    cellSize (as ++ bs) = cellSize as + cellSize bs := extent_append Cell.size as bs

@[simp] theorem cellSize_cons (c : Cell) (cs : List Cell) :
    cellSize (c :: cs) = c.size + cellSize cs := rfl

@[simp] theorem cellSize_nil : cellSize [] = 0 := rfl

theorem labelled_iff {x : Nat} {code : List Cell} :
    Labelled pos code x y ↔ ∃ f,f pos = x ∧ f (pos + cellSize code) = y ∧
      stackFlow.Respects f (· ∈ cellBounds pos code) pos code := Iff.rfl

theorem respects_append_cells : stackFlow.Respects f P pos (as ++ bs) ↔
      stackFlow.Respects f P pos as ∧ stackFlow.Respects f P (pos + cellSize as) bs :=
  Flow.respects_append f P pos as bs

theorem respects_cons_cells {cs : List Cell} : stackFlow.Respects f P pos (c :: cs) ↔
      stackFlow.RespectsAt f P pos c ∧ stackFlow.Respects f P (pos + c.size) cs :=
  Flow.respects_cons f P pos c cs

theorem respects_congr {g : Nat → Nat} {cells : List Cell}
    (h : stackFlow.Respects f (· ∈ cellBounds pos cells) pos cells)
    (hf : ∀ p ∈ cellBounds pos cells,g p = f p) (hP : ∀ p ∈ cellBounds pos cells,P p) :
    stackFlow.Respects g P pos cells := h.congr hf hP

theorem Cell.size_pos (c : Cell) : 0 < c.size := c.instr.size_pos

theorem Labelled.single (hnext : ∀ q ∈ c.next pos,q = pos + c.size ∧ y = d - c.pops + c.pushes)
    (henters : c.enters pos = []) (hpops : c.pops ≤ d) (hoperand : c.OperandOk) :
    Labelled pos [c] d y := by
  have hsize := c.size_pos
  have hpos : glue (pos + c.size) (fun _ => d) (fun _ => y) pos = d := glue_lt (by omega)
  have hend : glue (pos + c.size) (fun _ => d) (fun _ => y) (pos + c.size) = y :=
    glue_ge (Nat.le_refl _)
  refine labelled_iff.mpr ⟨_,hpos,hend,respects_cons_cells.mpr ⟨⟨?_,?_,?_⟩,?_⟩⟩
  · exact hpos.symm ▸ ⟨hpops,hoperand⟩
  · intro q hq
    obtain ⟨rfl,hy⟩ := hnext q hq
    rw [hend,hpos]
    exact ⟨end_mem pos [c],hy⟩
  · intro e he
    simp [stackFlow,henters] at he
  · exact Flow.respects_nil _ _ _

theorem Labelled.op (ho : o.isLocal = true) (k pos base : Nat) :
    Labelled pos [plain (.op o k)] (base + o.pops) (base + o.pushes) := by
  have hret : o.isReturn = false := by cases o <;> first | rfl | cases ho
  have hoperand : (plain (.op o k)).OperandOk := by
    cases o <;> first | exact ⟨rfl,rfl⟩ | cases ho
  refine Labelled.single ?_ rfl (Nat.le_add_left _ _) hoperand
  intro q hq
  simp only [plain,Cell.next,hret,Bool.false_eq_true,if_false,mem_singleton] at hq
  exact ⟨hq,by simp [plain,Cell.pops,Cell.pushes]⟩

theorem returns_operandOk (ho : o.isReturn = true) (k : Nat) : (plain (.op o k)).OperandOk := by
  cases o <;> first | exact ⟨rfl,rfl⟩ | cases ho

theorem Labelled.returns (ho : o.isReturn = true) (hd : o.pops ≤ d) (k pos y : Nat) :
    Labelled pos [plain (.op o k)] d y := by
  refine Labelled.single ?_ rfl hd (returns_operandOk ho k)
  intro q hq
  simp [plain,Cell.next,ho] at hq

theorem Labelled.send (ho : o.isSend = true) {sel : String} {n : Nat}
    (hn : staSelectorArity sel = n) (k pos base : Nat) :
    Labelled pos [⟨.op o k,.selector sel n⟩] (base + (n + 1)) (base + 1) := by
  have hret : o.isReturn = false := by cases o <;> first | rfl | cases ho
  have hpush : o.pushes = 1 := by cases o <;> first | rfl | cases ho
  refine Labelled.single ?_ rfl ?_ ?_
  · intro q hq
    simp only [Cell.next,hret,Bool.false_eq_true,if_false,mem_singleton] at hq
    exact ⟨hq,by simp [Cell.pops,Cell.pushes,hn,hpush]⟩
  · simp [Cell.pops,hn]
  · exact ⟨ho,hn⟩

theorem jumps_next (ho : o = .jumpTrue ∨ o = .jumpFalse) (skip pc : Nat) :
    (plain (.jump o skip)).next pc = [pc + 2,pc + 2 + skip] := by
  rcases ho with rfl | rfl <;> rfl

theorem jumps_pops (ho : o = .jumpTrue ∨ o = .jumpFalse) (skip : Nat) :
    (plain (.jump o skip)).pops = 1 := by
  rcases ho with rfl | rfl <;> rfl

theorem respectsAt_jump (ho : o = .jumpTrue ∨ o = .jumpFalse) {skip : Nat} (hd : f pos = d + 1)
    (hstay : P (pos + 2)) (hstayLabel : f (pos + 2) = d) (htaken : P (pos + 2 + skip))
    (htakenLabel : f (pos + 2 + skip) = d) :
    stackFlow.RespectsAt f P pos (plain (.jump o skip)) where
  ok := ⟨by rw [hd,jumps_pops ho]; omega,rfl⟩
  next := by
    intro q hq
    have hq : q = pos + 2 ∨ q = pos + 2 + skip := by simpa [stackFlow,jumps_next ho] using hq
    have hafter : stackFlow.after (plain (.jump o skip)) (f pos) = d := by
      rw [hd]
      simp only [stackFlow,jumps_pops ho]
      rfl
    rw [hafter]
    rcases hq with rfl | rfl
    · exact ⟨hstay,hstayLabel⟩
    · exact ⟨htaken,htakenLabel⟩
  enters := nofun

theorem respectsAt_goto {a : AInstr} {q : Nat} (ha : (plain a).next pos = [q])
    (hpops : (plain a).pops = 0) (hpushes : (plain a).pushes = 0) (hoperand : (plain a).OperandOk)
    (hq : P q) (hlabel : f q = f pos) : stackFlow.RespectsAt f P pos (plain a) where
  ok := ⟨by rw [hpops]; exact Nat.zero_le _,hoperand⟩
  next := by
    intro q' hq'
    have hq' : q' = q := by simpa [stackFlow,ha] using hq'
    subst hq'
    simp only [stackFlow,hpops,hpushes]
    exact ⟨hq,hlabel⟩
  enters := nofun

theorem Labelled.skip (ho : o = .jumpTrue ∨ o = .jumpFalse) (ha : Labelled (pos + 2) as d d) :
    Labelled pos (plain (.jump o (cellSize as)) :: as) (d + 1) d := by
  obtain ⟨f,hf,hfe,hres⟩ := labelled_iff.mp ha
  let label := glue (pos + 2) (fun _ => d + 1) f
  have hpos : label pos = d + 1 := glue_lt (by omega)
  have hbody : ∀ p ∈ cellBounds (pos + 2) as,label p = f p := fun p => glue_right
  have hstart := (hbody _ (start_mem _ _)).trans hf
  have hend := (hbody _ (end_mem _ _)).trans hfe
  have hwhole : ∀ p ∈ cellBounds (pos + 2) as,
      p ∈ cellBounds pos (plain (.jump o (cellSize as)) :: as) :=
    fun p hp => mem_cellBounds_cons (c := plain (.jump o (cellSize as))) hp
  refine labelled_iff.mpr ⟨label,hpos,?_,respects_cons_cells.mpr ⟨?_,?_⟩⟩
  · simpa [Nat.add_assoc] using hend
  · exact respectsAt_jump ho hpos (hwhole _ (start_mem _ _)) hstart (hwhole _ (end_mem _ _)) hend
  · exact respects_congr hres hbody hwhole

/-- Two ways through code that leave the same depth. -/
theorem Labelled.branch (ho : o = .jumpTrue ∨ o = .jumpFalse) (ha : Labelled (pos + 2) as d y)
    (hb : Labelled (pos + 2 + cellSize as + 2) bs d y) :
    Labelled pos (plain (.jump o (cellSize (as ++ [plain (.jump .jump (cellSize bs))]))) ::
      as ++ plain (.jump .jump (cellSize bs)) :: bs) (d + 1) y := by
  obtain ⟨f,hf,hfe,hfres⟩ := labelled_iff.mp ha
  obtain ⟨g,hg,hge,hgres⟩ := labelled_iff.mp hb
  -- the second jump, right after the first way, has the depth that leaves
  let label := glue (pos + 2) (fun _ => d + 1) (glue (pos + 2 + cellSize as + 2) f g)
  have hpos : label pos = d + 1 := glue_lt (by omega)
  have hbody : ∀ p ∈ cellBounds (pos + 2) as,label p = f p := by
    intro p hp
    have hle := cellBounds_le hp
    exact (glue_ge hle.1).trans (glue_lt (by omega))
  have hother : ∀ p ∈ cellBounds (pos + 2 + cellSize as + 2) bs,label p = g p := by
    intro p hp
    have hle := cellBounds_le hp
    exact (glue_ge (by omega)).trans (glue_ge hle.1)
  have hexit := (hbody _ (end_mem _ _)).trans hfe
  have hend := (hother _ (end_mem _ _)).trans hge
  generalize hcode : plain (.jump o (cellSize (as ++ [plain (.jump .jump (cellSize bs))]))) ::
    as ++ plain (.jump .jump (cellSize bs)) :: bs = code
  have hfirst : ∀ p ∈ cellBounds (pos + 2) as,p ∈ cellBounds pos code := by
    intro p hp
    rw [← hcode]
    exact mem_cellBounds_cons (mem_cellBounds_append.mpr (.inl hp))
  have hsecond : ∀ p ∈ cellBounds (pos + 2 + cellSize as + 2) bs,p ∈ cellBounds pos code := by
    intro p hp
    rw [← hcode]
    exact mem_cellBounds_cons (mem_cellBounds_append.mpr (.inr (mem_cellBounds_cons hp)))
  have htaken : pos + 2 + cellSize (as ++ [plain (.jump .jump (cellSize bs))]) =
      pos + 2 + cellSize as + 2 := by
    simp [Nat.add_assoc]
  refine labelled_iff.mpr ⟨label,hpos,?_,?_⟩
  · have he : pos + cellSize code = pos + 2 + cellSize as + 2 + cellSize bs := by
      rw [← hcode]
      simp only [cellSize_append,cellSize_cons,plain_size,size_jump]
      omega
    rw [he,hend]
  · rw [← hcode,cons_append,respects_cons_cells,respects_append_cells,respects_cons_cells]
    rw [← cons_append,hcode]
    refine ⟨?_,respects_congr hfres hbody hfirst,?_,respects_congr hgres hother hsecond⟩
    · refine respectsAt_jump ho hpos (hfirst _ (start_mem _ _)) ?_ ?_ ?_
      · exact (hbody _ (start_mem _ _)).trans hf
      · rw [htaken]
        exact hsecond _ (start_mem _ _)
      · rw [htaken]
        exact (hother _ (start_mem _ _)).trans hg
    · exact respectsAt_goto rfl rfl rfl rfl (hsecond _ (end_mem _ _)) (hend.trans hexit.symm)

/-- A loop whose condition leaves one value more, for the exit jump to take. -/
theorem Labelled.loop (ho : o = .jumpTrue ∨ o = .jumpFalse) (ha : Labelled pos as d (d + 1))
    (hb : Labelled (pos + cellSize as + 2) bs d d) :
    Labelled pos (as ++ plain (.jump o (cellSize (bs ++
      [plain (.back (cellSize as + 2 + cellSize bs))]))) ::
        bs ++ [plain (.back (cellSize as + 2 + cellSize bs))]) d d := by
  obtain ⟨f,hf,hfe,hfres⟩ := labelled_iff.mp ha
  obtain ⟨g,hg,hge,hgres⟩ := labelled_iff.mp hb
  generalize hback : AInstr.back (cellSize as + 2 + cellSize bs) = back
  have hsize := (plain back).size_pos
  -- past the loop the depth is the one it was entered with
  let label := glue (pos + cellSize as + 2) f
    (glue (pos + cellSize as + 2 + cellSize bs + 1) g fun _ => d)
  have hcond : ∀ p ∈ cellBounds pos as,label p = f p := by
    intro p hp
    have hle := cellBounds_le hp
    exact glue_lt (by omega)
  have hbody : ∀ p ∈ cellBounds (pos + cellSize as + 2) bs,label p = g p := by
    intro p hp
    have hle := cellBounds_le hp
    exact (glue_ge hle.1).trans (glue_lt (by omega))
  have hpos := (hcond _ (start_mem _ _)).trans hf
  have hlast := (hbody _ (end_mem _ _)).trans hge
  have hend : label (pos + cellSize as + 2 + cellSize (bs ++ [plain back])) = d := by
    rw [cellSize_append,cellSize_cons,cellSize_nil]
    exact (glue_ge (by omega)).trans (glue_ge (by omega))
  generalize hcode : as ++ plain (.jump o (cellSize (bs ++ [plain back]))) :: bs ++
    [plain back] = code
  have hcode' : as ++ (plain (.jump o (cellSize (bs ++ [plain back]))) ::
      (bs ++ [plain back])) = code := by
    rw [← hcode]
    simp
  have hfirst : ∀ p ∈ cellBounds pos as,p ∈ cellBounds pos code := by
    intro p hp
    rw [← hcode']
    exact mem_cellBounds_append.mpr (.inl hp)
  have hsecond : ∀ p ∈ cellBounds (pos + cellSize as + 2) (bs ++ [plain back]),
      p ∈ cellBounds pos code := by
    intro p hp
    rw [← hcode']
    exact mem_cellBounds_append.mpr (.inr (mem_cellBounds_cons hp))
  refine labelled_iff.mpr ⟨label,hpos,?_,?_⟩
  · have he : pos + cellSize code = pos + cellSize as + 2 + cellSize (bs ++ [plain back]) := by
      rw [← hcode']
      simp only [cellSize_append,cellSize_cons,plain_size,size_jump]
      omega
    rw [he,hend]
  · rw [← hcode',respects_append_cells,respects_cons_cells,respects_append_cells,hcode']
    refine ⟨respects_congr hfres hcond hfirst,?_,respects_congr hgres hbody ?_,?_⟩
    · refine respectsAt_jump ho ((hcond _ (end_mem _ _)).trans hfe) ?_ ?_ ?_ hend
      · exact hsecond _ (start_mem _ _)
      · exact (hbody _ (start_mem _ _)).trans hg
      · exact hsecond _ (end_mem _ _)
    · exact fun p hp => hsecond p (mem_cellBounds_append.mpr (.inl hp))
    · rw [respects_cons_cells]
      refine ⟨respectsAt_goto (q := pos) ?_ ?_ ?_ ?_ (hfirst _ (start_mem _ _)) ?_,
        Flow.respects_nil _ _ _⟩
      · subst hback
        simp only [plain,Cell.next,Cell.size,size_jump,List.cons.injEq,and_true]
        omega
      · subst hback
        rfl
      · subst hback
        rfl
      · subst hback
        rfl
      · exact hpos.trans hlast.symm

theorem Terminated.returns (ho : o.isReturn = true) (hd : o.pops ≤ d) (k pos : Nat) :
    Terminated pos [plain (.op o k)] d := by
  refine ⟨fun _ => d,rfl,⟨_,mem_cons_self⟩,respects_cons_cells.mpr ⟨⟨?_,?_,nofun⟩,?_⟩⟩
  · exact ⟨hd,returns_operandOk ho k⟩
  · intro q hq
    simp [stackFlow,plain,Cell.next,ho] at hq
  · exact Flow.respects_nil _ _ _

theorem Labelled.block {o : Opcode} (ho : o = .blockCopy ∨ o = .closureCopy) {pos k : Nat}
    {body : List Cell} (hb : Terminated (pos + (AInstr.op o k).size) body 0) (d : Nat) :
    Labelled pos (⟨.op o k,.body (cellSize body)⟩ :: body) d (d + 1) := by
  obtain ⟨f,hf,hstart,hres⟩ := hb
  have hret : o.isReturn = false := by rcases ho with rfl | rfl <;> rfl
  have hpops : o.pops = 0 := by rcases ho with rfl | rfl <;> rfl
  have hpushes : o.pushes = 1 := by rcases ho with rfl | rfl <;> rfl
  generalize hcopy : (⟨.op o k,.body (cellSize body)⟩ : Cell) = copy
  have hsize : (AInstr.op o k).size = copy.size := by rw [← hcopy]; rfl
  rw [hsize] at hf hstart hres
  have hpositive := copy.size_pos
  let label := glue (pos + copy.size) (fun _ => d)
    (glue (pos + copy.size + cellSize body) f fun _ => d + 1)
  have hpos : label pos = d := glue_lt (by omega)
  have hend : label (pos + copy.size + cellSize body) = d + 1 :=
    (glue_ge (by omega)).trans (glue_ge (Nat.le_refl _))
  have hbody : ∀ q,stackFlow.Starts (pos + copy.size) body q → label q = f q := by
    rintro q ⟨c,hc⟩
    have hle : pos + copy.size ≤ q ∧ q + c.size ≤ pos + copy.size + cellSize body :=
      listing_bounds Cell.size hc
    have hcsize := c.size_pos
    exact (glue_ge hle.1).trans (glue_lt (by omega))
  have hwhole : ∀ q,stackFlow.Starts (pos + copy.size) body q →
      q ∈ cellBounds pos (copy :: body) := by
    rintro q ⟨c,hc⟩
    exact mem_cellBounds_cons (listing_mem_boundaries hc)
  refine labelled_iff.mpr ⟨label,hpos,?_,respects_cons_cells.mpr ⟨⟨?_,?_,?_⟩,?_⟩⟩
  · rw [cellSize_cons,← Nat.add_assoc]
    exact hend
  · subst hcopy
    exact ⟨by simp [Cell.pops,hpops],by rcases ho with rfl | rfl <;> rfl⟩
  · intro q hq
    have hq : q = pos + copy.size + cellSize body := by
      subst hcopy
      simpa [stackFlow,Cell.next,hret,hsize] using hq
    subst hq
    refine ⟨mem_cellBounds_cons (end_mem _ _),?_⟩
    rw [hend,hpos]
    subst hcopy
    simp [stackFlow,Cell.pops,Cell.pushes,hpops,hpushes]
  · intro e he
    have he : e = (pos + copy.size,0) := by
      subst hcopy
      simpa [stackFlow,Cell.enters] using he
    subst he
    exact ⟨hwhole _ hstart,(hbody _ hstart).trans hf⟩
  · intro p c hc
    exact (hres p c hc).congr (hbody p ⟨c,hc⟩) hbody hwhole

/-! ## Typed code -/

/-- A reference that is found takes `a` values and leaves `b`. -/
structure RefEffect (r : Ref σ) (a b : Nat) : Prop where
  ok : RefOk r
  found : ∀ t,(r t).2.error = none → ∃ o k,(r t).1 = some (o,k) ∧
    o.isLocal = true ∧ o.pops = a ∧ o.pushes = b

/-- `Typed c a b`: code that takes `a` values from the expression stack and leaves `b`; any `b` will
do if control never leaves it at its end. -/
inductive Code.Typed : Code σ → Nat → Nat → Prop
  | frame {c : Code σ} {a b : Nat} (k : Nat) (h : Typed c a b) : Typed c (k + a) (k + b)
  | nothing : Typed .nothing 0 0
  | op {o : Opcode} (ho : o.isLocal = true) (k : Nat) : Typed (.op o k) o.pops o.pushes
  | returns {o : Opcode} (ho : o.isReturn = true) (k b : Nat) : Typed (.op o k) o.pops b
  | ref {r : Ref σ} {a b : Nat} (h : RefEffect r a b) : Typed (.ref r) a b
  | send {o : Opcode} (ho : o.isSend = true) {sel : String} {n : Nat}
      (h : staSelectorArity sel = n) : Typed (.send o sel n) (n + 1) 1
  | tables {f : Tables σ → Tables σ} (h : ∀ t,(f t).error = none → t.error = none) :
      Typed (.tables f) 0 0
  | fails {f : Tables σ → Tables σ} (h : ∀ t,(f t).error ≠ none) (b : Nat) :
      Typed (.tables f) 0 b
  | withTemps {f : Nat → Code σ} {a b : Nat} (h : ∀ k,Typed (f k) a b) : Typed (.withTemps f) a b
  | inBlock {f : Bool → Code σ} {a b : Nat} (h : ∀ v,Typed (f v) a b) : Typed (.inBlock f) a b
  | seq {c d : Code σ} {a b e : Nat} (hc : Typed c a b) (hd : Typed d b e) : Typed (.seq c d) a e
  | skip {o : Opcode} (ho : o = .jumpTrue ∨ o = .jumpFalse) {body : Code σ}
      (h : Typed body 0 0) : Typed (.skip o body) 1 0
  | branch {o : Opcode} (ho : o = .jumpTrue ∨ o = .jumpFalse) {body other : Code σ} {b : Nat}
      (hb : Typed body 0 b) (ho : Typed other 0 b) : Typed (.branch o body other) 1 b
  | loop {o : Opcode} (ho : o = .jumpTrue ∨ o = .jumpFalse) {cond body : Code σ}
      (hc : Typed cond 0 1) (hb : Typed body 0 0) : Typed (.loop o cond body) 0 0
  | block (args temps : List String) (stmts : List Node) {body : Code σ} (h : Typed body 0 1) :
      Typed (.block args temps stmts body) 0 1

/-- Code that control never leaves at its end. -/
inductive Code.Ends : Code σ → Nat → Prop
  | returns {o : Opcode} (ho : o.isReturn = true) (k : Nat) : Ends (.op o k) o.pops
  | inBlock {f : Bool → Code σ} {a : Nat} (h : ∀ v,Ends (f v) a) : Ends (.inBlock f) a
  | seq {c d : Code σ} {a b : Nat} (hc : c.Typed a b) (hd : Ends d b) : Ends (.seq c d) a

theorem copyOp_cases (t : Tables σ) : copyOp t = .blockCopy ∨ copyOp t = .closureCopy := by
  unfold copyOp
  split
  · exact .inr rfl
  · exact .inl rfl

variable {env : CodegenEnv σ}

theorem Code.Typed.labelled {c : Code σ} (h : c.Typed a b) (pos : Nat) (t : Tables σ)
    (hok : (c.emit env pos t).2.error = none) :
    t.error = none ∧ ∀ base,Labelled pos (c.emit env pos t).1 (base + a) (base + b) := by
  induction h generalizing pos t with
  | frame k h ih =>
    obtain ⟨ht,hl⟩ := ih pos t hok
    refine ⟨ht,fun base => ?_⟩
    rw [← Nat.add_assoc,← Nat.add_assoc]
    exact hl (base + k)
  | nothing => exact ⟨hok,fun base => Flow.Labelled.nil _ _⟩
  | op ho k => exact ⟨hok,fun base => Labelled.op ho k pos base⟩
  | returns ho k b => exact ⟨hok,fun base => Labelled.returns ho (Nat.le_add_left _ _) _ _ _⟩
  | @ref r a b h =>
    have hkeeps := h.ok.keeps t
    have hfound := h.found t
    simp only [Code.emit] at hok ⊢
    rcases hr : r t with ⟨_ | ⟨o,k⟩,t'⟩
    · rw [hr] at hok hfound
      obtain ⟨o,k,hs,-⟩ := hfound hok
      cases hs
    · rw [hr] at hok hkeeps hfound
      obtain ⟨o',k',hs,hlocal,rfl,rfl⟩ := hfound hok
      cases hs
      exact ⟨hkeeps hok,fun base => Labelled.op hlocal k pos base⟩
  | send ho h => exact ⟨cgInternSelector_keeps env _ t hok,fun base => Labelled.send ho h _ _ _⟩
  | tables h => exact ⟨h t hok,fun base => Flow.Labelled.nil _ _⟩
  | fails h b => exact absurd hok (h t)
  | withTemps h ih => exact ih _ pos t hok
  | inBlock h ih => exact ih _ pos t hok
  | seq hc hd ihc ihd =>
    obtain ⟨ht,hld⟩ := ihd _ _ hok
    obtain ⟨ht,hlc⟩ := ihc _ _ ht
    exact ⟨ht,fun base => Flow.Labelled.append (hlc base) (hld base)⟩
  | skip ho h ih =>
    obtain ⟨ht,hl⟩ := ih _ _ hok
    exact ⟨ht,fun base => Labelled.skip ho (hl base)⟩
  | branch ho hb ho ihb iho =>
    obtain ⟨ht,hlo⟩ := iho _ _ hok
    obtain ⟨ht,hlb⟩ := ihb _ _ ht
    exact ⟨ht,fun base => Labelled.branch (by assumption) (hlb base) (hlo base)⟩
  | loop ho hc hb ihc ihb =>
    obtain ⟨ht,hlb⟩ := ihb _ _ hok
    obtain ⟨ht,hlc⟩ := ihc _ _ ht
    exact ⟨ht,fun base => Labelled.loop ho (hlc base) (hlb base)⟩
  | block args temps stmts h ih =>
    obtain ⟨ht,hl⟩ := ih _ _ (closeBlock_keeps hok)
    rw [openBlock_error] at ht
    have hbody := (hl 0).terminated (Terminated.returns (o := .returnTop) rfl (Nat.le_refl 1) 0 _)
    exact ⟨ht,fun base => Labelled.block (copyOp_cases t) hbody base⟩

theorem Code.Ends.terminated {c : Code σ} (h : c.Ends a) (pos : Nat) (t : Tables σ)
    (hok : (c.emit env pos t).2.error = none) :
    t.error = none ∧ Terminated pos (c.emit env pos t).1 a := by
  induction h generalizing pos t with
  | returns ho k => exact ⟨hok,Terminated.returns ho (Nat.le_refl _) k pos⟩
  | inBlock h ih => exact ih _ pos t hok
  | seq hc hd ih =>
    obtain ⟨ht,hrest⟩ := ih _ _ hok
    obtain ⟨ht,hfirst⟩ := hc.labelled _ _ ht
    have hwhole := hfirst 0
    rw [Nat.zero_add,Nat.zero_add] at hwhole
    exact ⟨ht,hwhole.terminated hrest⟩

/-! ## Code of syntax trees -/

theorem RefEffect.of_cases {r : Ref σ} (hok : RefOk r) (h : ∀ t,(∃ msg t',r t = (none,cgError msg
      t')) ∨ ∃ o k t',r t = (some (o,k),t') ∧ o.isLocal = true ∧ o.pops = a ∧ o.pushes = b) :
    RefEffect r a b where
  ok := hok
  found t ht := by
    rcases h t with ⟨msg,t',hr⟩ | ⟨o,k,t',hr,heffect⟩
    · rw [hr] at ht
      exact absurd ht (cgError_keeps msg t')
    · exact ⟨o,k,by rw [hr],heffect⟩

theorem literalRef_effect (oop : Oop) : RefEffect (literalRef oop : Ref σ) 0 1 :=
  .of_cases (literalRef_ok oop) fun _ => .inr ⟨_,_,_,rfl,rfl,rfl,rfl⟩

theorem literalIntRef_effect (value : Int) : RefEffect (literalIntRef value : Ref σ) 0 1 := by
  refine .of_cases (literalIntRef_ok value) fun t => .inr ?_
  unfold literalIntRef literalRef
  (repeat' split) <;> exact ⟨_,_,_,rfl,rfl,rfl,rfl⟩

theorem literalStringRef_effect (text : String) : RefEffect (literalStringRef env text) 0 1 := by
  refine .of_cases (literalStringRef_ok env text) fun t => ?_
  unfold literalStringRef literalRef
  simp only
  split
  · exact .inl ⟨_,_,rfl⟩
  · exact .inr ⟨_,_,_,rfl,rfl,rfl,rfl⟩

theorem literalSymbolRef_effect (name : String) : RefEffect (literalSymbolRef env name) 0 1 := by
  refine .of_cases (literalSymbolRef_ok env name) fun t => ?_
  unfold literalSymbolRef literalRef
  simp only
  split
  · exact .inl ⟨_,_,rfl⟩
  · exact .inr ⟨_,_,_,rfl,rfl,rfl,rfl⟩

theorem literalArrayRef_effect (elements : List Node) :
    RefEffect (literalArrayRef env elements) 0 1 := by
  refine .of_cases (literalArrayRef_ok env elements) fun t => ?_
  unfold literalArrayRef literalRef
  simp only
  split
  · exact .inl ⟨_,_,rfl⟩
  · exact .inr ⟨_,_,_,rfl,rfl,rfl,rfl⟩

theorem lookupRef_effect {name msg : String} {temp instvar global : Opcode}
    (hok : RefOk (lookupRef env name msg temp instvar global))
    (h : ∀ o ∈ [temp,instvar,global],o.isLocal = true ∧ o.pops = a ∧ o.pushes = b) :
    RefEffect (lookupRef env name msg temp instvar global) a b := by
  refine .of_cases hok fun t => ?_
  unfold lookupRef
  cases cgFindTemp t name with
  | some idx => exact .inr ⟨_,_,_,rfl,h temp (by simp)⟩
  | none =>
    cases cgFindInstvar env name with
    | some idx => exact .inr ⟨_,_,_,rfl,h instvar (by simp)⟩
    | none =>
      simp only
      split
      · split
        · exact .inl ⟨_,_,rfl⟩
        · exact .inr ⟨_,_,_,rfl,h global (by simp)⟩
      · exact .inl ⟨_,_,rfl⟩

theorem variableRef_effect (name : String) : RefEffect (variableRef env name) 0 1 :=
  lookupRef_effect (variableRef_ok env name) (by decide)

theorem assignmentRef_effect (name : String) (v : Bool) :
    RefEffect (assignmentRef env name v) 1 v.toNat := by
  cases v with
  | false => exact lookupRef_effect (assignmentRef_ok env name false) (by decide)
  | true => exact lookupRef_effect (assignmentRef_ok env name true) (by decide)

/-- The parser makes the selector for that many arguments, and the count fits a byte. -/
def SendParsed (sel : String) (argCount : Nat) : Prop := SelectorFor sel argCount ∧ argCount ≤ 255

mutual

def Node.SendsParsed : Node → Prop
  | .ret expr => expr.SendsParsed
  | .assign _ value => value.SendsParsed
  | .send receiver sel args => receiver.SendsParsed ∧ SendsParsed args ∧ SendParsed sel args.length
  | .superSend _ sel args => SendsParsed args ∧ SendParsed sel args.length
  | .cascade receiver messages => receiver.SendsParsed ∧ MessagesParsed messages
  | .block _ _ body => SendsParsed body
  | .method _ _ _ body => SendsParsed body
  | _ => True

def SendsParsed : List Node → Prop
  | [] => True
  | n :: ns => n.SendsParsed ∧ SendsParsed ns

def MessagesParsed : List (String × List Node) → Prop
  | [] => True
  | (sel,args) :: messages =>
    SendsParsed args ∧ SendParsed sel args.length ∧ MessagesParsed messages

end

theorem coders_length (env : CodegenEnv σ) (ns : List Node) :
    (coders env ns).length = ns.length := by
  induction ns with
  | nil => rfl
  | cons n ns ih => simp [coders,ih]

/-- One value for a node emitted for its value, none otherwise. -/
structure Coder.Typed (d : Coder σ) : Prop where
  node : ∀ v,(d.node v).Typed 0 v.toNat
  inlineBody : ∀ body,d.inlineBody = some body → ∀ v,(body v).Typed 0 v.toNat

namespace Code.Typed

theorem when (v : Bool) {o : Opcode} (ho : o.isLocal = true) (hpops : o.pops = 0)
    (hpushes : o.pushes = 1) : (Code.when v o : Code σ).Typed 0 v.toNat := by
  cases v with
  | false => exact .nothing
  | true =>
    have h := Typed.op (σ := σ) ho 0
    rw [hpops,hpushes] at h
    exact h

theorem dropUnless {c : Code σ} (h : c.Typed 0 1) (v : Bool) :
    (c.seq (Code.when (!v) .pop)).Typed 0 v.toNat := by
  cases v with
  | true => exact h.seq (.frame 1 .nothing)
  | false => exact h.seq (.op (o := .pop) rfl 0)

theorem value {c : Code σ} (h : c.Typed 0 1) (v : Bool) : (codeValue c v).Typed 0 v.toNat := by
  cases v with
  | false => exact .nothing
  | true => exact h

end Code.Typed

theorem Coder.Typed.value {c : Code σ} (h : c.Typed 0 1) : (⟨codeValue c,none⟩ : Coder σ).Typed :=
  ⟨h.value,nofun⟩

theorem codeBlockBodyInline_typed (temps : List String) (isEmpty : Bool)
    (h : ∀ v,(body v).Typed 0 v.toNat) (v : Bool) :
    (codeBlockBodyInline temps isEmpty body v).Typed 0 v.toNat := by
  unfold codeBlockBodyInline
  split
  · exact .when v rfl rfl rfl
  · refine .withTemps fun saved => .seq (.seq (.tables ?_) (h v)) (.frame _ (.tables ?_))
    · exact fun t ht => cgAddTemps_error temps t ▸ ht
    · exact fun t ht => ht

theorem codeInlinedIf_typed (ho : o = .jumpTrue ∨ o = .jumpFalse) (hr : receiver.Typed)
    (hb : ∀ v,(body v).Typed 0 v.toNat) (v : Bool) :
    (codeInlinedIf o receiver body v).Typed 0 v.toNat := by
  unfold codeInlinedIf
  refine .seq (hr.node true) ?_
  cases v with
  | true => exact .branch ho (hb true) (.op (o := .pushNil) rfl 0)
  | false => exact .skip ho (hb false)

theorem codeInlinedBranch_typed (hr : receiver.Typed) {other : Bool → Code σ}
    (hb : ∀ v,(body v).Typed 0 v.toNat) (ho : ∀ v,(other v).Typed 0 v.toNat) (v : Bool) :
    ((receiver.node true).seq (.branch .jumpFalse (body v) (other v))).Typed 0 v.toNat :=
  .seq (hr.node true) (.branch (.inr rfl) (hb v) (ho v))

theorem codeInlinedLoop_typed (ho : o = .jumpTrue ∨ o = .jumpFalse) {cond : Bool → Code σ}
    (hc : ∀ v,(cond v).Typed 0 v.toNat) {body : Code σ} (hb : body.Typed 0 0) (v : Bool) :
    (codeInlinedLoop o cond body v).Typed 0 v.toNat :=
  .seq (.loop ho (hc true) hb) (.when v rfl rfl rfl)

theorem codeInlinedLogic_typed {push : Opcode} (ho : o = .jumpTrue ∨ o = .jumpFalse)
    (hp : push = .pushTrue ∨ push = .pushFalse) (hr : receiver.Typed)
    (hb : ∀ v,(body v).Typed 0 v.toNat) (v : Bool) :
    (codeInlinedLogic o push receiver body v).Typed 0 v.toNat := by
  have hpush : (Code.op push 0 : Code σ).Typed 0 1 := by
    rcases hp with rfl | rfl
    · exact .op (o := .pushTrue) rfl 0
    · exact .op (o := .pushFalse) rfl 0
  exact .dropUnless (.seq (hr.node true) (.branch ho (hb true) hpush)) v

theorem codeTimesRepeatLoop_typed (hb : ∀ v,(body v).Typed 0 v.toNat) (countIdx iIdx : Nat)
    (v : Bool) :
    (codeTimesRepeatLoop countIdx iIdx body v).Typed 1 v.toNat := by
  have hstore : ∀ k,(Code.op .popStoreTemp k : Code σ).Typed 1 0 := fun k => .op (o := .popStoreTemp) rfl k
  have hpush : ∀ k,(Code.op .pushTemp k : Code σ).Typed 0 1 := fun k => .op (o := .pushTemp) rfl k
  have hone : (Code.op .pushOne 0 : Code σ).Typed 0 1 := .op (o := .pushOne) rfl 0
  have hsend : ∀ sel,staSelectorArity sel = 1 → (Code.send .send sel 1 : Code σ).Typed 2 1 :=
    fun sel h => .send rfl h
  refine .seq (.seq (.seq (.seq (hstore _) hone) (hstore _)) (.loop (.inr rfl) ?_ ?_))
    (.when v rfl rfl rfl)
  · exact .seq (.seq (hpush _) (.frame 1 (hpush _))) (hsend "<=" (by decide))
  · exact .seq (.seq (.seq (.seq (hb false) (hpush _)) (.frame 1 hone)) (hsend "+" (by decide)))
      (hstore _)

theorem codeInlinedTimesRepeat_typed (hr : receiver.Typed) (hb : ∀ v,(body v).Typed 0 v.toNat)
    (v : Bool) :
    (codeInlinedTimesRepeat receiver body v).Typed 0 v.toNat := by
  refine .seq (hr.node true) (.withTemps fun k => ?_)
  have hscope : ((Code.tables (cgAddTemp ⟨"__tr_count",true⟩)).seq
      (.tables (cgAddTemp ⟨"__tr_i",true⟩)) : Code σ).Typed 0 0 :=
    .seq (.tables fun _ h => h) (.tables fun _ h => h)
  have hrestore : (Code.tables fun t : Tables σ =>
      cgRestoreTemps (t.tempNames.length - 2) t).Typed 0 0 := .tables fun _ h => h
  exact .seq (.seq (.frame 1 hscope) (codeTimesRepeatLoop_typed hb _ _ v)) (.frame v.toNat hrestore)

section

variable {receiver : Coder σ} {args : List (Coder σ)}

theorem inlineBody_typed (ha : ∀ d ∈ args,d.Typed) {body : Bool → Code σ}
    (h : some body ∈ args.map Coder.inlineBody) (v : Bool) : (body v).Typed 0 v.toNat := by
  obtain ⟨d,hd,hbody⟩ := List.mem_map.mp h
  exact (ha d hd).inlineBody body hbody v

variable {c : Code σ} {v : Bool} {sel : String}

theorem tryCodeInlinedIf_typed (sel : String) (hr : receiver.Typed) (ha : ∀ d ∈ args,d.Typed)
    (h : tryCodeInlinedIf sel receiver args v = some c) :
    c.Typed 0 v.toNat := by
  unfold tryCodeInlinedIf at h
  split at h
  · next body hargs =>
    have hb := fun v => inlineBody_typed ha (by rw [hargs]; exact mem_cons_self) v
    (repeat' split at h) <;> cases h
    · exact codeInlinedIf_typed (.inr rfl) hr hb v
    · exact codeInlinedIf_typed (.inl rfl) hr hb v
  · next body₀ body₁ hargs =>
    have h₀ : ∀ v : Bool,(body₀ v).Typed 0 v.toNat := inlineBody_typed ha (by rw [hargs]; simp)
    have h₁ : ∀ v : Bool,(body₁ v).Typed 0 v.toNat := inlineBody_typed ha (by rw [hargs]; simp)
    (repeat' split at h) <;> cases h
    · exact codeInlinedBranch_typed hr h₀ h₁ v
    · exact codeInlinedBranch_typed hr h₁ h₀ v
  · cases h

theorem tryCodeInlinedLoop_typed (sel : String) (hr : receiver.Typed) (ha : ∀ d ∈ args,d.Typed)
    (h : tryCodeInlinedLoop sel receiver args v = some c) :
    c.Typed 0 v.toNat := by
  unfold tryCodeInlinedLoop at h
  split at h
  · next cond body hcond hargs =>
    have hc := hr.inlineBody cond hcond
    have hb : (body false).Typed 0 0 := inlineBody_typed ha (by rw [hargs]; simp) false
    (repeat' split at h) <;> cases h
    · exact codeInlinedLoop_typed (.inr rfl) hc hb v
    · exact codeInlinedLoop_typed (.inl rfl) hc hb v
  · next cond hcond hargs =>
    have hc := hr.inlineBody cond hcond
    (repeat' split at h) <;> cases h
    · exact codeInlinedLoop_typed (.inr rfl) hc .nothing v
    · exact codeInlinedLoop_typed (.inl rfl) hc .nothing v
  · cases h

theorem tryCodeInlinedLogic_typed (sel : String) (hr : receiver.Typed) (ha : ∀ d ∈ args,d.Typed)
    (h : tryCodeInlinedLogic sel receiver args v = some c) :
    c.Typed 0 v.toNat := by
  unfold tryCodeInlinedLogic at h
  split at h
  · next body hargs =>
    have hb := fun v => inlineBody_typed ha (by rw [hargs]; exact mem_cons_self) v
    (repeat' split at h) <;> cases h
    · exact codeInlinedLogic_typed (.inr rfl) (.inr rfl) hr hb v
    · exact codeInlinedLogic_typed (.inl rfl) (.inl rfl) hr hb v
  · cases h

theorem tryCodeInlinedTimesRepeat_typed (sel : String) (hr : receiver.Typed)
    (ha : ∀ d ∈ args,d.Typed) (h : tryCodeInlinedTimesRepeat sel receiver args v = some c) :
    c.Typed 0 v.toNat := by
  unfold tryCodeInlinedTimesRepeat at h
  split at h
  · next body hargs =>
    have hb := fun v => inlineBody_typed ha (by rw [hargs]; exact mem_cons_self) v
    split at h <;> cases h
    exact codeInlinedTimesRepeat_typed hr hb v
  · cases h

theorem codeArgs_typed (ha : ∀ d ∈ args,d.Typed) : (codeArgs args).Typed 0 args.length := by
  induction args with
  | nil => exact .nothing
  | cons d ds ih =>
    have hd := (ha d mem_cons_self).node true
    have hds := Code.Typed.frame 1 (ih fun x hx => ha x (mem_cons_of_mem _ hx))
    rw [length_cons,Nat.add_comm]
    exact .seq hd hds

theorem codeMessage_typed (ha : ∀ d ∈ args,d.Typed) {o : Opcode} (ho : o.isSend = true)
    (hs : SendParsed sel args.length) :
    ((codeArgs args).seq (.send o sel args.length)).Typed 1 1 := by
  have hargs := Code.Typed.frame 1 (codeArgs_typed ha)
  rw [Nat.add_comm 1 args.length] at hargs
  exact .seq hargs (.send ho (hs.1.arity hs.2))

theorem codeNormalSend_typed (hr : c.Typed 0 1) (ha : ∀ d ∈ args,d.Typed) {o : Opcode}
    (ho : o.isSend = true) (hs : SendParsed sel args.length) (v : Bool) :
    (codeNormalSend o sel c args v).Typed 0 v.toNat := by
  have hargs := Code.Typed.frame 1 (codeArgs_typed ha)
  rw [Nat.add_comm 1 args.length] at hargs
  exact .dropUnless (.seq (.seq hr hargs) (.send ho (hs.1.arity hs.2))) v

theorem codeSend_typed (hr : receiver.Typed) (ha : ∀ d ∈ args,d.Typed)
    (hs : SendParsed sel args.length) (v : Bool) :
    (codeSend sel receiver args v).Typed 0 v.toNat := by
  unfold codeSend
  cases hif : tryCodeInlinedIf sel receiver args v with
  | some c => exact tryCodeInlinedIf_typed sel hr ha hif
  | none =>
  cases hloop : tryCodeInlinedLoop sel receiver args v with
  | some c => exact tryCodeInlinedLoop_typed sel hr ha hloop
  | none =>
  cases hlogic : tryCodeInlinedLogic sel receiver args v with
  | some c => exact tryCodeInlinedLogic_typed sel hr ha hlogic
  | none =>
  cases htimes : tryCodeInlinedTimesRepeat sel receiver args v with
  | some c => exact tryCodeInlinedTimesRepeat_typed sel hr ha htimes
  | none => exact codeNormalSend_typed (hr.node true) ha rfl hs v

end

theorem codeCascadeMessages_typed {messages : List (String × List (Coder σ))}
    (h : ∀ m ∈ messages,(∀ d ∈ m.2,d.Typed) ∧ SendParsed m.1 m.2.length) :
    (codeCascadeMessages messages).Typed 1 1 := by
  fun_induction codeCascadeMessages messages with
  | case1 => exact .frame 1 .nothing
  | case2 sel args =>
    have hm := h (sel,args) mem_cons_self
    exact codeMessage_typed hm.1 rfl hm.2
  | case3 sel args messages hne ih =>
    have hm := h (sel,args) mem_cons_self
    have hrest := ih fun m hmem => h m (mem_cons_of_mem _ hmem)
    have hargs := Code.Typed.frame 2 (codeArgs_typed hm.1)
    have hdup : (Code.op .dup 0 : Code σ).Typed 1 2 := .op (o := .dup) rfl 0
    have hsend := Code.Typed.frame 1
      (Code.Typed.send (σ := σ) (o := .send) rfl (hm.2.1.arity hm.2.2))
    have hcount : 2 + args.length = 1 + (args.length + 1) := by omega
    rw [hcount] at hargs
    exact .seq (.seq (.seq (.seq hdup hargs) hsend) (.frame 1 (.op (o := .pop) rfl 0))) hrest

theorem codeReturn_ends (expr : Node) {value : Coder σ} (h : value.Typed) :
    (codeReturn expr value).Ends 0 := by
  refine .inBlock fun nested => ?_
  have hvalue : ∀ o : Opcode,o.isReturn = true → o.pops = 1 →
      ((value.node true).seq (.op o 0)).Ends 0 := by
    intro o ho hpops
    have hret := Code.Ends.returns (σ := σ) ho 0
    rw [hpops] at hret
    exact .seq (h.node true) hret
  cases nested with
  | true => exact hvalue .nonLocalReturn rfl rfl
  | false =>
    cases expr with
    | literalNil => exact .returns (o := .returnNil) rfl 0
    | literalBool b =>
      cases b with
      | true => exact .returns (o := .returnTrue) rfl 0
      | false => exact .returns (o := .returnFalse) rfl 0
    | self => exact .returns (o := .returnSelf) rfl 0
    | _ => exact hvalue .returnTop rfl rfl

theorem Code.Ends.typed {c : Code σ} (h : c.Ends a) (b : Nat) : c.Typed a b := by
  induction h with
  | returns ho k => exact .returns ho k b
  | inBlock h ih => exact .inBlock ih
  | seq hc hd ih => exact .seq hc ih

theorem codeStatement_typed {stmt : Node} {c : Coder σ} (hc : c.Typed)
    (hret : stmt.isReturn = true → ∀ v,(c.node v).Ends 0) {rest : Code σ} {v : Bool}
    (hrest : rest.Typed 0 v.toNat) (isLast : Bool) :
    (codeStatement stmt c isLast v rest).Typed 0 v.toNat := by
  unfold codeStatement
  split
  · cases hs : stmt.isReturn with
    | true => exact (hret hs _).typed _
    | false =>
      rw [Bool.or_false]
      exact hc.node v
  · split
    · next hs => exact (hret hs _).typed _
    · split
      · exact .seq (hc.node false) hrest
      · exact .seq (.seq (hc.node true) (.op (o := .pop) rfl 0)) hrest

variable (env)

mutual

theorem coder_typed : (n : Node) → n.SendsParsed → (coder env n).Typed
  | .self,_ => .value (.op (o := .pushReceiver) rfl 0)
  | .literalNil,_ => .value (.op (o := .pushNil) rfl 0)
  | .literalBool b,_ => .value (by
      cases b with
      | true => exact .op (o := .pushTrue) rfl 0
      | false => exact .op (o := .pushFalse) rfl 0)
  | .literalInt value,_ => .value (.ref (literalIntRef_effect value))
  | .literalFloat,_ => .value (.fails (fun t => cgError_keeps _ t) 1)
  | .literalString text,_ => .value (.ref (literalStringRef_effect text))
  | .literalSymbol name,_ => .value (.ref (literalSymbolRef_effect name))
  | .literalChar value,_ => .value (.ref (literalRef_effect _))
  | .literalArray elements,_ => .value (.ref (literalArrayRef_effect elements))
  | .var name,_ => .value (.ref (variableRef_effect name))
  | .assign name value,h =>
    ⟨fun v => .seq ((coder_typed value h).node true) (.ref (assignmentRef_effect name v)),nofun⟩
  | .send receiver sel args,h =>
    ⟨fun v => codeSend_typed (coder_typed receiver h.1) (coders_typed args h.2.1)
      (by rw [coders_length]; exact h.2.2) v,nofun⟩
  | .superSend _ sel args,h =>
    ⟨fun v => codeNormalSend_typed (.op (o := .pushReceiver) rfl 0) (coders_typed args h.1) rfl
      (by rw [coders_length]; exact h.2) v,nofun⟩
  | .cascade receiver messages,h =>
    ⟨fun v => .dropUnless (.seq ((coder_typed receiver h.1).node true)
      (codeCascadeMessages_typed (codeMessages_typed messages h.2))) v,nofun⟩
  | .ret expr,h => ⟨fun v => (codeReturn_ends expr (coder_typed expr h)).typed _,nofun⟩
  | .block args temps body,h => by
    have hbody := codeStatements_typed body h
    refine ⟨fun v => Code.Typed.value (.block args temps body (hbody true)) v,?_⟩
    rintro b ⟨⟩ v
    exact codeBlockBodyInline_typed temps body.isEmpty hbody v
  | .method _ _ _ _,_ => ⟨fun v => .fails (fun t => cgError_keeps _ t) _,nofun⟩

theorem coders_typed : (ns : List Node) → SendsParsed ns → ∀ d ∈ coders env ns,d.Typed
  | [],_ => nofun
  | n :: ns,h => forall_mem_cons.mpr ⟨coder_typed n h.1,coders_typed ns h.2⟩

theorem codeMessages_typed : (messages : List (String × List Node)) → MessagesParsed messages →
    ∀ m ∈ codeMessages env messages,(∀ d ∈ m.2,d.Typed) ∧ SendParsed m.1 m.2.length
  | [],_ => nofun
  | (sel,args) :: messages,h => forall_mem_cons.mpr
      ⟨⟨coders_typed args h.1,by rw [coders_length]; exact h.2.1⟩,codeMessages_typed messages h.2.2⟩

theorem codeStatements_typed : (stmts : List Node) → SendsParsed stmts → (v : Bool) →
    (codeStatements env stmts v).Typed 0 v.toNat
  | [],_,v => .when v rfl rfl rfl
  | stmt :: stmts,h,v => by
    refine codeStatement_typed (coder_typed stmt h.1) ?_ (codeStatements_typed stmts h.2 v) _
    intro hs
    cases stmt with
    | ret expr => exact fun v => codeReturn_ends expr (coder_typed expr h.1)
    | _ => cases hs

end

theorem codeStatements_ends {stmts : List Node} (h : SendsParsed stmts)
    (hlast : lastIsReturn stmts = true) (v : Bool) : (codeStatements env stmts v).Ends 0 := by
  induction stmts with
  | nil => cases hlast
  | cons stmt stmts ih =>
    have hret : stmt.isReturn = true → ∀ v,((coder env stmt).node v).Ends 0 := by
      intro hs
      cases stmt with
      | ret expr => exact fun v => codeReturn_ends expr (coder_typed env expr h.1)
      | _ => cases hs
    rw [codeStatements,codeStatement]
    cases stmts with
    | nil => exact hret hlast _
    | cons stmt' stmts =>
      have hrest := ih h.2 hlast
      have hstmt := coder_typed env stmt h.1
      simp only [isEmpty_cons,Bool.false_eq_true,if_false]
      split
      · next hs => exact hret hs _
      · split
        · exact .seq (hstmt.node false) hrest
        · exact .seq (.seq (hstmt.node true) (.op (o := .pop) rfl 0)) hrest

theorem codeMethodBody_ends {body : List Node} (h : SendsParsed body) :
    (codeMethodBody env body).Ends 0 := by
  have hself : (Code.op .returnSelf 0 : Code σ).Ends 0 := .returns (o := .returnSelf) rfl 0
  unfold codeMethodBody
  split
  · exact hself
  · split
    · next hlast => exact codeStatements_ends env h hlast false
    · exact .seq (codeStatements_typed env body h true) (.seq (.op (o := .pop) rfl 0) hself)

/-! ## The stack discipline -/

def Cell.isReturn (c : Cell) : Bool :=
  match c.instr with
  | .op o _ => o.isReturn
  | _ => false

/-- Control in a method entered with an empty expression stack, and in each of its blocks. -/
abbrev Reaches (code : List Cell) (pc depth : Nat) : Prop := stackFlow.Reached 0 code 0 (pc,depth)

structure StackDiscipline (code : List Cell) : Prop where
  /-- the depth is a function of the offset -/
  unique : ∀ pc d d',Reaches code pc d → Reaches code pc d' → d = d'
  /-- the instruction does not reach below the base, and is a return or goes on -/
  available : ∀ pc d,Reaches code pc d → ∃ c,(pc,c) ∈ listing Cell.size 0 code ∧ c.pops ≤ d ∧
    (c.isReturn = true ∨ c.next pc ≠ [])
  /-- a send pops its receiver and the arguments pushed for it -/
  operands : ∀ c ∈ code,c.OperandOk

/-- Without an error the code is the generator's, and what enters it at the start leaves it at the
end with one value more, or as many as before. -/
def AddsValue (env : CodegenEnv σ) (n : Node) (forValue : Bool) : Prop :=
  ∀ pos t,(((coder env n).node forValue).emit env pos t).2.error = none →
    let cells := (((coder env n).node forValue).emit env pos t).1
    cells.map Cell.instr = ((compiler env n).node forValue pos t).1 ∧
    ∀ base d,stackFlow.Path pos cells (pos,base) (pos + cellSize cells,d) →
      d = base + forValue.toNat

theorem Terminated.discipline {code : List Cell} (h : Terminated 0 code 0) :
    StackDiscipline code where
  unique pc d d' hd hd' := by
    obtain ⟨f,hf⟩ := h.reached
    exact (hf _ hd).1.trans (hf _ hd').1.symm
  available pc d hd := by
    obtain ⟨f,hf⟩ := h.reached
    obtain ⟨-,c,hc,hpops,-⟩ := hf _ hd
    refine ⟨c,hc,hpops,?_⟩
    rcases c with ⟨a,operand⟩
    cases a with
    | op o k =>
      cases hret : o.isReturn with
      | true => exact .inl hret
      | false =>
        refine .inr ?_
        simp only [Cell.next,hret,Bool.false_eq_true,if_false]
        split <;> simp
    | jump o skip =>
      refine .inr ?_
      simp only [Cell.next]
      split <;> simp
    | back span => exact .inr (by simp [Cell.next])
  operands c hc := by
    obtain ⟨f,-,-,hres⟩ := h
    obtain ⟨p,hp⟩ := mem_listing_of_mem Cell.size hc 0
    exact (hres p c hp).ok.2

theorem addsValue {n : Node} (h : n.SendsParsed) (forValue : Bool) : AddsValue env n forValue := by
  intro pos t hok
  refine ⟨?_,fun base d hpath => ?_⟩
  · have hcode := congrFun (congrArg Compiler.node (coder_compiler env n)) forValue
    rw [← hcode]
    rfl
  · exact ((((coder_typed env n h).node forValue).labelled pos t hok).2 base).path hpath

def guardedSend : List Node :=
  [.send (.var "x") "ifTrue:" [.block [] [] [.ret .self]],
    .ret (.send (.var "x") "at:" [.block ["y"] [] [.var "y"]])]

theorem guardedSend_parsed : SendsParsed guardedSend := by
  have hif : SelectorFor "ifTrue:" 1 :=
    @SelectorFor.keyword ["ifTrue".toList] (by decide) (by decide)
  have hat : SelectorFor "at:" 1 := @SelectorFor.keyword ["at".toList] (by decide) (by decide)
  exact ⟨⟨trivial,⟨⟨trivial,trivial⟩,trivial⟩,hif,by decide⟩,
    ⟨trivial,⟨⟨trivial,trivial⟩,trivial⟩,hat,by decide⟩,trivial⟩

end SmalltalkA
