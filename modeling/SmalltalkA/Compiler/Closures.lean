import SmalltalkA.Compiler.Refine

/-! Which blocks become closures: the generator calls `emit_block` on the blocks of `closureSites`
only, and on all of them unless it stops with an error. -/

set_option autoImplicit false

namespace SmalltalkA

open List

variable {σ : Type}

/-- The arguments of a send are block literals whose bodies are emitted in place. -/
def inlinesArgs (sel : String) (receiver : Node) : List Node → Bool
  | [a] => a.isBlock && (["ifTrue:","ifFalse:","and:","or:","timesRepeat:"].contains sel ||
      (receiver.isBlock && ["whileTrue:","whileFalse:"].contains sel))
  | [a,b] => a.isBlock && b.isBlock && ["ifTrue:ifFalse:","ifFalse:ifTrue:"].contains sel
  | _ => false

def inlinesReceiver (sel : String) (receiver : Node) : List Node → Bool
  | [] => receiver.isBlock && ["whileTrue","whileFalse"].contains sel
  | [a] => receiver.isBlock && a.isBlock && ["whileTrue:","whileFalse:"].contains sel
  | _ => false

def inlinedForValue (sel : String) (forValue : Bool) : Bool :=
  ["and:","or:"].contains sel ||
    (forValue && !(["whileTrue:","whileFalse:","timesRepeat:"].contains sel))

mutual

/-- The blocks compiled as closures when a node is emitted in a scope. -/
def closureSites : Node → Bool → List String → List BlockSite
  | .assign _ value,_,scope => closureSites value true scope
  | .ret expr,_,scope => closureSites expr true scope
  | .send receiver sel args,v,scope =>
    (if inlinesReceiver sel receiver args then bodySites receiver true scope
      else closureSites receiver true scope) ++
    (if inlinesArgs sel receiver args then bodiesSites args (inlinedForValue sel v) scope
      else argSites args scope)
  | .superSend _ _ args,_,scope => argSites args scope
  | .cascade receiver messages,_,scope =>
    closureSites receiver true scope ++ messageSites messages scope
  | .block args temps body,v,scope =>
    if v then ⟨args,temps,body,scope⟩ :: statementSites body true (scope ++ (args ++ temps))
    else []
  | _,_,_ => []

/-- A block literal emitted in place: its temps get slots, its arguments do not. -/
def bodySites : Node → Bool → List String → List BlockSite
  | .block _ temps body,v,scope => statementSites body v (scope ++ temps)
  | _,_,_ => []

def bodiesSites : List Node → Bool → List String → List BlockSite
  | [],_,_ => []
  | n :: ns,v,scope => bodySites n v scope ++ bodiesSites ns v scope

def argSites : List Node → List String → List BlockSite
  | [],_ => []
  | n :: ns,scope => closureSites n true scope ++ argSites ns scope

def messageSites : List (String × List Node) → List String → List BlockSite
  | [],_ => []
  | (_,args) :: messages,scope => argSites args scope ++ messageSites messages scope

def statementSites : List Node → Bool → List String → List BlockSite
  | [],_,_ => []
  | stmt :: stmts,v,scope =>
    if stmts.isEmpty then closureSites stmt (v || stmt.isReturn) scope
    else if stmt.isReturn then closureSites stmt true scope
    else closureSites stmt (!stmt.isAssign) scope ++ statementSites stmts v scope

end

def methodSites (args temps : List String) (body : List Node) : List BlockSite :=
  statementSites body (!lastIsReturn body) (args ++ temps)

/-! ## What an emitter adds to the record of closures -/

structure Logs (e : Emit σ) (sites : List String → List BlockSite) : Prop where
  tempNames_eq : ∀ cg,(e cg).tab.tempNames = cg.tab.tempNames
  needsContext_eq : ∀ cg,(e cg).tab.needsContext = cg.tab.needsContext
  ok_before : ∀ cg,(e cg).Ok → cg.Ok
  keeps : ∀ cg,∀ s ∈ cg.tab.closures,s ∈ (e cg).tab.closures
  sound : ∀ cg,∀ s ∈ (e cg).tab.closures,s ∈ cg.tab.closures ∨
    s.toBlockSite ∈ sites cg.tab.scope ∧ s.op = copyOp cg.tab
  complete : ∀ cg,(e cg).Ok → ∀ b ∈ sites cg.tab.scope,
    ∃ s ∈ (e cg).tab.closures,s.toBlockSite = b

namespace Logs

variable {e f : Emit σ} {r s : List String → List BlockSite}

theorem scope_eq {sites : List String → List BlockSite} (h : Logs e sites) (cg : Codegen σ) :
    (e cg).tab.scope = cg.tab.scope := by
  simp [Tables.scope,h.tempNames_eq]

theorem copyOp_eq {sites : List String → List BlockSite} (h : Logs e sites) (cg : Codegen σ) :
    copyOp (e cg).tab = copyOp cg.tab := by
  simp [copyOp,h.needsContext_eq]

theorem nothing : Logs (id : Emit σ) (fun _ => []) where
  tempNames_eq _ := rfl
  needsContext_eq _ := rfl
  ok_before _ h := h
  keeps _ _ h := h
  sound _ _ h := .inl h
  complete _ _ _ h := by cases h

theorem andThen (he : Logs e r) (hf : Logs f s) :
    Logs (fun cg => f (e cg)) (fun scope => r scope ++ s scope) where
  tempNames_eq cg := (hf.tempNames_eq _).trans (he.tempNames_eq cg)
  needsContext_eq cg := (hf.needsContext_eq _).trans (he.needsContext_eq cg)
  ok_before cg h := he.ok_before cg (hf.ok_before _ h)
  keeps cg x h := hf.keeps _ x (he.keeps cg x h)
  sound cg x h := by
    rcases hf.sound _ x h with h | ⟨h,hop⟩
    · rcases he.sound cg x h with h | ⟨h,hop⟩
      · exact .inl h
      · exact .inr ⟨mem_append_left _ h,hop⟩
    · rw [he.scope_eq] at h
      rw [he.copyOp_eq] at hop
      exact .inr ⟨mem_append_right _ h,hop⟩
  complete cg h b hb := by
    rcases mem_append.mp hb with hb | hb
    · obtain ⟨x,hx,rfl⟩ := he.complete cg (hf.ok_before _ h) b hb
      exact ⟨x,hf.keeps _ x hx,rfl⟩
    · rw [← he.scope_eq cg] at hb
      exact hf.complete _ h b hb

theorem congr (h : Logs e r) (hrs : ∀ scope b,b ∈ r scope ↔ b ∈ s scope) : Logs e s where
  tempNames_eq := h.tempNames_eq
  needsContext_eq := h.needsContext_eq
  ok_before := h.ok_before
  keeps := h.keeps
  sound cg x hx := (h.sound cg x hx).imp_right (And.imp_left (hrs _ _).mp)
  complete cg hok b hb := h.complete cg hok b ((hrs _ _).mpr hb)

theorem silent (hok : ∀ cg,(e cg).Ok → cg.Ok)
    (htemps : ∀ cg,(e cg).tab.tempNames = cg.tab.tempNames)
    (hctx : ∀ cg,(e cg).tab.needsContext = cg.tab.needsContext)
    (hlog : ∀ cg,(e cg).tab.closures = cg.tab.closures) : Logs e (fun _ => []) where
  tempNames_eq := htemps
  needsContext_eq := hctx
  ok_before := hok
  keeps cg s h := hlog cg ▸ h
  sound cg s h := .inl (hlog cg ▸ h)
  complete _ _ _ h := by cases h

theorem wide (o : Opcode) (k : Nat) : Logs (emitWide o k : Emit σ) (fun _ => []) :=
  silent (fun _ h => (emitWide_emitted h).ok_before) (fun _ => rfl) (fun _ => rfl) (fun _ => rfl)

theorem op (o : Opcode) : Logs (emitOp o : Emit σ) (fun _ => []) := wide o 0

theorem when (b : Bool) (o : Opcode) : Logs (emitWhen b o : Emit σ) (fun _ => []) := by
  cases b
  · exact nothing
  · exact op o

theorem patched (h : Logs e r) (pc : Codegen σ → Nat) :
    Logs (fun cg => patchJump (pc cg) (e cg)) r where
  tempNames_eq := h.tempNames_eq
  needsContext_eq := h.needsContext_eq
  ok_before cg hok := h.ok_before cg ((patchJump_ok _ _).mp hok)
  keeps := h.keeps
  sound := h.sound
  complete cg hok := h.complete cg ((patchJump_ok _ _).mp hok)

theorem jumpedBack (h : Logs e r) (loopTop : Codegen σ → Nat) :
    Logs (fun cg => emitJumpBack (loopTop cg) (e cg)) r where
  tempNames_eq cg := by rw [emitJumpBack_tab,h.tempNames_eq]
  needsContext_eq cg := by rw [emitJumpBack_tab,h.needsContext_eq]
  ok_before cg hok := h.ok_before cg (emitWide_emitted hok).ok_before
  keeps cg x hx := by
    rw [emitJumpBack_tab]
    exact h.keeps cg x hx
  sound cg x hx := by
    rw [emitJumpBack_tab] at hx
    exact h.sound cg x hx
  complete cg hok := by
    rw [emitJumpBack_tab]
    exact h.complete cg (emitWide_emitted hok).ok_before

theorem skip (o : Opcode) (h : Logs e r) : Logs (emitSkip o e) r :=
  (((op o).andThen h).patched fun cg => cg.code.count).congr fun _ _ => Iff.rfl

theorem branch (o : Opcode) (he : Logs e r) (hf : Logs f s) :
    Logs (emitBranch o e f) (fun scope => r scope ++ s scope) := by
  have hfirst := ((((op o).andThen he).andThen (op .jump)).patched fun cg => cg.code.count).andThen hf
  refine (hfirst.patched fun cg => (e (emitOp o cg)).code.count).congr ?_
  simp

theorem loop (o : Opcode) (he : Logs e r) (hf : Logs f s) :
    Logs (emitLoop o e f) (fun scope => r scope ++ s scope) := by
  have hall := (((he.andThen (op o)).andThen hf).jumpedBack fun cg => cg.code.count).patched
    fun cg => (e cg).code.count
  refine hall.congr ?_
  simp

end Logs

/-! ## Operands and scopes -/

/-- Tables that agree on what closures are recorded with. -/
structure SameScope (t t' : Tables σ) : Prop where
  tempNames_eq : t'.tempNames = t.tempNames
  needsContext_eq : t'.needsContext = t.needsContext
  closures_eq : t'.closures = t.closures

theorem SameScope.refl (t : Tables σ) : SameScope t t := ⟨rfl,rfl,rfl⟩

variable {t : Tables σ} {e : Emit σ} {r : List String → List BlockSite} {n : Node}
  {env : CodegenEnv σ}

theorem SameScope.trans {t' t'' : Tables σ} (h : SameScope t t') (h' : SameScope t' t'') :
    SameScope t t'' :=
  ⟨h'.tempNames_eq.trans h.tempNames_eq,h'.needsContext_eq.trans h.needsContext_eq,
    h'.closures_eq.trans h.closures_eq⟩

theorem cgError_sameScope (msg : String) {t' : Tables σ} (h : SameScope t t') :
    SameScope t (cgError msg t') := by
  unfold cgError
  split
  · exact h
  · exact ⟨h.tempNames_eq,h.needsContext_eq,h.closures_eq⟩

theorem cgInternSelector_sameScope (env : CodegenEnv σ) (sel : String) (t : Tables σ) :
    SameScope t (cgInternSelector env sel t).2 := by
  unfold cgInternSelector
  simp only
  split
  · exact cgError_sameScope _ ⟨rfl,rfl,rfl⟩
  · split
    · exact cgError_sameScope _ ⟨rfl,rfl,rfl⟩
    · exact ⟨rfl,rfl,rfl⟩

theorem cgLookupGlobal_sameScope (env : CodegenEnv σ) (name : String) (t : Tables σ) :
    SameScope t (cgLookupGlobal env name t).2 := by
  unfold cgLookupGlobal
  simp only
  repeat' split
  all_goals exact ⟨rfl,rfl,rfl⟩

theorem lookupRef_sameScope (env : CodegenEnv σ) (name msg : String) (a b c : Opcode)
    (t : Tables σ) : SameScope t (lookupRef env name msg a b c t).2 := by
  have hglobal := cgLookupGlobal_sameScope env name t
  unfold lookupRef
  cases cgFindTemp t name with
  | some idx => exact SameScope.refl t
  | none =>
    cases cgFindInstvar env name with
    | some idx => exact SameScope.refl t
    | none =>
      simp only
      split
      · split
        · exact cgError_sameScope _ hglobal
        · exact hglobal.trans ⟨rfl,rfl,rfl⟩
      · exact cgError_sameScope _ (SameScope.refl t)

theorem literalIntRef_sameScope (value : Int) (t : Tables σ) :
    SameScope t (literalIntRef value t).2 := by
  unfold literalIntRef
  repeat' split
  all_goals exact ⟨rfl,rfl,rfl⟩

theorem Logs.ref {r : Ref σ} (hok : RefOk r) (h : ∀ t,SameScope t (r t).2) :
    Logs (emitRef r) (fun _ => []) := by
  have htab : ∀ cg : Codegen σ,(emitRef r cg).tab = (r cg.tab).2 := by
    intro cg
    unfold emitRef
    split <;> simp [*]
  refine Logs.silent (Refines.ref hok).ok_before ?_ ?_ ?_
  · exact fun cg => htab cg ▸ (h cg.tab).tempNames_eq
  · exact fun cg => htab cg ▸ (h cg.tab).needsContext_eq
  · exact fun cg => htab cg ▸ (h cg.tab).closures_eq

theorem sameScope_orError {p : Prop} [Decidable p] (msg : String) {t₀ : Tables σ}
    {r : Option (Opcode × Nat) × Tables σ} (h₀ : SameScope t t₀) (hr : SameScope t r.2) :
    SameScope t (if p then (none,cgError msg t₀) else r).2 := by
  split
  · exact cgError_sameScope _ h₀
  · exact hr

theorem Logs.selector (env : CodegenEnv σ) {o : Opcode} (ho : o.isPlain = true) (sel : String) :
    Logs (emitRef (selectorRef env o sel)) (fun _ => []) :=
  Logs.ref (selectorRef_ok env ho sel) (cgInternSelector_sameScope env sel)

theorem cgAddTemps_tempNames (names : List String) (t : Tables σ) :
    (cgAddTemps names t).tempNames = t.tempNames ++ names.map fun n => ⟨n,false⟩ := by
  induction names generalizing t with
  | nil => simp [cgAddTemps]
  | cons name names ih => simp [cgAddTemps,ih,cgAddTemp]

theorem cgAddTemps_closures (names : List String) (t : Tables σ) :
    (cgAddTemps names t).closures = t.closures := by
  induction names generalizing t with
  | nil => rfl
  | cons name names ih => simp [cgAddTemps,ih,cgAddTemp]

theorem cgAddTemps_needsContext (names : List String) (t : Tables σ) :
    (cgAddTemps names t).needsContext = t.needsContext := by
  induction names generalizing t with
  | nil => rfl
  | cons name names ih => simp [cgAddTemps,ih,cgAddTemp]

theorem cgAddTemps_scope (names : List String) (t : Tables σ) :
    (cgAddTemps names t).scope = t.scope ++ names := by
  have hmap : (names.map fun n => (⟨n,false⟩ : TempEntry)).filter (fun e => !e.hidden) =
      names.map fun n => ⟨n,false⟩ := filter_eq_self.mpr (by simp)
  simp [Tables.scope,cgAddTemps_tempNames,hmap,Function.comp_def]

theorem Logs.scoped (h : Logs e r) (temps : List String) :
    Logs (fun cg => onTables (cgRestoreTemps cg.tab.tempNames.length)
      (e (onTables (cgAddTemps temps) cg))) (fun scope => r (scope ++ temps)) where
  tempNames_eq cg := by
    simp [onTables,cgRestoreTemps,h.tempNames_eq,cgAddTemps_tempNames]
  needsContext_eq cg := by
    simp [onTables,cgRestoreTemps,h.needsContext_eq,cgAddTemps_needsContext]
  ok_before cg hok := by
    have hb := h.ok_before _ hok
    exact ⟨cgAddTemps_error temps cg.tab ▸ hb.1,hb.2⟩
  keeps cg x hx := h.keeps _ x (by simpa [onTables,cgAddTemps_closures] using hx)
  sound cg x hx := by
    have hs := h.sound (onTables (cgAddTemps temps) cg) x hx
    simpa [onTables,cgAddTemps_closures,cgAddTemps_scope,copyOp,cgAddTemps_needsContext] using hs
  complete cg hok b hb := by
    have hc := h.complete (onTables (cgAddTemps temps) cg) hok b
    rw [onTables,cgAddTemps_scope] at hc
    exact hc hb

theorem storeDescriptor_sameScope (env : CodegenEnv σ) (descIdx : Nat) (slots : List Oop)
    (t : Tables σ) : SameScope t (storeDescriptor env descIdx slots t) := by
  unfold storeDescriptor
  simp only
  split
  · exact cgError_sameScope _ ⟨rfl,rfl,rfl⟩
  · exact ⟨rfl,rfl,rfl⟩

theorem closeBlock_tempNames (env : CodegenEnv σ) (before t : Tables σ) (n i j : Nat) :
    (closeBlock env before n i j t).tempNames = t.tempNames.take before.tempNames.length :=
  (storeDescriptor_sameScope env _ _ _).tempNames_eq

theorem closeBlock_needsContext (env : CodegenEnv σ) (before t : Tables σ) (n i j : Nat) :
    (closeBlock env before n i j t).needsContext = t.needsContext :=
  (storeDescriptor_sameScope env _ _ _).needsContext_eq

theorem closeBlock_closures (env : CodegenEnv σ) (before t : Tables σ) (n i j : Nat) :
    (closeBlock env before n i j t).closures = t.closures :=
  (storeDescriptor_sameScope env _ _ _).closures_eq

theorem openBlock_tempNames (args temps : List String) (stmts : List Node) (t : Tables σ) :
    (openBlock args temps stmts t).tempNames =
      t.tempNames ++ (args ++ temps).map fun n => ⟨n,false⟩ := cgAddTemps_tempNames _ _

theorem openBlock_scope (args temps : List String) (stmts : List Node) (t : Tables σ) :
    (openBlock args temps stmts t).scope = t.scope ++ (args ++ temps) := cgAddTemps_scope _ _

theorem openBlock_needsContext (args temps : List String) (stmts : List Node) (t : Tables σ) :
    (openBlock args temps stmts t).needsContext = t.needsContext := cgAddTemps_needsContext _ _

theorem openBlock_closures (args temps : List String) (stmts : List Node) (t : Tables σ) :
    (openBlock args temps stmts t).closures =
      t.closures ++ [⟨⟨args,temps,stmts,t.scope⟩,copyOp t⟩] := cgAddTemps_closures _ _

theorem Logs.block (env : CodegenEnv σ) (args temps : List String) (stmts : List Node)
    {e : Emit σ} {r : List String → List BlockSite} (h : Logs e r) :
    Logs (emitBlock env args temps stmts e)
      (fun scope => ⟨args,temps,stmts,scope⟩ :: r (scope ++ (args ++ temps))) := by
  have hbody := h.andThen (Logs.op (σ := σ) .returnTop)
  refine ⟨?_,?_,?_,?_,?_,?_⟩
  · intro cg
    rw [emitBlock,onTables,closeBlock_tempNames,hbody.tempNames_eq]
    simp [onTables,openBlock_tempNames,emitWide_tab]
  · intro cg
    rw [emitBlock,onTables,closeBlock_needsContext,hbody.needsContext_eq]
    simp [onTables,openBlock_needsContext,emitWide_tab]
  · intro cg hok
    have hb := hbody.ok_before _ ⟨closeBlock_keeps hok.1,hok.2⟩
    exact (emitWide_emitted ⟨openBlock_error args temps stmts _ ▸ hb.1,hb.2⟩).ok_before
  · intro cg s hs
    rw [emitBlock,onTables,closeBlock_closures]
    apply hbody.keeps
    simp [onTables,openBlock_closures,emitWide_tab,hs]
  · intro cg s hs
    rw [emitBlock,onTables,closeBlock_closures] at hs
    have hsound := hbody.sound _ s hs
    simp only [onTables,openBlock_closures,openBlock_scope,emitWide_tab,append_nil,copyOp,
      openBlock_needsContext,mem_append,mem_singleton] at hsound
    rcases hsound with (hs | rfl) | ⟨hs,hop⟩
    · exact .inl hs
    · exact .inr ⟨mem_cons_self,rfl⟩
    · exact .inr ⟨mem_cons_of_mem _ hs,hop⟩
  · intro cg hok b hb
    have hmid : (emitOp .returnTop (e (onTables (openBlock args temps stmts)
        (emitWide (copyOp cg.tab) (lbAddUnique cg.tab.literals 0).1 cg)))).Ok :=
      ⟨closeBlock_keeps hok.1,hok.2⟩
    rw [emitBlock,onTables,closeBlock_closures]
    rcases mem_cons.mp hb with rfl | hb
    · refine ⟨⟨⟨args,temps,stmts,cg.tab.scope⟩,copyOp cg.tab⟩,hbody.keeps _ _ ?_,rfl⟩
      simp [onTables,openBlock_closures,emitWide_tab]
    · refine hbody.complete _ hmid b ?_
      simpa [onTables,openBlock_scope,emitWide_tab] using hb

theorem Logs.unlessError (h : Logs e r) :
    Logs (fun cg => if cg.tab.error.isSome then cg else e cg) r := by
  have hrun : ∀ cg : Codegen σ,(if cg.tab.error.isSome then cg else e cg).Ok →
      (if cg.tab.error.isSome then cg else e cg) = e cg := by
    intro cg hok
    cases herr : cg.tab.error with
    | none => rfl
    | some msg => simp [Codegen.Ok,herr] at hok
  refine ⟨?_,?_,?_,?_,?_,?_⟩
  · intro cg
    split
    · rfl
    · exact h.tempNames_eq cg
  · intro cg
    split
    · rfl
    · exact h.needsContext_eq cg
  · intro cg hok
    exact h.ok_before cg (hrun cg hok ▸ hok)
  · intro cg s hs
    split
    · exact hs
    · exact h.keeps cg s hs
  · intro cg s hs
    split at hs
    · exact .inl hs
    · exact h.sound cg s hs
  · intro cg hok
    rw [hrun cg hok]
    exact h.complete cg (hrun cg hok ▸ hok)

theorem Logs.value {e : Emit σ} {r : List String → List BlockSite} (h : Logs e r) (v : Bool) :
    Logs (emitValue e v) (fun scope => if v then r scope else []) := by
  cases v
  · exact Logs.nothing
  · exact h

/-! ## Inlined forms -/

section

variable {receiver : Emitter σ} {rs : List String → List BlockSite}

variable {bs : Bool → List String → List BlockSite} {f : Bool → Emit σ}

theorem Logs.inlinedIf (o : Opcode) (hr : Logs (receiver.node true) rs)
    (hb : ∀ v,Logs (f v) (bs v)) (v : Bool) :
    Logs (emitInlinedIf o receiver f v) (fun scope => rs scope ++ bs v scope) := by
  cases v with
  | true =>
    exact (hr.andThen (Logs.branch o (hb true) (Logs.op .pushNil))).congr (by simp)
  | false => exact hr.andThen (Logs.skip o (hb false))

theorem Logs.inlinedLoop (o : Opcode) {g : Emit σ} {cs : Bool → List String → List BlockSite}
    {bs : List String → List BlockSite} (hc : ∀ v,Logs (f v) (cs v)) (hb : Logs g bs) (v : Bool) :
    Logs (emitInlinedLoop o f g v) (fun scope => cs true scope ++ bs scope) :=
  ((Logs.loop o (hc true) hb).andThen (Logs.when v .pushNil)).congr (by simp)

theorem Logs.inlinedLogic (o push : Opcode) (hr : Logs (receiver.node true) rs)
    (hb : ∀ v,Logs (f v) (bs v)) (v : Bool) :
    Logs (emitInlinedLogic o push receiver f v) (fun scope => rs scope ++ bs true scope) := by
  have h := (hr.andThen (Logs.branch o (hb true) (Logs.op push))).andThen (Logs.when (!v) .pop)
  exact h.congr (by simp)

theorem Logs.timesRepeatLoop (env : CodegenEnv σ) (countIdx iIdx : Nat)
    (hb : ∀ v,Logs (f v) (bs v)) (v : Bool) :
    Logs (emitTimesRepeatLoop env countIdx iIdx f v) (bs false) := by
  have hstart := ((Logs.wide (σ := σ) .popStoreTemp countIdx).andThen (Logs.op .pushOne)).andThen
    (Logs.wide .popStoreTemp iIdx)
  have hcond := ((Logs.wide (σ := σ) .pushTemp iIdx).andThen (Logs.wide .pushTemp countIdx)).andThen
    (Logs.selector env (o := .send) rfl "<=")
  have hbody := ((((hb false).andThen (Logs.wide .pushTemp iIdx)).andThen
    (Logs.op .pushOne)).andThen (Logs.selector env (o := .send) rfl "+")).andThen
    (Logs.wide .popStoreTemp iIdx)
  have h := (hstart.andThen (Logs.loop .jumpFalse hcond hbody)).andThen (Logs.when v .pushNil)
  exact h.congr (by simp)

theorem Logs.hidden {e : Emit σ} {r : List String → List BlockSite} (h : Logs e r) (a b : String) :
    Logs (fun cg => onTables (fun t => cgRestoreTemps (t.tempNames.length - 2) t)
      (e (onTables (cgAddTemp ⟨b,true⟩) (onTables (cgAddTemp ⟨a,true⟩) cg)))) r := by
  have hscope : ∀ (name : String) (t : Tables σ),(cgAddTemp ⟨name,true⟩ t).scope = t.scope := by
    intro name t
    simp [Tables.scope,cgAddTemp]
  refine ⟨?_,?_,?_,?_,?_,?_⟩
  · intro cg
    simp [onTables,cgRestoreTemps,h.tempNames_eq,cgAddTemp]
  · intro cg
    simp [onTables,cgRestoreTemps,h.needsContext_eq,cgAddTemp]
  · intro cg hok
    have hb := h.ok_before _ hok
    exact ⟨hb.1,hb.2⟩
  · intro cg s hs
    exact h.keeps _ s hs
  · intro cg s hs
    have hx := h.sound _ s hs
    simp only [onTables,hscope] at hx
    exact hx
  · intro cg hok b hbs
    refine h.complete _ hok b ?_
    simpa [onTables,hscope] using hbs

theorem Logs.withTemps {e : Nat → Emit σ} {r : List String → List BlockSite}
    (h : ∀ k,Logs (e k) r) : Logs (fun cg => e cg.tab.tempNames.length cg) r where
  tempNames_eq cg := (h _).tempNames_eq cg
  needsContext_eq cg := (h _).needsContext_eq cg
  ok_before cg := (h _).ok_before cg
  keeps cg := (h _).keeps cg
  sound cg := (h _).sound cg
  complete cg := (h _).complete cg

theorem Logs.timesRepeatTail (env : CodegenEnv σ) (hb : ∀ v,Logs (f v) (bs v)) (v : Bool) (k : Nat) :
    Logs (emitTimesRepeatTail env f v k) (bs false) := by
  have hloop := Logs.timesRepeatLoop env (k % 65536) ((k + 1) % 65536) hb v
  exact hloop.hidden "__tr_count" "__tr_i"

theorem Logs.inlinedTimesRepeat (env : CodegenEnv σ) (hr : Logs (receiver.node true) rs)
    (hb : ∀ v,Logs (f v) (bs v)) (v : Bool) :
    Logs (emitInlinedTimesRepeat env receiver f v) (fun scope => rs scope ++ bs false scope) :=
  hr.andThen (Logs.withTemps (Logs.timesRepeatTail env hb v))

end

/-! ## Nodes -/

/-- A node's emitter records the closures the syntax tree shows. -/
structure NodeLogs (env : CodegenEnv σ) (n : Node) : Prop where
  node : ∀ v,Logs ((emitter env n).node v) (closureSites n v)
  body : ∀ f,(emitter env n).inlineBody = some f → ∀ v,Logs (f v) (bodySites n v)

theorem inlineBody_isSome (env : CodegenEnv σ) (n : Node) :
    (emitter env n).inlineBody.isSome = n.isBlock := by
  cases n <;> rfl

theorem inlineBody_of_isBlock (env : CodegenEnv σ) (h : n.isBlock = true) :
    ∃ f,(emitter env n).inlineBody = some f :=
  Option.isSome_iff_exists.mp ((inlineBody_isSome env n).trans h)

theorem isBlock_of_inlineBody {f : Bool → Emit σ} (h : (emitter env n).inlineBody = some f) :
    n.isBlock = true := by
  rw [← inlineBody_isSome env n,h]
  rfl

section

variable {env : CodegenEnv σ} {receiver : Node} {args : List Node} {sel : String} {e : Emit σ}
  {v : Bool}

theorem emitters_one {f : Bool → Emit σ}
    (h : (emitters env args).map Emitter.inlineBody = [some f]) :
    ∃ a,args = [a] ∧ (emitter env a).inlineBody = some f := by
  match args,h with
  | [a],h => exact ⟨a,rfl,by simpa [emitters] using h⟩
  | [],h => simp [emitters] at h
  | _ :: _ :: _,h => simp [emitters] at h

theorem emitters_two {f g : Bool → Emit σ}
    (h : (emitters env args).map Emitter.inlineBody = [some f,some g]) :
    ∃ a b,args = [a,b] ∧ (emitter env a).inlineBody = some f ∧
      (emitter env b).inlineBody = some g := by
  match args,h with
  | [a,b],h => exact ⟨a,b,rfl,by simpa [emitters] using h⟩
  | [],h | [_],h | _ :: _ :: _ :: _,h => simp [emitters] at h

section

variable (hr : NodeLogs env receiver) (ha : ∀ a ∈ args,NodeLogs env a)

include hr ha

theorem tryIf_logs
    (h : tryEmitInlinedIf sel (emitter env receiver) (emitters env args) v = some e) :
    Logs e (closureSites (.send receiver sel args) v) := by
  unfold tryEmitInlinedIf at h
  split at h
  · next f heq =>
    obtain ⟨a,rfl,hf⟩ := emitters_one heq
    have hblock := isBlock_of_inlineBody hf
    have hbody := (ha a mem_cons_self).body f hf
    split_ifs at h with h₁ h₂
    all_goals
      cases h
      subst sel
      refine (Logs.inlinedIf _ (hr.node true) hbody v).congr ?_
      simp [closureSites,inlinesReceiver,inlinesArgs,hblock,inlinedForValue,bodiesSites]
  · next f g heq =>
    obtain ⟨a,b,rfl,hf,hg⟩ := emitters_two heq
    have hblocks := And.intro (isBlock_of_inlineBody hf) (isBlock_of_inlineBody hg)
    have hbody := (ha a mem_cons_self).body f hf v
    have hbody' := (ha b (mem_cons_of_mem _ mem_cons_self)).body g hg v
    split_ifs at h with h₁ h₂
    · cases h
      subst sel
      refine ((hr.node true).andThen (Logs.branch _ hbody hbody')).congr ?_
      simp [closureSites,inlinesReceiver,inlinesArgs,hblocks,inlinedForValue,bodiesSites]
    · cases h
      subst sel
      refine ((hr.node true).andThen (Logs.branch _ hbody' hbody)).congr ?_
      simp [closureSites,inlinesReceiver,inlinesArgs,hblocks,inlinedForValue,bodiesSites,or_comm]
  · cases h

theorem tryLoop_logs
    (h : tryEmitInlinedLoop sel (emitter env receiver) (emitters env args) v = some e) :
    Logs e (closureSites (.send receiver sel args) v) := by
  unfold tryEmitInlinedLoop at h
  split at h
  · next cond f hcond heq =>
    obtain ⟨a,rfl,hf⟩ := emitters_one heq
    have hblocks := And.intro (isBlock_of_inlineBody hcond) (isBlock_of_inlineBody hf)
    have hbody := (ha a mem_cons_self).body f hf false
    split_ifs at h with h₁ h₂
    all_goals
      cases h
      subst sel
      refine (Logs.inlinedLoop _ (hr.body cond hcond) hbody v).congr ?_
      simp [closureSites,inlinesReceiver,inlinesArgs,hblocks,inlinedForValue,bodiesSites]
  · next cond hcond heq =>
    have hblock := isBlock_of_inlineBody hcond
    cases args with
    | cons a as => simp [emitters] at heq
    | nil =>
      split_ifs at h with h₁ h₂
      all_goals
        cases h
        subst sel
        refine (Logs.inlinedLoop _ (hr.body cond hcond) Logs.nothing v).congr ?_
        simp [closureSites,inlinesReceiver,inlinesArgs,hblock,argSites]
  · cases h

theorem tryLogic_logs
    (h : tryEmitInlinedLogic sel (emitter env receiver) (emitters env args) v = some e) :
    Logs e (closureSites (.send receiver sel args) v) := by
  unfold tryEmitInlinedLogic at h
  split at h
  · next f heq =>
    obtain ⟨a,rfl,hf⟩ := emitters_one heq
    have hblock := isBlock_of_inlineBody hf
    have hbody := (ha a mem_cons_self).body f hf
    split_ifs at h with h₁ h₂
    all_goals
      cases h
      subst sel
      refine (Logs.inlinedLogic _ _ (hr.node true) hbody v).congr ?_
      simp [closureSites,inlinesReceiver,inlinesArgs,hblock,inlinedForValue,bodiesSites]
  · cases h

theorem tryTimesRepeat_logs
    (h : tryEmitInlinedTimesRepeat env sel (emitter env receiver) (emitters env args) v = some e) :
    Logs e (closureSites (.send receiver sel args) v) := by
  unfold tryEmitInlinedTimesRepeat at h
  split at h
  · next f heq =>
    obtain ⟨a,rfl,hf⟩ := emitters_one heq
    have hblock := isBlock_of_inlineBody hf
    have hbody := (ha a mem_cons_self).body f hf
    split_ifs at h with h₁
    cases h
    subst sel
    refine (Logs.inlinedTimesRepeat env (hr.node true) hbody v).congr ?_
    simp [closureSites,inlinesReceiver,inlinesArgs,hblock,inlinedForValue,bodiesSites]
  · cases h

end

theorem ite_ite_none {α : Type} {p q : Prop} [Decidable p] [Decidable q] {a b : α} :
    (if p then some a else if q then some b else none) = none ↔ ¬p ∧ ¬q := by
  split_ifs <;> simp [*]

theorem not_inlined (hif : tryEmitInlinedIf sel (emitter env receiver) (emitters env args) v = none)
    (hloop : tryEmitInlinedLoop sel (emitter env receiver) (emitters env args) v = none)
    (hlogic : tryEmitInlinedLogic sel (emitter env receiver) (emitters env args) v = none)
    (htimes : tryEmitInlinedTimesRepeat env sel (emitter env receiver) (emitters env args) v = none) :
    inlinesReceiver sel receiver args = false ∧ inlinesArgs sel receiver args = false := by
  match args with
  | [] =>
    refine ⟨?_,rfl⟩
    cases hb : receiver.isBlock with
    | false => simp [inlinesReceiver,hb]
    | true =>
      obtain ⟨f,hf⟩ := inlineBody_of_isBlock env hb
      have hsel : sel ≠ "whileTrue" ∧ sel ≠ "whileFalse" := by
        simpa [tryEmitInlinedLoop,hf,emitters,ite_ite_none] using hloop
      simp [inlinesReceiver,hsel]
  | [a] =>
    cases ha : a.isBlock with
    | false => simp [inlinesReceiver,inlinesArgs,ha]
    | true =>
      obtain ⟨f,hf⟩ := inlineBody_of_isBlock env ha
      have h₁ : sel ≠ "ifTrue:" ∧ sel ≠ "ifFalse:" := by
        simpa [tryEmitInlinedIf,hf,emitters,ite_ite_none] using hif
      have h₂ : sel ≠ "and:" ∧ sel ≠ "or:" := by
        simpa [tryEmitInlinedLogic,hf,emitters,ite_ite_none] using hlogic
      have h₃ : sel ≠ "timesRepeat:" := by
        simpa [tryEmitInlinedTimesRepeat,hf,emitters] using htimes
      cases hb : receiver.isBlock with
      | false => simp [inlinesReceiver,inlinesArgs,hb,h₁,h₂,h₃]
      | true =>
        obtain ⟨g,hg⟩ := inlineBody_of_isBlock env hb
        have h₄ : sel ≠ "whileTrue:" ∧ sel ≠ "whileFalse:" := by
          simpa [tryEmitInlinedLoop,hf,hg,emitters,ite_ite_none] using hloop
        simp [inlinesReceiver,inlinesArgs,h₁,h₂,h₃,h₄]
  | [a,b] =>
    refine ⟨rfl,?_⟩
    cases ha : a.isBlock with
    | false => simp [inlinesArgs,ha]
    | true =>
      cases hb : b.isBlock with
      | false => simp [inlinesArgs,hb]
      | true =>
        obtain ⟨f,hf⟩ := inlineBody_of_isBlock env ha
        obtain ⟨g,hg⟩ := inlineBody_of_isBlock env hb
        have hsel : sel ≠ "ifTrue:ifFalse:" ∧ sel ≠ "ifFalse:ifTrue:" := by
          simpa [tryEmitInlinedIf,hf,hg,emitters,ite_ite_none] using hif
        simp [inlinesArgs,hsel]
  | _ :: _ :: _ :: _ => exact ⟨rfl,rfl⟩

theorem emitArgs_logs (ha : ∀ a ∈ args,NodeLogs env a) :
    Logs (emitArgs (emitters env args)) (argSites args) := by
  induction args with
  | nil => exact Logs.nothing
  | cons a as ih =>
    have has := ih fun b hb => ha b (mem_cons_of_mem _ hb)
    exact ((ha a mem_cons_self).node true).andThen has

theorem normalSend_logs {o : Opcode} (ho : o.isPlain = true) {f : Emit σ}
    {rs : List String → List BlockSite} (hr : Logs f rs) (ha : ∀ a ∈ args,NodeLogs env a) :
    Logs (emitNormalSend env o sel f (emitters env args) v)
      (fun scope => rs scope ++ argSites args scope) := by
  have h := ((hr.andThen (emitArgs_logs ha)).andThen (Logs.selector env ho sel)).andThen
    (Logs.when (!v) .pop)
  exact h.congr (by simp)

theorem send_logs (hr : NodeLogs env receiver) (ha : ∀ a ∈ args,NodeLogs env a) :
    Logs (emitSend env sel (emitter env receiver) (emitters env args) v)
      (closureSites (.send receiver sel args) v) := by
  unfold emitSend
  cases hif : tryEmitInlinedIf sel (emitter env receiver) (emitters env args) v with
  | some e => exact tryIf_logs hr ha hif
  | none =>
    cases hloop : tryEmitInlinedLoop sel (emitter env receiver) (emitters env args) v with
    | some e => exact tryLoop_logs hr ha hloop
    | none =>
      cases hlogic : tryEmitInlinedLogic sel (emitter env receiver) (emitters env args) v with
      | some e => exact tryLogic_logs hr ha hlogic
      | none =>
        cases htimes : tryEmitInlinedTimesRepeat env sel (emitter env receiver)
          (emitters env args) v with
        | some e => exact tryTimesRepeat_logs hr ha htimes
        | none =>
          obtain ⟨hrecv,hargs⟩ := not_inlined hif hloop hlogic htimes
          refine (normalSend_logs (o := .send) rfl (hr.node true) ha).congr ?_
          simp [closureSites,hrecv,hargs]

end

theorem cascadeMessages_logs (env : CodegenEnv σ) {messages : List (String × List Node)}
    (h : ∀ m ∈ messages,∀ a ∈ m.2,NodeLogs env a) :
    Logs (emitCascadeMessages env (emitMessages env messages)) (messageSites messages) := by
  induction messages with
  | nil => exact Logs.nothing
  | cons m ms ih =>
    obtain ⟨sel,args⟩ := m
    have hargs := emitArgs_logs (h (sel,args) mem_cons_self)
    have hsend := Logs.selector env (o := .send) rfl sel
    have hms := ih fun m hm => h m (mem_cons_of_mem _ hm)
    cases ms with
    | nil => exact (hargs.andThen hsend).congr (by simp [messageSites])
    | cons m' ms =>
      have hall := ((((Logs.op .dup).andThen hargs).andThen hsend).andThen (Logs.op .pop)).andThen hms
      exact hall.congr (by simp [messageSites])

theorem Logs.ifInBlock {f : Emit σ} (he : Logs e r) (hf : Logs f r) :
    Logs (fun cg => if 0 < cg.tab.blockDepth then e cg else f cg) r := by
  refine ⟨?_,?_,?_,?_,?_,?_⟩ <;> intro cg <;> by_cases hd : 0 < cg.tab.blockDepth <;>
    simp only [hd,if_true,if_false]
  · exact he.tempNames_eq cg
  · exact hf.tempNames_eq cg
  · exact he.needsContext_eq cg
  · exact hf.needsContext_eq cg
  · exact he.ok_before cg
  · exact hf.ok_before cg
  · exact he.keeps cg
  · exact hf.keeps cg
  · exact he.sound cg
  · exact hf.sound cg
  · exact he.complete cg
  · exact hf.complete cg

theorem return_logs {expr : Node} (h : NodeLogs env expr) :
    Logs (emitReturn expr (emitter env expr)) (closureSites expr true) := by
  have hvalue : ∀ o,Logs (fun cg => emitOp o ((emitter env expr).node true cg))
      (closureSites expr true) :=
    fun o => ((h.node true).andThen (Logs.op o)).congr (by simp)
  cases expr with
  | literalNil | literalBool b | self => exact (hvalue _).ifInBlock (Logs.op _)
  | _ => exact (hvalue _).ifInBlock (hvalue _)

theorem statement_logs {stmt : Node} {stmts : List Node} (h : NodeLogs env stmt) {f : Emit σ}
    {v : Bool} (hf : Logs f (statementSites stmts v)) :
    Logs (emitStatement stmt (emitter env stmt) stmts.isEmpty v f)
      (statementSites (stmt :: stmts) v) := by
  unfold emitStatement
  cases hlast : stmts.isEmpty with
  | true => exact (h.node _).congr (by simp [statementSites,hlast])
  | false =>
    cases hret : stmt.isReturn with
    | true => exact (h.node true).congr (by simp [statementSites,hlast,hret])
    | false =>
      cases hassign : stmt.isAssign with
      | true =>
        exact ((h.node false).andThen hf).congr (by simp [statementSites,hlast,hret,hassign])
      | false =>
        have hpop := ((h.node true).andThen (Logs.op .pop)).andThen hf
        exact hpop.congr (by simp [statementSites,hlast,hret,hassign])

theorem leaf_logs (h : Logs e (fun _ => [])) (hn : emitter env n = guarded (emitValue e) none)
    (hs : ∀ v,closureSites n v = fun _ => []) :
    NodeLogs env n where
  node v := by
    rw [hn,hs]
    exact (h.value v).unlessError.congr (by simp)
  body f hf := by
    rw [hn] at hf
    cases hf

theorem guarded_logs {e : Bool → Emit σ} (h : ∀ v,Logs (e v) (closureSites n v))
    (hn : emitter env n = guarded e none) :
    NodeLogs env n where
  node v := by
    rw [hn]
    exact (h v).unlessError
  body f hf := by
    rw [hn] at hf
    cases hf

theorem blockBodyInline_logs (temps : List String) {body : List Node}
    (h : ∀ v,Logs (emitStatements env body v) (statementSites body v)) (v : Bool) :
    Logs (emitBlockBodyInline temps body.isEmpty (emitStatements env body) v)
      (fun scope => statementSites body v (scope ++ temps)) := by
  unfold emitBlockBodyInline
  cases body with
  | nil => exact (Logs.when v .pushNil).congr (by simp [statementSites])
  | cons stmt stmts => exact (h v).scoped temps

theorem block_logs (args temps : List String) {body : List Node}
    (h : ∀ v,Logs (emitStatements env body v) (statementSites body v)) :
    NodeLogs env (.block args temps body) where
  node v := by
    have hblock := (Logs.block env args temps body (h true)).value v
    exact hblock.unlessError.congr (by cases v <;> simp [closureSites])
  body f hf v := by
    cases hf
    exact (blockBodyInline_logs temps h v).congr (by simp [bodySites])

theorem cgError_logs (msg : String) : Logs (onTables (cgError msg) : Emit σ) (fun _ => []) :=
  have hs := fun t : Tables σ => cgError_sameScope msg (SameScope.refl t)
  Logs.silent (fun _ h => absurd h.1 (cgError_keeps _ _)) (fun cg => (hs cg.tab).tempNames_eq)
    (fun cg => (hs cg.tab).needsContext_eq) (fun cg => (hs cg.tab).closures_eq)

mutual

theorem node_logs (env : CodegenEnv σ) : (n : Node) → NodeLogs env n
  | .self | .literalNil | .literalBool _ => leaf_logs (Logs.op _) rfl fun _ => rfl
  | .literalInt value =>
    leaf_logs (Logs.ref (literalIntRef_ok value) (literalIntRef_sameScope value)) rfl fun _ => rfl
  | .literalFloat => leaf_logs (cgError_logs _) rfl fun _ => rfl
  | .literalString text =>
    leaf_logs (Logs.ref (literalStringRef_ok env text) fun _ =>
      sameScope_orError _ ⟨rfl,rfl,rfl⟩ ⟨rfl,rfl,rfl⟩) rfl fun _ => rfl
  | .literalSymbol name =>
    leaf_logs (Logs.ref (literalSymbolRef_ok env name) fun _ =>
      sameScope_orError _ ⟨rfl,rfl,rfl⟩ ⟨rfl,rfl,rfl⟩) rfl fun _ => rfl
  | .literalChar _ =>
    leaf_logs (Logs.ref (literalRef_ok _) fun _ => ⟨rfl,rfl,rfl⟩) rfl fun _ => rfl
  | .literalArray elements =>
    leaf_logs (Logs.ref (literalArrayRef_ok env elements) fun _ =>
      sameScope_orError _ ⟨rfl,rfl,rfl⟩ ⟨rfl,rfl,rfl⟩) rfl fun _ => rfl
  | .var name =>
    leaf_logs (Logs.ref (variableRef_ok env name) (lookupRef_sameScope env name _ _ _ _)) rfl
      fun _ => rfl
  | .assign name value => guarded_logs (fun v => by
      have hstore : Logs (emitRef (assignmentRef env name v)) (fun _ => []) :=
        Logs.ref (assignmentRef_ok env name v) fun t => by
          cases v <;> exact lookupRef_sameScope env name _ _ _ _ t
      exact (((node_logs env value).node true).andThen hstore).congr (by simp [closureSites])) rfl
  | .send receiver sel args =>
    guarded_logs (fun _ => send_logs (node_logs env receiver) (nodes_logs env args)) rfl
  | .superSend receiver sel args => guarded_logs (fun _ =>
      (normalSend_logs rfl (Logs.op _) (nodes_logs env args)).congr (by simp [closureSites])) rfl
  | .cascade receiver messages => guarded_logs (fun v =>
      ((((node_logs env receiver).node true).andThen
        (cascadeMessages_logs env (messages_logs env messages))).andThen
        (Logs.when (!v) .pop)).congr (by simp [closureSites])) rfl
  | .ret expr => guarded_logs (fun _ => return_logs (node_logs env expr)) rfl
  | .block args temps body => block_logs args temps (statements_logs env body)
  | .method _ _ _ _ => guarded_logs (fun _ => cgError_logs _) rfl

theorem nodes_logs (env : CodegenEnv σ) : (ns : List Node) → ∀ a ∈ ns,NodeLogs env a
  | [] => by simp
  | n :: ns => forall_mem_cons.mpr ⟨node_logs env n,nodes_logs env ns⟩

theorem messages_logs (env : CodegenEnv σ) :
    (ms : List (String × List Node)) → ∀ m ∈ ms,∀ a ∈ m.2,NodeLogs env a
  | [] => by simp
  | (_,args) :: ms => forall_mem_cons.mpr ⟨nodes_logs env args,messages_logs env ms⟩

theorem statements_logs (env : CodegenEnv σ) : (stmts : List Node) → (v : Bool) →
    Logs (emitStatements env stmts v) (statementSites stmts v)
  | [],v => Logs.when v .pushNil
  | stmt :: stmts,v => statement_logs (node_logs env stmt) (statements_logs env stmts v)

end

theorem methodBody_logs (env : CodegenEnv σ) (body : List Node) :
    Logs (emitMethodBody env body) (statementSites body (!lastIsReturn body)) := by
  unfold emitMethodBody
  cases body with
  | nil => exact (Logs.op .returnSelf).congr (by simp [statementSites])
  | cons stmt stmts =>
    cases hret : lastIsReturn (stmt :: stmts) with
    | true => exact statements_logs env (stmt :: stmts) false
    | false =>
      have htail := ((Logs.op (σ := σ) .pop).andThen (Logs.op .returnSelf)).unlessError
      exact ((statements_logs env (stmt :: stmts) true).andThen htail).congr (by simp)

theorem cgInit_scope (env : CodegenEnv σ) (args temps : List String) (ca : CaptureAnalysis)
    (vm : σ) : (cgInit env args temps ca vm).tab.scope = args ++ temps :=
  (cgAddTemps_scope _ _).trans (by simp [Tables.scope])

theorem cgInit_needsContext (env : CodegenEnv σ) (args temps : List String)
    (ca : CaptureAnalysis) (vm : σ) :
    (cgInit env args temps ca vm).tab.needsContext = (ca.hasCaptures || ca.hasNlr) := by
  simp [cgInit,cgAddTemps_needsContext]

theorem cgInit_closures (env : CodegenEnv σ) (args temps : List String) (ca : CaptureAnalysis)
    (vm : σ) : (cgInit env args temps ca vm).tab.closures = [] := by
  simp [cgInit,cgAddTemps_closures]

theorem codegenRun_closures_sound (env : CodegenEnv σ) (args temps : List String)
    (body : List Node) (vm : σ) (s : ClosureSite)
    (h : s ∈ (codegenRun env args temps body vm).tab.closures) :
    s.toBlockSite ∈ methodSites args temps body ∧
      s.op = copyOp (cgInit env args temps (analyzeCaptures args temps body) vm).tab := by
  have hs := (methodBody_logs env body).sound _ s h
  rw [cgInit_closures,cgInit_scope] at hs
  rcases hs with hs | hs
  · cases hs
  · exact hs

theorem codegenRun_closures_complete (env : CodegenEnv σ) (args temps : List String)
    (body : List Node) (vm : σ) (hok : (codegenRun env args temps body vm).Ok) (b : BlockSite)
    (hb : b ∈ methodSites args temps body) :
    ∃ s ∈ (codegenRun env args temps body vm).tab.closures,s.toBlockSite = b := by
  refine (methodBody_logs env body).complete _ hok b ?_
  rw [cgInit_scope]
  exact hb

theorem codegenRun_needsContext (env : CodegenEnv σ) (args temps : List String)
    (body : List Node) (vm : σ) : (codegenRun env args temps body vm).tab.needsContext =
      ((analyzeCaptures args temps body).hasCaptures ||
        (analyzeCaptures args temps body).hasNlr) := by
  rw [codegenRun,(methodBody_logs env body).needsContext_eq,cgInit_needsContext]

end SmalltalkA
