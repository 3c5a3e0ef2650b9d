import SmalltalkA.Compiler.Closures

/-! Capture analysis against code generation. The analysis takes every block beside an inlinable
selector for inlined; the generator inlines only some. -/

set_option autoImplicit false

namespace SmalltalkA

open List

variable {σ : Type}

/-! ## Which closures need a context -/

mutual

def freeNames : Node → List String
  | .var name => [name]
  | .assign name value => name :: freeNames value
  | .ret expr => freeNames expr
  | .send receiver _ args => freeNames receiver ++ freeNamesAll args
  | .superSend receiver _ args => freeNames receiver ++ freeNamesAll args
  | .cascade receiver messages => freeNames receiver ++ freeNamesMessages messages
  | .block args temps body => (freeNamesAll body).filter fun x => !(args ++ temps).contains x
  | _ => []

def freeNamesAll : List Node → List String
  | [] => []
  | n :: ns => freeNames n ++ freeNamesAll ns

def freeNamesMessages : List (String × List Node) → List String
  | [] => []
  | (_,args) :: messages => freeNamesAll args ++ freeNamesMessages messages

end

mutual

def containsReturn : Node → Bool
  | .ret _ => true
  | .assign _ value => containsReturn value
  | .send receiver _ args => containsReturn receiver || anyReturn args
  | .superSend receiver _ args => containsReturn receiver || anyReturn args
  | .cascade receiver messages => containsReturn receiver || anyReturnMessages messages
  | .block _ _ body => anyReturn body
  | _ => false

def anyReturn : List Node → Bool
  | [] => false
  | n :: ns => containsReturn n || anyReturn ns

def anyReturnMessages : List (String × List Node) → Bool
  | [] => false
  | (_,args) :: messages => anyReturn args || anyReturnMessages messages

end

/-- The block refers to a variable declared outside it, or contains a `^`. -/
def BlockSite.NeedsContext (b : BlockSite) : Prop :=
  (∃ x ∈ freeNames (.block b.args b.temps b.body),x ∈ b.scope) ∨ anyReturn b.body = true

instance (b : BlockSite) : Decidable b.NeedsContext := by
  unfold BlockSite.NeedsContext
  infer_instance

/-- Whenever `emit_block` runs on a block that needs a context, the method is compiled with a
context and the block with `OP_CLOSURE_COPY`. -/
def CapturesSeen (env : CodegenEnv σ) (args temps : List String) (body : List Node) (vm : σ) :
    Prop :=
  ∀ s ∈ (codegenRun env args temps body vm).tab.closures,s.NeedsContext →
    ((analyzeCaptures args temps body).hasCaptures = true ∨
      (analyzeCaptures args temps body).hasNlr = true) ∧
    s.op = .closureCopy ∧
    ∀ sel oop m vm',staCodegen env (.method sel args temps body) vm = .ok (oop,m,vm') →
      methodLargeFrame m.header = true

/-! ## What the analysis sees -/

/-- `Occurs inlined n path m`: `m` occurs in `n`, and `path` lists the variables of the blocks
around it that the analysis takes for closures, outermost first: all but receiver and arguments of
an inlinable send. -/
inductive Occurs : Bool → Node → List (List String) → Node → Prop where
  | here (b : Bool) (n : Node) : Occurs b n [] n
  | assign {b name value path m} : Occurs false value path m →
      Occurs b (.assign name value) path m
  | ret {b expr path m} : Occurs false expr path m → Occurs b (.ret expr) path m
  | receiver {b receiver sel args path m} :
      Occurs (isInlinableSelector sel) receiver path m → Occurs b (.send receiver sel args) path m
  | arg {b receiver sel args a path m} : a ∈ args →
      Occurs (isInlinableSelector sel) a path m → Occurs b (.send receiver sel args) path m
  | superReceiver {b receiver sel args path m} : Occurs false receiver path m →
      Occurs b (.superSend receiver sel args) path m
  | superArg {b receiver sel args a path m} : a ∈ args → Occurs false a path m →
      Occurs b (.superSend receiver sel args) path m
  | cascadeReceiver {b receiver messages path m} : Occurs false receiver path m →
      Occurs b (.cascade receiver messages) path m
  | cascadeArg {b receiver messages message a path m} : message ∈ messages → a ∈ message.2 →
      Occurs false a path m → Occurs b (.cascade receiver messages) path m
  | inlined {args temps body stmt path m} : stmt ∈ body → Occurs false stmt path m →
      Occurs true (.block args temps body) path m
  | block {args temps body stmt path m} : stmt ∈ body → Occurs false stmt path m →
      Occurs false (.block args temps body) ((args ++ temps) :: path) m

def Node.refersTo : Node → Option String
  | .var name => some name
  | .assign name _ => some name
  | _ => none

/-- In a block that the analysis takes for a closure there is a `^`, a method variable, or a
variable of another such block around it. -/
def Visible (args temps : List String) (body : List Node) : Prop :=
  ∃ stmt ∈ body,∃ path m,Occurs false stmt path m ∧ path ≠ [] ∧
    (m.isReturn = true ∨ ∃ x,m.refersTo = some x ∧
      (x ∈ args ++ temps ∨ ∃ names ∈ path.dropLast,x ∈ names))

def CaptureAnalysis.flagged (ca : CaptureAnalysis) : Bool := ca.hasCaptures || ca.hasNlr

def hit (methodTemps : List String) (depth : Nat) (scope : List (String × Nat)) (m : Node) :
    Bool :=
  match m.refersTo with
  | some name => decide (0 < depth) &&
      (isMethodTemp methodTemps name || isEnclosingBlockVar scope name depth)
  | none => m.isReturn && decide (0 < depth)

def scopeBelow : Nat → List (String × Nat) → List (List String) → List (String × Nat)
  | _,scope,[] => scope
  | depth,scope,names :: path =>
    scopeBelow (depth + 1) (scope ++ names.map fun name => (name,depth + 1)) path

def HitIn (methodTemps : List String) (b : Bool) (n : Node) (depth : Nat)
    (scope : List (String × Nat)) : Prop :=
  ∃ path m,Occurs b n path m ∧
    hit methodTemps (depth + path.length) (scopeBelow depth scope path) m = true

def HitInAny (methodTemps : List String) (b : Bool) (ns : List Node) (depth : Nat)
    (scope : List (String × Nat)) : Prop :=
  ∃ n ∈ ns,HitIn methodTemps b n depth scope

section

variable {mt : List String} {b : Bool} {depth : Nat} {scope : List (String × Nat)}

theorem hitIn_leaf {n : Node} (hleaf : ∀ path m,Occurs b n path m → path = [] ∧ m = n) :
    HitIn mt b n depth scope ↔ hit mt depth scope n = true := by
  constructor
  · rintro ⟨path,m,ho,hh⟩
    obtain ⟨rfl,rfl⟩ := hleaf path m ho
    exact hh
  · exact fun h => ⟨[],n,.here b n,h⟩

theorem hitIn_assign {name : String} {value : Node} : HitIn mt b (.assign name value) depth scope ↔
      hit mt depth scope (.var name) = true ∨ HitIn mt false value depth scope := by
  constructor
  · rintro ⟨path,m,ho,hh⟩
    cases ho with
    | here => exact .inl hh
    | assign ho => exact .inr ⟨path,m,ho,hh⟩
  · rintro (h | ⟨path,m,ho,hh⟩)
    · exact ⟨[],_,.here b _,h⟩
    · exact ⟨path,m,.assign ho,hh⟩

theorem hitIn_ret {expr : Node} :
    HitIn mt b (.ret expr) depth scope ↔ 0 < depth ∨ HitIn mt false expr depth scope := by
  constructor
  · rintro ⟨path,m,ho,hh⟩
    cases ho with
    | here => exact .inl (by simpa [hit,Node.refersTo,Node.isReturn] using hh)
    | ret ho => exact .inr ⟨path,m,ho,hh⟩
  · rintro (h | ⟨path,m,ho,hh⟩)
    · exact ⟨[],_,.here b _,by simpa [hit,Node.refersTo,Node.isReturn] using h⟩
    · exact ⟨path,m,.ret ho,hh⟩

variable {receiver : Node}

theorem hitIn_send {sel : String} {args : List Node} :
    HitIn mt b (.send receiver sel args) depth scope ↔
      HitIn mt (isInlinableSelector sel) receiver depth scope ∨
        HitInAny mt (isInlinableSelector sel) args depth scope := by
  constructor
  · rintro ⟨path,m,ho,hh⟩
    cases ho with
    | here => simp [hit,Node.refersTo,Node.isReturn] at hh
    | receiver ho => exact .inl ⟨path,m,ho,hh⟩
    | arg ha ho => exact .inr ⟨_,ha,path,m,ho,hh⟩
  · rintro (⟨path,m,ho,hh⟩ | ⟨a,ha,path,m,ho,hh⟩)
    · exact ⟨path,m,.receiver ho,hh⟩
    · exact ⟨path,m,.arg ha ho,hh⟩

theorem hitIn_superSend {sel : String} {args : List Node} :
    HitIn mt b (.superSend receiver sel args) depth scope ↔
      HitIn mt false receiver depth scope ∨ HitInAny mt false args depth scope := by
  constructor
  · rintro ⟨path,m,ho,hh⟩
    cases ho with
    | here => simp [hit,Node.refersTo,Node.isReturn] at hh
    | superReceiver ho => exact .inl ⟨path,m,ho,hh⟩
    | superArg ha ho => exact .inr ⟨_,ha,path,m,ho,hh⟩
  · rintro (⟨path,m,ho,hh⟩ | ⟨a,ha,path,m,ho,hh⟩)
    · exact ⟨path,m,.superReceiver ho,hh⟩
    · exact ⟨path,m,.superArg ha ho,hh⟩

theorem hitIn_cascade {messages : List (String × List Node)} :
    HitIn mt b (.cascade receiver messages) depth scope ↔ HitIn mt false receiver depth scope ∨
        ∃ message ∈ messages,HitInAny mt false message.2 depth scope := by
  constructor
  · rintro ⟨path,m,ho,hh⟩
    cases ho with
    | here => simp [hit,Node.refersTo,Node.isReturn] at hh
    | cascadeReceiver ho => exact .inl ⟨path,m,ho,hh⟩
    | cascadeArg hm ha ho => exact .inr ⟨_,hm,_,ha,path,m,ho,hh⟩
  · rintro (⟨path,m,ho,hh⟩ | ⟨message,hm,a,ha,path,m,ho,hh⟩)
    · exact ⟨path,m,.cascadeReceiver ho,hh⟩
    · exact ⟨path,m,.cascadeArg hm ha ho,hh⟩

theorem hitIn_inlined {args temps : List String} {body : List Node} :
    HitIn mt true (.block args temps body) depth scope ↔ HitInAny mt false body depth scope := by
  constructor
  · rintro ⟨path,m,ho,hh⟩
    cases ho with
    | here => simp [hit,Node.refersTo,Node.isReturn] at hh
    | inlined hs ho => exact ⟨_,hs,path,m,ho,hh⟩
  · rintro ⟨stmt,hs,path,m,ho,hh⟩
    exact ⟨path,m,.inlined hs ho,hh⟩

theorem hitIn_block {args temps : List String} {body : List Node} :
    HitIn mt false (.block args temps body) depth scope ↔ HitInAny mt false body (depth + 1)
        (scope ++ (args ++ temps).map fun name => (name,depth + 1)) := by
  constructor
  · rintro ⟨path,m,ho,hh⟩
    cases ho with
    | here => simp [hit,Node.refersTo,Node.isReturn] at hh
    | block hs ho =>
      refine ⟨_,hs,_,m,ho,?_⟩
      rw [length_cons,Nat.add_comm _ 1,← Nat.add_assoc] at hh
      exact hh
  · rintro ⟨stmt,hs,path,m,ho,hh⟩
    refine ⟨(args ++ temps) :: path,m,.block hs ho,?_⟩
    rw [length_cons,Nat.add_comm _ 1,← Nat.add_assoc]
    exact hh

theorem ignored_flagged {n : Node} (ca : CaptureAnalysis)
    (hwalk : captureWalk mt n b depth scope ca = ca)
    (hn : n.refersTo = none ∧ n.isReturn = false)
    (hleaf : ∀ path m,Occurs b n path m → path = [] ∧ m = n) :
    (captureWalk mt n b depth scope ca).flagged = true ↔
      ca.flagged = true ∨ HitIn mt b n depth scope := by
  rw [hwalk,hitIn_leaf hleaf]
  simp [hit,hn]

theorem captureVariable_flagged (name : String) (ca : CaptureAnalysis) :
    (captureVariable mt name depth scope ca).flagged = true ↔
      ca.flagged = true ∨ hit mt depth scope (.var name) = true := by
  simp only [captureVariable,CaptureAnalysis.flagged,hit,Node.refersTo,Bool.or_eq_true]
  exact or_right_comm

end

mutual

theorem captureWalk_flagged (mt : List String) :
    (n : Node) → (b : Bool) → (depth : Nat) → (scope : List (String × Nat)) →
      (ca : CaptureAnalysis) →
      ((captureWalk mt n b depth scope ca).flagged = true ↔
        ca.flagged = true ∨ HitIn mt b n depth scope)
  | .var name,b,depth,scope,ca => by
    rw [captureWalk,captureVariable_flagged,hitIn_leaf]
    rintro path m ho
    cases ho
    exact ⟨rfl,rfl⟩
  | .assign name value,b,depth,scope,ca => by
    rw [captureWalk,captureWalk_flagged mt value,captureVariable_flagged,hitIn_assign,or_assoc]
  | .ret expr,b,depth,scope,ca => by
    rw [captureWalk,captureWalk_flagged mt expr,hitIn_ret,← or_assoc]
    simp only [CaptureAnalysis.flagged,Bool.or_eq_true,decide_eq_true_eq,or_assoc]
  | .send receiver sel args,b,depth,scope,ca => by
    rw [captureWalk,captureWalks_flagged mt args,captureWalk_flagged mt receiver,hitIn_send,
      or_assoc]
  | .superSend receiver sel args,b,depth,scope,ca => by
    rw [captureWalk,captureWalks_flagged mt args,captureWalk_flagged mt receiver,hitIn_superSend,
      or_assoc]
  | .cascade receiver messages,b,depth,scope,ca => by
    rw [captureWalk,captureWalkMessages_flagged mt messages,captureWalk_flagged mt receiver,
      hitIn_cascade,or_assoc]
  | .block args temps body,true,depth,scope,ca => by
    rw [captureWalk,if_pos rfl,captureWalks_flagged mt body,hitIn_inlined]
  | .block args temps body,false,depth,scope,ca => by
    rw [captureWalk,if_neg Bool.false_ne_true,captureWalks_flagged mt body,hitIn_block]
  | .self,_,_,_,ca | .literalNil,_,_,_,ca | .literalBool _,_,_,_,ca | .literalInt _,_,_,_,ca
  | .literalFloat,_,_,_,ca | .literalString _,_,_,_,ca | .literalSymbol _,_,_,_,ca
  | .literalChar _,_,_,_,ca | .literalArray _,_,_,_,ca | .method _ _ _ _,_,_,_,ca =>
    ignored_flagged ca rfl ⟨rfl,rfl⟩ fun _ _ ho => by cases ho; exact ⟨rfl,rfl⟩

theorem captureWalks_flagged (mt : List String) :
    (ns : List Node) → (b : Bool) → (depth : Nat) → (scope : List (String × Nat)) →
      (ca : CaptureAnalysis) →
      ((captureWalks mt ns b depth scope ca).flagged = true ↔
        ca.flagged = true ∨ HitInAny mt b ns depth scope)
  | [],b,depth,scope,ca => by simp [captureWalks,HitInAny]
  | n :: ns,b,depth,scope,ca => by
    rw [captureWalks,captureWalks_flagged mt ns,captureWalk_flagged mt n,or_assoc]
    simp [HitInAny]

theorem captureWalkMessages_flagged (mt : List String) :
    (ms : List (String × List Node)) → (depth : Nat) → (scope : List (String × Nat)) →
      (ca : CaptureAnalysis) →
      ((captureWalkMessages mt ms depth scope ca).flagged = true ↔
        ca.flagged = true ∨ ∃ message ∈ ms,HitInAny mt false message.2 depth scope)
  | [],depth,scope,ca => by simp [captureWalkMessages]
  | (_,args) :: ms,depth,scope,ca => by
    rw [captureWalkMessages,captureWalkMessages_flagged mt ms,captureWalks_flagged mt args,or_assoc]
    simp

end

variable {path : List (List String)}

theorem mem_scopeBelow {depth : Nat} {scope : List (String × Nat)} {x : String} {d : Nat} :
    (x,d) ∈ scopeBelow depth scope path ↔
      (x,d) ∈ scope ∨ ∃ i names,path[i]? = some names ∧ x ∈ names ∧ d = depth + 1 + i := by
  induction path generalizing depth scope with
  | nil => simp [scopeBelow]
  | cons ns path ih =>
    rw [scopeBelow,ih,mem_append,or_assoc]
    refine or_congr_right ?_
    constructor
    · rintro (h | ⟨i,names,hi,hx,rfl⟩)
      · obtain ⟨y,hy,he⟩ := List.mem_map.mp h
        cases he
        exact ⟨0,ns,rfl,hy,rfl⟩
      · exact ⟨i + 1,names,by simpa using hi,hx,by omega⟩
    · rintro ⟨i,names,hi,hx,rfl⟩
      cases i with
      | zero =>
        cases hi
        exact .inl (List.mem_map.mpr ⟨x,hx,rfl⟩)
      | succ i => exact .inr ⟨i,names,by simpa using hi,hx,by omega⟩

theorem isEnclosingBlockVar_path {x : String} :
    isEnclosingBlockVar (scopeBelow 0 [] path) x path.length = true ↔
      ∃ names ∈ path.dropLast,x ∈ names := by
  simp only [isEnclosingBlockVar,List.any_eq_true,Bool.and_eq_true,decide_eq_true_eq,
    beq_iff_eq,Prod.exists]
  constructor
  · rintro ⟨y,d,hmem,hlt,rfl⟩
    rcases mem_scopeBelow.mp hmem with h | ⟨i,names,hi,hx,rfl⟩
    · cases h
    · refine ⟨names,mem_iff_getElem?.mpr ⟨i,?_⟩,hx⟩
      rw [getElem?_dropLast,if_pos (by omega)]
      exact hi
  · rintro ⟨names,hn,hx⟩
    obtain ⟨i,hi⟩ := mem_iff_getElem?.mp hn
    rw [getElem?_dropLast] at hi
    split at hi
    · exact ⟨x,0 + 1 + i,mem_scopeBelow.mpr (.inr ⟨i,names,hi,hx,rfl⟩),by omega,rfl⟩
    · cases hi

theorem hit_top {mt : List String} {m : Node} :
    hit mt (0 + path.length) (scopeBelow 0 [] path) m = true ↔ path ≠ [] ∧
      (m.isReturn = true ∨ ∃ x,m.refersTo = some x ∧
        (x ∈ mt ∨ ∃ names ∈ path.dropLast,x ∈ names)) := by
  have hpos : 0 < path.length ↔ path ≠ [] := length_pos_iff
  have hret : ∀ x,m.refersTo = some x → m.isReturn = false := by
    intro x hx
    cases m <;> first | rfl | cases hx
  unfold hit
  rw [Nat.zero_add]
  cases hm : m.refersTo with
  | none => simp [hpos,and_comm]
  | some x =>
    simp [hret x hm,hpos,isMethodTemp,isEnclosingBlockVar_path]

theorem analyzeCaptures_flagged (args temps : List String) (body : List Node) :
    (analyzeCaptures args temps body).flagged = true ↔ Visible args temps body := by
  rw [analyzeCaptures,captureWalks_flagged]
  simp only [CaptureAnalysis.flagged,Bool.or_self,Bool.false_eq_true,false_or,HitInAny,HitIn,
    hit_top,Visible]

/-- Either no closure needs a context, or something the analysis looks at shows a capture or a
return. -/
def Covered (args temps : List String) (body : List Node) : Prop :=
  (∀ b ∈ methodSites args temps body,¬ b.NeedsContext) ∨ Visible args temps body

theorem capturesSeen_of_covered (env : CodegenEnv σ) {args temps : List String}
    {body : List Node} (vm : σ) (h : Covered args temps body) :
    CapturesSeen env args temps body vm := by
  intro s hs hneeds
  obtain ⟨hsite,hop⟩ := codegenRun_closures_sound env args temps body vm s hs
  rcases h with h | h
  · exact absurd hneeds (h _ hsite)
  · have hflag := (analyzeCaptures_flagged args temps body).mpr h
    have hctx := codegenRun_needsContext env args temps body vm
    refine ⟨by simpa [CaptureAnalysis.flagged] using hflag,?_,?_⟩
    · rw [hop,copyOp,cgInit_needsContext]
      exact if_pos hflag
    · intro sel oop m vm' hok
      rw [(staCodegen_ok hok).2.2,hctx]
      exact hflag

theorem covered_of_capturesSeen (env : CodegenEnv σ) {args temps : List String}
    {body : List Node} {vm : σ} (hok : (codegenRun env args temps body vm).Ok)
    (h : CapturesSeen env args temps body vm) : Covered args temps body := by
  by_cases hv : Visible args temps body
  · exact .inr hv
  · refine .inl fun b hb hneeds => hv ?_
    obtain ⟨s,hs,rfl⟩ := codegenRun_closures_complete env args temps body vm hok b hb
    have hflag := (h s hs hneeds).1
    rw [← analyzeCaptures_flagged]
    simpa [CaptureAnalysis.flagged] using hflag

/-- Covered methods are compiled right whatever happens, and for an accepted method nothing less
will do. -/
theorem codegen_captures_seen_iff (env : CodegenEnv σ) (sel : String) (args temps : List String)
    (body : List Node) (vm : σ) :
    (Covered args temps body → CapturesSeen env args temps body vm) ∧
    ((∃ r,staCodegen env (.method sel args temps body) vm = .ok r) →
      (CapturesSeen env args temps body vm ↔ Covered args temps body)) := by
  refine ⟨capturesSeen_of_covered env vm,?_⟩
  rintro ⟨⟨oop,m,vm'⟩,hok⟩
  exact ⟨covered_of_capturesSeen env (staCodegen_ok hok).1,capturesSeen_of_covered env vm⟩

/-- `t := 0. ^a whileTrue: [t := t + 1]`, whose receiver is no block literal. -/
def escapingLoop : List Node :=
  [.assign "t" (.literalInt 0),
    .ret (.send (.var "a") "whileTrue:"
      [.block [] [] [.assign "t" (.send (.var "t") "+" [.literalInt 1])]])]

/-- The block becomes a closure that assigns the method's `t`, and the analysis wants no context. -/
theorem codegen_capture_missed :
    (∃ r,staCodegen freshEnv (.method "foo:" ["a"] ["t"] escapingLoop) 0 = .ok r) ∧
      ¬ CapturesSeen freshEnv ["a"] ["t"] escapingLoop 0 := by
  refine ⟨⟨(64,⟨525315,[32,16,48,8],[13,0,19,1,7,0,96,0,7,1,14,0,32,1,16,1,
    48,0,32,2,48,0]⟩,4),by decide +kernel⟩,fun h => ?_⟩
  have hok : (codegenRun freshEnv ["a"] ["t"] escapingLoop 0).Ok :=
    ⟨by decide +kernel,by decide +kernel⟩
  rcases covered_of_capturesSeen freshEnv hok h with hnone | hvisible
  · exact absurd hnone (by decide +kernel)
  · have hflag := (analyzeCaptures_flagged _ _ _).mpr hvisible
    exact absurd hflag (by decide +kernel)

end SmalltalkA
