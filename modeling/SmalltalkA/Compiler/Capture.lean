import SmalltalkA.Compiler.Ast

/-! Capture analysis: the walk that decides beforehand whether a method needs a heap context. -/

set_option autoImplicit false

namespace SmalltalkA

structure CaptureAnalysis where
  hasCaptures : Bool
  hasNlr : Bool
  deriving DecidableEq,Repr

/-- `is_inlinable_send`, for a `NODE_SEND`: the selector alone decides. -/
def isInlinableSelector (sel : String) : Bool :=
  ["ifTrue:","ifFalse:","ifTrue:ifFalse:","ifFalse:ifTrue:","whileTrue:","whileFalse:",
    "whileTrue","whileFalse","and:","or:","timesRepeat:"].contains sel

def isMethodTemp (methodTemps : List String) (name : String) : Bool := methodTemps.contains name

/-- `is_enclosing_block_var`: a variable of a block at a smaller depth. -/
def isEnclosingBlockVar (scope : List (String × Nat)) (name : String) (depth : Nat) : Bool :=
  scope.any fun e => decide (e.2 < depth) && e.1 == name

def captureVariable (methodTemps : List String) (name : String) (depth : Nat)
    (scope : List (String × Nat)) (ca : CaptureAnalysis) : CaptureAnalysis :=
  let seen := decide (0 < depth) &&
    (isMethodTemp methodTemps name || isEnclosingBlockVar scope name depth)
  { ca with hasCaptures := ca.hasCaptures || seen }

mutual

/-- `capture_walk_with_parent`; `inlined` is what `is_inlined_block` answers for a block in this
position. -/
def captureWalk (methodTemps : List String) :
    Node → Bool → Nat → List (String × Nat) → CaptureAnalysis → CaptureAnalysis
  | .var name,_,depth,scope,ca => captureVariable methodTemps name depth scope ca
  | .assign name value,_,depth,scope,ca =>
    captureWalk methodTemps value false depth scope
      (captureVariable methodTemps name depth scope ca)
  | .ret expr,_,depth,scope,ca =>
    captureWalk methodTemps expr false depth scope
      { ca with hasNlr := ca.hasNlr || decide (0 < depth) }
  | .send receiver sel args,_,depth,scope,ca =>
    captureWalks methodTemps args (isInlinableSelector sel) depth scope
      (captureWalk methodTemps receiver (isInlinableSelector sel) depth scope ca)
  | .superSend receiver _ args,_,depth,scope,ca =>
    captureWalks methodTemps args false depth scope
      (captureWalk methodTemps receiver false depth scope ca)
  | .cascade receiver messages,_,depth,scope,ca =>
    captureWalkMessages methodTemps messages depth scope
      (captureWalk methodTemps receiver false depth scope ca)
  | .block args temps body,inlined,depth,scope,ca =>
    if inlined then captureWalks methodTemps body false depth scope ca
    else
      captureWalks methodTemps body false (depth + 1)
        (scope ++ (args ++ temps).map fun name => (name,depth + 1)) ca
  | _,_,_,_,ca => ca

def captureWalks (methodTemps : List String) :
    List Node → Bool → Nat → List (String × Nat) → CaptureAnalysis → CaptureAnalysis
  | [],_,_,_,ca => ca
  | n :: ns,inlined,depth,scope,ca =>
    captureWalks methodTemps ns inlined depth scope
      (captureWalk methodTemps n inlined depth scope ca)

def captureWalkMessages (methodTemps : List String) :
    List (String × List Node) → Nat → List (String × Nat) → CaptureAnalysis → CaptureAnalysis
  | [],_,_,ca => ca
  | (_,args) :: messages,depth,scope,ca =>
    captureWalkMessages methodTemps messages depth scope
      (captureWalks methodTemps args false depth scope ca)

end

def analyzeCaptures (args temps : List String) (body : List Node) : CaptureAnalysis :=
  captureWalks (args ++ temps) body false 0 [] ⟨false,false⟩

end SmalltalkA
