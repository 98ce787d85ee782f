import TwigAlgebra.Reference

/-!
# Plan errors

Editing, checking, minimising and resolving a plan fail for the causes listed here.  Each cause
has a kind, by which callers tell failures apart, and a message, which is written in one place.

## Main definitions

* `PatternFault` — what is wrong with a pattern.
* `PlanError` — every cause of failure.
* `PlanError.kind`, `PlanError.message` — the name of a cause's kind, and its wording.
-/

namespace TwigAlgebra

/-- What is wrong with a pattern, or with a pattern beside the others of its plan. -/
inductive PatternFault where
  /-- An edge, or the root, points at a slot that does not exist. -/
  | missingSlot (slot : Nat) : PatternFault
  /-- A node is reached along two edges. -/
  | twoParents : PatternFault
  /-- Two nodes of one pattern have the same code. -/
  | duplicateCode : PatternFault
  /-- A node's parent link is not the owner of the edge that reached it. -/
  | parentMismatch : PatternFault
  /-- A variable bound to the node records another node. -/
  | strayVariable (name : String) : PatternFault
  /-- A subtree to be copied hangs on no edge. -/
  | noIncomingEdge : PatternFault
  /-- A pattern uses a code that another pattern of the plan has. -/
  | codeReused (pattern : String) : PatternFault
  /-- A variable has two bindings in the plan. -/
  | boundTwice (name : String) : PatternFault
  /-- A code that the counter has still to hand out is already in use. -/
  | codeNotBelow (next : Code) : PatternFault
  /-- Minimisation lost variables. -/
  | droppedVariables (count : Nat) : PatternFault
  /-- Minimisation cleared the data of a bound variable. -/
  | unstoredVariable (var : Var) : PatternFault
  deriving DecidableEq, Repr, Inhabited

/-- The wording of a pattern fault. -/
def PatternFault.message : PatternFault → String
  | missingSlot slot => "handle " ++ toString slot ++ " is outside the pattern"
  | twoParents => "node reachable through two parents"
  | duplicateCode => "duplicate node code"
  | parentMismatch => "parent link does not match edge"
  | strayVariable name => "variable $" ++ name ++ " records a different node"
  | noIncomingEdge => "virtual copy source has no incoming edge"
  | codeReused pattern => "node code reused by pattern " ++ pattern
  | boundTwice name => "variable $" ++ name ++ " bound more than once"
  | codeNotBelow next => "code is not below the context counter " ++ next.text
  | droppedVariables count => "optimizer dropped " ++ toString count ++ " bound variables"
  | unstoredVariable var => "variable " ++ var.text ++ " is bound but no longer stored"

/-- Why an operator cannot stand where it does. -/
inductive Misuse where
  /-- Two scans of the plan have the same number. -/
  | scanTwice (scan : ScanId) : Misuse
  /-- The variable of an aggregation has another binding. -/
  | variableTaken (var : Var) : Misuse
  /-- A construction is an input of another operator. -/
  | constructionBelow : Misuse
  /-- The column to be unnested is a scalar. -/
  | scalarColumn (position : Nat) : Misuse
  /-- A path goes on below a scalar column. -/
  | scalarStep (depth position : Nat) : Misuse
  deriving DecidableEq, Repr, Inhabited

/-- The wording of a misuse. -/
def Misuse.message : Misuse → String
  | scanTwice scan => scan.text ++ " appears twice in the plan"
  | variableTaken var => "outer variable " ++ var.text ++ " is already bound"
  | constructionBelow => "construction must be the terminal operator"
  | scalarColumn position => "column " ++ toString position ++ " is not a nested column"
  | scalarStep depth position =>
    "path slot " ++ toString depth ++ " addresses scalar column " ++ toString position

/-- The causes of failure. -/
inductive PlanError where
  /-- The pattern around the node with this code is broken. -/
  | malformed (code : Code) (fault : PatternFault) : PlanError
  /-- No column of the input carries the key that `reader` refers to. -/
  | unbound (key : ColumnKey) (reader : String) : PlanError
  /-- The column that carries the key lies above the path level it is used at. -/
  | tooShallow (key : ColumnKey) (reader : String) (depth : Nat) : PlanError
  /-- The operator cannot stand here. -/
  | unsupported (operator : String) (misuse : Misuse) : PlanError
  /-- The operator has another width than it declares or folds. -/
  | widthMismatch (operator : String) (declared computed : Nat) : PlanError
  /-- A position lies outside the tuple it addresses. -/
  | outOfRange (operator : String) (column width : Nat) : PlanError
  /-- The plan's columns are positions already. -/
  | alreadyResolved : PlanError
  /-- The options cannot be read. -/
  | badOptions : PlanError
  /-- A walk followed a handle to a slot that does not exist. -/
  | lostHandle : PlanError
  deriving DecidableEq, Repr, Inhabited

namespace PlanError

/-- The name of a cause's kind. -/
def kind : PlanError → String
  | malformed .. => "MalformedPattern"
  | unbound .. => "UnboundVariable"
  | tooShallow .. => "UnboundVariable"
  | unsupported .. => "UnsupportedOperator"
  | widthMismatch .. => "WidthMismatch"
  | outOfRange .. => "ColumnOutOfRange"
  | alreadyResolved => "PlanAlreadyResolved"
  | badOptions => "Config"
  | lostHandle => "LostHandle"

/-- The wording of a reference that finds no column. -/
def unboundMessage (key : ColumnKey) (reader : String) : String :=
  "variable " ++ key.text ++ " referenced in " ++ reader ++ " is not bound below it"

/-- The wording of a cause. -/
def message : PlanError → String
  | malformed code fault => "malformed pattern at node " ++ code.text ++ ": " ++ fault.message
  | unbound key reader => unboundMessage key reader
  | tooShallow key reader depth =>
    unboundMessage key (reader ++ " (path depth " ++ toString depth ++ ")")
  | unsupported operator misuse =>
    "operator " ++ operator ++ " is not supported here: " ++ misuse.message
  | widthMismatch operator declared computed =>
    operator ++ " declares " ++ toString declared ++ " columns but produces " ++ toString computed
  | outOfRange operator column width =>
    operator ++ " resolves a column to " ++ toString column ++ ", outside its input width "
      ++ toString width
  | alreadyResolved => "plan columns are already resolved; rewrites are no longer allowed"
  | badOptions => "invalid compile options"
  | lostHandle => "a handle points outside its pattern"

end PlanError

end TwigAlgebra
