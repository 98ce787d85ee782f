import TwigAlgebra.Pattern.Validate
import TwigAlgebra.Plan.Basic

/-!
# Checking plans

A plan is sound when its scans have different numbers, its patterns are sound trees without a
common node code, and every variable is bound once, be it by a pattern or as the result of an
aggregation.  The check visits the operators in post-order and refuses the first fault it meets.

## Main definitions

* `Plan.validate` — the check.
* `Plan.codesBelow` — that every code in a plan lies below a counter.
-/

namespace TwigAlgebra

/-- What the check of a plan has met so far. -/
structure Bound where
  /-- The node codes. -/
  codes : List Code
  /-- The variables. -/
  vars : List Var
  /-- The scans. -/
  scans : List ScanId
  deriving Repr, Inhabited

namespace Bound

/-- Nothing is met yet. -/
def nothing : Bound := ⟨[], [], []⟩

/-- Meets the variables bound to the node with the code. -/
def addVars (code : Code) : List Variable → Bound → Except PlanError Bound
  | [], b => .ok b
  | v :: vs, b =>
    if v.id ∈ b.vars then .error (.malformed code (.boundTwice v.name))
    else addVars code vs { b with vars := v.id :: b.vars }

/-- Meets the nodes of the pattern with the name. -/
def addNodes (pattern : String) : List Node → Bound → Except PlanError Bound
  | [], b => .ok b
  | n :: ns, b => do
    if n.code ∈ b.codes then throw (.malformed n.code (.codeReused pattern))
    let b ← addVars n.code n.vars { b with codes := n.code :: b.codes }
    addNodes pattern ns b

/-- Meets a scan and its pattern. -/
def addScan (s : Scan) (b : Bound) : Except PlanError Bound := do
  if s.id ∈ b.scans then throw (.unsupported s.name (.scanTwice s.id))
  let b := { b with scans := s.id :: b.scans }
  match s.pattern with
  | none => return b
  | some p =>
    p.validate
    match p.nodesInOrder with
    | none => throw .lostHandle
    | some ns => addNodes p.name ns b

/-- Meets an operator, without its inputs. -/
def addOperator (b : Bound) : Plan → Except PlanError Bound
  | .scan s _ => addScan s b
  | .unary (.aggregate a) _ _ =>
    if a.result ∈ b.vars then
      .error (.unsupported (Unary.aggregate a).name (.variableTaken a.result))
    else .ok { b with vars := a.result :: b.vars }
  | _ => .ok b

end Bound

namespace Plan

/-- Accepts a plan whose scans, node codes and variables are each used once and whose patterns are
sound. -/
def validate (p : Plan) : Except PlanError Unit := do
  let _ ← p.postorder.foldlM Bound.addOperator Bound.nothing

/-- Accepts a scan whose pattern has codes below `next` only. -/
def scanBelow (next : Code) (s : Scan) : Except PlanError Unit :=
  match s.pattern with
  | none => .ok ()
  | some p =>
    match p.codes with
    | none => .error .lostHandle
    | some codes =>
      match codes.find? fun c => next.val ≤ c.val with
      | none => .ok ()
      | some c => .error (.malformed c (.codeNotBelow next))

/-- Accepts a plan whose patterns have codes below `next` only, so that codes handed out later are
new. -/
def codesBelow (next : Code) (p : Plan) : Except PlanError Unit := p.scans.forM (scanBelow next)

end Plan

end TwigAlgebra
