import TwigAlgebra.Error
import TwigAlgebra.Pattern.Basic

/-!
# Checking patterns

A pattern from outside may have edges to missing slots, shared nodes, cycles, wrong parent links,
repeated codes or variables that record another node.  The check descends from the root and
refuses the first fault it meets; what it accepts is a tree that every walk can follow.

No slot is entered twice, so the check takes at most one step per edge of the arena and one for
the root.

## Main definitions

* `Pattern.validate` — the check.
-/

namespace TwigAlgebra.Pattern

/-- What the check has seen so far. -/
structure Seen where
  /-- The slots entered. -/
  slots : List Handle
  /-- The codes met. -/
  codes : List Code
  deriving Repr, Inhabited

/-- Nothing is seen yet. -/
def Seen.nothing : Seen := ⟨[], []⟩

/-- The node that owns up for a missing slot: the one whose edge led there, else the first of the
arena. -/
def ownerCode (p : Pattern) (parent : Option Handle) : Code :=
  match parent.bind p.node? with
  | some n => n.code
  | none => ((p.node? 0).map (·.code)).getD ⟨0⟩

/-- The first variable of a node that records another node. -/
def strayVariable (n : Node) : Option Variable := n.vars.find? fun v => v.node ≠ some n.code

/-- Checks one slot, reached from `parent`, and answers its node and what is seen then. -/
def checkSlot (p : Pattern) (h : Handle) (parent : Option Handle) (seen : Seen) :
    Except PlanError (Node × Seen) :=
  match p.node? h with
  | none => .error (.malformed (p.ownerCode parent) (.missingSlot h))
  | some n =>
    -- a slot that is met again is not reported for its code, although that is met again, too
    if h ∈ seen.slots then .error (.malformed n.code .twoParents)
    else if n.code ∈ seen.codes then .error (.malformed n.code .duplicateCode)
    else if n.parent ≠ parent then .error (.malformed n.code .parentMismatch)
    else match strayVariable n with
      | some v => .error (.malformed n.code (.strayVariable v.name))
      | none => .ok (n, ⟨h :: seen.slots, n.code :: seen.codes⟩)

/-- Checks the slots on a stack, each with the parent it was reached from; the last child of a node
comes first. -/
def checkAll (p : Pattern) : Nat → List (Handle × Option Handle) → Seen → Except PlanError Unit
  | _, [], _ => .ok ()
  -- not reached from the root, as there is a step for every edge
  | 0, _ :: _, _ => .ok ()
  | steps + 1, (h, parent) :: stack, seen => do
    let (n, seen) ← p.checkSlot h parent seen
    checkAll p steps ((n.children.map fun c => (c, some h)).reverse ++ stack) seen

/-- The number of edges in the arena. -/
def edgeCount (p : Pattern) : Nat := p.nodes.foldl (fun total n => total + n.edges.length) 0

/-- Accepts a pattern whose reachable slots exist and form a tree, where each parent link is the
owner of the edge, codes are distinct, and variables record their node. -/
def validate (p : Pattern) : Except PlanError Unit :=
  p.checkAll (p.edgeCount + 1) [(p.root, none)] .nothing

end TwigAlgebra.Pattern
