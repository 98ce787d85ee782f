import TwigAlgebra.Attempt
import TwigAlgebra.Pattern.Prune
import TwigAlgebra.Plan.Basic

/-!
# Minimising scan patterns

Before a plan is resolved its patterns can be made smaller.  Where only named columns reach the
output, nodes stop storing data under tags that no variable is bound under.  And optional branches
that bind no variable and neither store nor require anything are removed.  Neither changes the
variables of a scan, so every width stays as it is; each scan is checked for that.

## Main definitions

* `Minimisation` — which of the two rules apply.
* `Savings` — what was saved.
* `Pattern.clearUnread`, `Pattern.pruneInert` — the rules.
* `Pattern.minimise`, `Plan.minimise`, `Query.minimise` — applying them.
-/

namespace TwigAlgebra

/-- Which rules apply. -/
structure Minimisation where
  /-- Patterns are minimised at all. -/
  enabled : Bool
  /-- Stored data that nobody reads is given up. -/
  minimizeStorage : Bool
  /-- Branches that contribute nothing are removed. -/
  pruneBranches : Bool
  deriving DecidableEq, Repr, Inhabited

/-- Every rule applies. -/
def Minimisation.all : Minimisation := ⟨true, true, true⟩

/-- What minimising saved. -/
structure Savings where
  /-- The scans visited. -/
  scansVisited : Nat
  /-- The nodes that no longer store anything. -/
  storageCleared : Nat
  /-- The nodes removed. -/
  nodesPruned : Nat
  deriving DecidableEq, Repr, Inhabited

namespace Savings

/-- Nothing is saved. -/
def zero : Savings := ⟨0, 0, 0⟩

/-- The sums of two savings. -/
def add (a b : Savings) : Savings :=
  ⟨a.scansVisited + b.scansVisited, a.storageCleared + b.storageCleared,
    a.nodesPruned + b.nodesPruned⟩

end Savings

namespace Pattern

/-! ### Unread data -/

/-- The tags of the nodes that bind variables. -/
def boundTags (p : Pattern) : Option (List String) :=
  p.nodesInOrder.map fun ns => (ns.filter fun n => !n.vars.isEmpty).map (·.tag)

/-- The number of nodes that store anything. -/
def storingCount (p : Pattern) : Option Nat :=
  p.nodesInOrder.map fun ns => ns.countP (·.stores.any)

/-- Clears what is stored under tags that bind no variable, and answers how many nodes stored
something before and do not now. -/
def clearUnread (p : Pattern) : Option (Nat × Pattern) := do
  let tags ← p.boundTags
  let before ← p.storingCount
  let q ← p.storeOnly p.root tags
  return (before - (← q.storingCount), q)

/-! ### Inert branches -/

/-- No node below `h` binds a variable. -/
def bindsNothing (p : Pattern) (h : Handle) : Option Bool := do
  return ((← (← p.bfs h).mapM p.node?).all fun n => n.vars.isEmpty)

/-- The subtree of `h` requires nothing, stores nothing and binds nothing. -/
def isInert (p : Pattern) (h : Handle) : Option Bool := do
  if ← p.requiresBelow h then return false
  if ← p.storesBelow h then return false
  p.bindsNothing h

/-- The children of `h` on optional edges to inert subtrees, each with `h`. -/
def inertChildren (p : Pattern) (h : Handle) : Option (List (Handle × Handle)) := do
  let n ← p.node? h
  let inert ← n.edges.filterM fun e => if e.optional then p.isInert e.child else some false
  return inert.map fun e => (h, e.child)

/-- The end of the chain that starts at `h`, if no node of it has two children outside of
`dropped`. -/
def chainEnd (p : Pattern) (dropped : List Handle) : Nat → Handle → Option (Option Handle)
  | 0, _ => none
  | fuel + 1, h => do
    let n ← p.node? h
    match n.children.filter fun c => !dropped.contains c with
    | [] => return some h
    | [c] => chainEnd p dropped fuel c
    | _ => return none

/-- Removes the edges whose parents are not themselves dropped. -/
def removeEdges (dropped : List Handle) : List (Handle × Handle) → Pattern → Option Pattern
  | [], p => some p
  | (parent, child) :: rest, p => do
    -- an edge from a parent that goes is out of reach anyway
    if dropped.contains parent then removeEdges dropped rest p
    else removeEdges dropped rest (← p.removeEdge parent child).2

/-- Removes the optional branches with inert subtrees, and answers how many nodes are gone.  When
what stays is a single chain, it is kept as the path to its end. -/
def pruneInert (p : Pattern) : Option (Nat × Pattern) := do
  let before ← p.count p.root
  let removable := (← (← p.preorder).mapM p.inertChildren).flatten
  if removable.isEmpty then return (0, p)
  let dropped := (← removable.mapM fun r => p.bfs r.2).flatten
  let q ← match ← p.chainEnd dropped p.size p.root with
    -- the path is found by the code of its end, so that it ends at the first node with that code
    | some h => do pure (← p.pruneTo (← p.node? h).code).2
    | none => removeEdges dropped removable p
  return (before - (← q.count q.root), q)

/-! ### Both rules -/

/-- The variables whose nodes store what they carry. -/
def storedVars (p : Pattern) : Option (List Var) :=
  p.nodesInOrder.map fun ns => ns.flatMap fun n =>
    (n.vars.filter fun v => n.stores.covers v.kind).map (·.id)

/-- Refuses a minimised pattern `q` that binds fewer variables than `p`, or stores fewer of
them. -/
def checkKept (p q : Pattern) : Option (Except PlanError Unit) := do
  let before := (← p.boundVars).length
  let after := (← q.boundVars).length
  -- variables that are gone are reported before those that are no longer stored
  if before ≠ after then
    return .error (.malformed (← q.node? q.root).code (.droppedVariables (before - after)))
  let stored ← q.storedVars
  match (← p.storedVars).find? fun v => !stored.contains v with
  | none => return .ok ()
  | some v =>
    let h := (← q.variableNode v).getD q.root
    return .error (.malformed (← q.node? h).code (.unstoredVariable v))

/-- Applies the rules to a pattern; `unread` says that data which no variable carries is never
read. -/
def minimise (m : Minimisation) (unread : Bool) (p : Pattern) :
    Option (Pattern × Savings × Except PlanError Unit) := do
  let (cleared, q) ← if m.minimizeStorage && unread then p.clearUnread else some (0, p)
  let (pruned, q) ← if m.pruneBranches then q.pruneInert else some (0, q)
  -- the comparison is with the pattern as it was before both rules
  return (q, ⟨1, cleared, pruned⟩, ← p.checkKept q)

end Pattern

/-- Minimises the pattern of a scan. -/
def Scan.minimise (m : Minimisation) (unread : Bool) (s : Scan) : Attempt (Scan × Savings) :=
  match s.pattern with
  | none => .done (s, ⟨1, 0, 0⟩)
  | some p =>
    match p.minimise m unread with
    | none => .stopped (s, .zero) .lostHandle
    | some (q, saved, kept) =>
      .replacing ({ s with pattern := some q }, saved)
        (kept.map fun _ => ({ s with pattern := some q }, saved))

namespace Plan

/-- Minimises the patterns of a plan, scan after scan. -/
def minimise (m : Minimisation) (unread : Bool) : Plan → Attempt (Plan × Savings)
  | scan s d => (s.minimise m unread).map fun r => (scan r.1 d, r.2)
  | unary op input d => (input.minimise m unread).map fun r => (unary op r.1 d, r.2)
  | binary op left right d =>
    let l := left.minimise m unread
    match l.failure with
    -- what was saved on the left counts, although the right is not visited
    | some e => .stopped (binary op l.value.1 right d, l.value.2) e
    | none =>
      (right.minimise m unread).map fun r => (binary op l.value.1 r.1 d, l.value.2.add r.2)

/-- The top operator passes on only the columns that it names. -/
def namesOutput : Plan → Bool
  | unary (.project _) _ _ => true
  | unary (.construct _) _ _ => true
  | _ => false

end Plan

/-- Minimises the patterns of a plan that is not resolved yet. -/
def Query.minimise (m : Minimisation) (q : Query) : Attempt (Query × Savings) :=
  match q.stage with
  | .resolved => .stopped (q, .zero) .alreadyResolved
  | .symbolic =>
    if m.enabled then
      (q.root.minimise m q.root.namesOutput).map fun r => ({ q with root := r.1 }, r.2)
    else .done (q, .zero)

end TwigAlgebra
