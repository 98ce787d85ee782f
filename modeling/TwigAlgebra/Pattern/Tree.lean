import TwigAlgebra.Error
import TwigAlgebra.Pattern.Walk

/-!
# Subtrees and copies

A subtree taken out of an arena is a tree of its own: a node and the branches below it, each with
the flags of its edge.  Copies of patterns are made by taking a subtree out and attaching it
branch by branch, in another arena or in the same one.

## Main definitions

* `Branches`, `Tree` — owned subtrees.
* `Pattern.extract`, `Branches.graft` — taking a subtree out, and attaching branches.
* `Pattern.copy`, `Pattern.copyReplacing` — compact copies of a pattern.
* `Pattern.copyChildren` — copying the branches below a node.
* `Pattern.copyVirtual` — copying a subtree as it is seen inside stored content.
-/

namespace TwigAlgebra

/-- The branches below a node, in child order. -/
inductive Branches where
  /-- No branch. -/
  | nil : Branches
  /-- A first branch: the flags of its edge, its top node, and what is below that; then the
  others. -/
  | cons (flags : EdgeFlags) (label : Node) (below rest : Branches) : Branches
  deriving DecidableEq, Repr, Inhabited

/-- A subtree: its top node and the branches below it. -/
structure Tree where
  /-- The top node. -/
  label : Node
  /-- The branches below it. -/
  below : Branches
  deriving DecidableEq, Repr, Inhabited

namespace Branches

/-- The number of nodes on the branches. -/
def size : Branches → Nat
  | nil => 0
  | cons _ _ below rest => 1 + below.size + rest.size

@[simp] theorem size_nil : nil.size = 0 := rfl

@[simp] theorem size_cons (flags : EdgeFlags) (n : Node) (below rest : Branches) :
    (cons flags n below rest).size = 1 + below.size + rest.size := rfl

/-- Attaches the branches under `target`, after its present children. -/
def graft : Branches → Handle → Pattern → Option Pattern
  | nil, _, p => some p
  | cons flags n below rest, target, p => do
    let (h, p) ← p.addChild target n flags
    let p ← below.graft h p
    rest.graft target p

/-- The branches as seen inside stored content.  Every node takes a fresh code, a node before the
nodes below it, and later siblings before earlier ones. -/
def asVirtual : Branches → Counters → Branches × Counters
  | nil, c => (nil, c)
  | cons flags n below rest, c =>
    let (rest, c) := rest.asVirtual c
    let (code, c) := c.freshCode
    let (below, c) := below.asVirtual c
    (cons flags (n.asVirtual code) below rest, c)

@[simp] theorem graft_nil (target : Handle) (p : Pattern) : nil.graft target p = some p := rfl

@[simp] theorem asVirtual_nil (c : Counters) : nil.asVirtual c = (nil, c) := rfl

theorem size_asVirtual (bs : Branches) (c : Counters) : (bs.asVirtual c).1.size = bs.size := by
  induction bs generalizing c with
  | nil => rfl
  | cons flags n below rest below_ih rest_ih => simp [asVirtual, below_ih, rest_ih]

end Branches

namespace Tree

/-- The number of nodes of the tree. -/
def size (t : Tree) : Nat := 1 + t.below.size

/-- The tree as seen inside stored content. -/
def asVirtual (t : Tree) (c : Counters) : Tree × Counters :=
  let (code, c) := c.freshCode
  let (below, c) := t.below.asVirtual c
  (⟨t.label.asVirtual code, below⟩, c)

/-- Attaches the tree under `target` as its last child and answers the new slot. -/
def graft (t : Tree) (target : Handle) (flags : EdgeFlags) (p : Pattern) :
    Option (Handle × Pattern) := do
  let (h, p) ← p.addChild target t.label flags
  return (h, ← t.below.graft h p)

/-- The pattern that consists of the tree. -/
def toPattern (t : Tree) (name : String) : Option Pattern :=
  let p := Pattern.singleton name t.label
  t.below.graft p.root p

end Tree

namespace Pattern

/-- The branches along a list of edges, given the tree below each child. -/
def gather (visit : Handle → Option Tree) : List Edge → Option Branches
  | [] => some .nil
  | e :: es => do
    let t ← visit e.child
    return .cons e.toEdgeFlags t.label t.below (← gather visit es)

/-- The subtree of `h`, not deeper than `fuel`; where `hole` answers a tree, that stands in for the
subtree there. -/
def extractWith (p : Pattern) (hole : Handle → Option (Option Tree)) : Nat → Handle → Option Tree
  | 0, _ => none
  | fuel + 1, h => do
    match ← hole h with
    | some t => return t
    | none =>
      let n ← p.node? h
      return ⟨n.detached, ← gather (extractWith p hole fuel) n.edges⟩

/-- The subtree of a node. -/
def extract (p : Pattern) (h : Handle) : Option Tree :=
  p.extractWith (fun _ => some none) p.size h

/-- A compact copy of the tree; detached slots are left behind. -/
def copy (p : Pattern) : Option Pattern := do (← p.extract p.root).toPattern p.name

/-- A compact copy in which the subtree of `source` at `new` stands in for the subtree in the slot
`old`. -/
def copyReplacing (p : Pattern) (old : Handle) (source : Pattern) (new : Handle) :
    Option Pattern := do
  let hole (h : Handle) : Option (Option Tree) :=
    if h = old then (source.extract new).map some else some none
  -- one step more, as the hole may be a missing slot below the deepest node
  (← p.extractWith hole (p.size + 1) p.root).toPattern p.name

/-- Attaches copies of the branches below `h` in `source` under `target`. -/
def copyChildren (p : Pattern) (target : Handle) (source : Pattern) (h : Handle) :
    Option Pattern := do
  let n ← source.node? h
  n.edges.foldlM (fun p e => do
    let t ← source.extract e.child
    return (← t.graft target e.toEdgeFlags p).2) p

/-- Attaches a copy of the subtree of `h` in `source` under `target`, as it is seen inside stored
content, on an edge like the one that leads to `h`; answers the new slot.  A node that no edge
leads to is refused before anything is changed. -/
def copyVirtual (p : Pattern) (target : Handle) (source : Pattern) (h : Handle) (c : Counters) :
    Option (Except PlanError Handle × Pattern × Counters) := do
  match ← source.incomingEdge h with
  | none => return (.error (.malformed (← source.node? h).code .noIncomingEdge), p, c)
  | some e =>
    let (t, c) := (← source.extract h).asVirtual c
    let (new, p) ← t.graft target e.toEdgeFlags p
    return (.ok new, p, c)

end Pattern

end TwigAlgebra
