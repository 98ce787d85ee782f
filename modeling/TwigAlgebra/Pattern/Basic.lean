import TwigAlgebra.Pattern.Node

/-!
# Tree patterns

A pattern is a tree of nodes held in an arena: the slots of an array, addressed by handles that
stay valid while the pattern is edited.  Removing an edge detaches a subtree but keeps its slots,
so an arena may hold nodes that are not part of the tree.  Patterns that arrive from outside may
hold anything: edges to slots that do not exist, shared nodes, cycles.  Every operation that
follows a handle therefore answers `none` when it is led to a missing slot, or when following
edges does not come to an end.

## Main definitions

* `Pattern` — a named arena with a root.
* `Pattern.node?`, `Pattern.update` — reading and changing a slot.
* `Pattern.addNode`, `Pattern.addEdge`, `Pattern.addChild` — growing the tree.
* `Pattern.removeEdge`, `Pattern.clearEdges` — detaching subtrees.
* `Pattern.topReturning` — the remembered question whether no ancestor returns anything.
-/

namespace TwigAlgebra

/-- A tree pattern: a name, the slots of the arena, and the slot of the root. -/
structure Pattern where
  /-- The name, used in renderings and messages. -/
  name : String
  /-- The slots, including those of detached nodes. -/
  nodes : Array Node
  /-- The slot of the root. -/
  root : Handle
  deriving DecidableEq, Repr, Inhabited

namespace Pattern

/-- The pattern that consists of one node. -/
def singleton (name : String) (n : Node) : Pattern :=
  ⟨name, #[{ n with parent := none, edges := [] }], 0⟩

/-- The number of slots. -/
def size (p : Pattern) : Nat := p.nodes.size

/-- The node in a slot. -/
def node? (p : Pattern) (h : Handle) : Option Node := p.nodes[h]?

/-- The children of a node, in order. -/
def children? (p : Pattern) (h : Handle) : Option (List Handle) := (p.node? h).map Node.children

/-- Changes the node in a slot. -/
def update (p : Pattern) (h : Handle) (f : Node → Node) : Option Pattern :=
  if h < p.nodes.size then some { p with nodes := p.nodes.modify h f } else none

/-- Forgets every remembered answer. -/
def forget (p : Pattern) : Pattern :=
  { p with nodes := p.nodes.map fun n => { n with topMemo := none } }

/-- Changes the node in a slot in a way that may change remembered answers. -/
def edit (p : Pattern) (h : Handle) (f : Node → Node) : Option Pattern := p.forget.update h f

@[simp] theorem root_singleton (name : String) (n : Node) : (singleton name n).root = 0 := rfl

@[simp] theorem size_singleton (name : String) (n : Node) : (singleton name n).size = 1 := rfl

theorem node?_singleton (name : String) (n : Node) (h : Handle) :
    (singleton name n).node? h
      = if h = 0 then some { n with parent := none, edges := [] } else none := by
  cases h <;> simp [node?, singleton]

theorem node?_eq_none_iff {p : Pattern} {h : Handle} : p.node? h = none ↔ p.size ≤ h := by
  simp [node?, size]

@[simp] theorem size_forget (p : Pattern) : p.forget.size = p.size := by simp [forget, size]

@[simp] theorem root_forget (p : Pattern) : p.forget.root = p.root := rfl

@[simp] theorem name_forget (p : Pattern) : p.forget.name = p.name := rfl

theorem node?_forget (p : Pattern) (h : Handle) :
    p.forget.node? h = (p.node? h).map fun n => { n with topMemo := none } := by
  simp [node?, forget]

theorem isSome_update (p : Pattern) (h : Handle) (f : Node → Node) :
    (p.update h f).isSome = (p.node? h).isSome := by
  by_cases hh : h < p.nodes.size <;> simp [update, node?, hh]

theorem node?_update {p q : Pattern} {h : Handle} {f : Node → Node} (hq : p.update h f = some q)
    (i : Handle) : q.node? i = if h = i then (p.node? i).map f else p.node? i := by
  unfold update at hq
  split at hq
  · cases hq
    simp [node?, Array.getElem?_modify]
  · simp at hq

theorem size_update {p q : Pattern} {h : Handle} {f : Node → Node} (hq : p.update h f = some q) :
    q.size = p.size := by
  unfold update at hq
  split at hq
  · cases hq; simp [size]
  · simp at hq

theorem root_update {p q : Pattern} {h : Handle} {f : Node → Node} (hq : p.update h f = some q) :
    q.root = p.root := by
  unfold update at hq
  split at hq
  · cases hq; rfl
  · simp at hq

theorem name_update {p q : Pattern} {h : Handle} {f : Node → Node} (hq : p.update h f = some q) :
    q.name = p.name := by
  unfold update at hq
  split at hq
  · cases hq; rfl
  · simp at hq

/-! ### Nodes and edges -/

/-- Puts a node into a new slot, detached, and answers the slot. -/
def addNode (p : Pattern) (n : Node) : Handle × Pattern :=
  (p.nodes.size, { p with nodes := p.nodes.push n.detached })

@[simp] theorem addNode_fst (p : Pattern) (n : Node) : (p.addNode n).1 = p.size := rfl

@[simp] theorem size_addNode (p : Pattern) (n : Node) : (p.addNode n).2.size = p.size + 1 := by
  simp [addNode, size]

@[simp] theorem root_addNode (p : Pattern) (n : Node) : (p.addNode n).2.root = p.root := rfl

theorem node?_addNode (p : Pattern) (n : Node) (h : Handle) :
    (p.addNode n).2.node? h = if h = p.size then some n.detached else p.node? h := by
  simp only [node?, addNode, size, Array.getElem?_push]
  rfl

/-- Records the depth of a node and of everything below it; the walk is at most `fuel` nodes
deep. -/
def setDepth : Nat → Handle → UInt32 → Pattern → Option Pattern
  | 0, _, _, _ => none
  | fuel + 1, h, depth, p => do
    let n ← p.node? h
    let p ← p.update h fun n => { n with depth }
    n.edges.foldlM (fun p e => setDepth fuel e.child (depth + e.levels) p) p

/-- Adds an edge as the last of `parent`; the child is linked back and takes its depth from the
parent, one more across a nested edge. -/
def addEdge (p : Pattern) (parent child : Handle) (flags : EdgeFlags) : Option Pattern := do
  let p ← p.edit parent fun n => { n with edges := n.edges ++ [flags.to child] }
  let owner ← p.node? parent
  let p ← p.update child fun n => { n with parent := some parent }
  p.setDepth p.size child (owner.depth + flags.levels)

/-- Puts a node into a new slot and adds an edge to it; answers the slot. -/
def addChild (p : Pattern) (parent : Handle) (n : Node) (flags : EdgeFlags) :
    Option (Handle × Pattern) := do
  let (child, p) := p.addNode n
  return (child, ← p.addEdge parent child flags)

/-- Removes the edges from `parent` to `child` and unlinks the child; answers whether there was
one. -/
def removeEdge (p : Pattern) (parent child : Handle) : Option (Bool × Pattern) := do
  let owner ← p.node? parent
  let kept := owner.edges.filter (·.child ≠ child)
  if kept.length = owner.edges.length then return (false, p)
  let p ← p.update parent fun n => { n with edges := kept }
  let p ← p.update child fun n => { n with parent := none }
  return (true, p.forget)

/-- Detaches every child of a node. -/
def clearEdges (p : Pattern) (h : Handle) : Option Pattern := do
  let owner ← p.node? h
  let p ← p.update h fun n => { n with edges := [] }
  let p ← owner.edges.foldlM (fun p e => p.update e.child fun n => { n with parent := none }) p
  return p.forget

/-- The edge that leads from a node's parent to it; none for a root or a detached node. -/
def incomingEdge (p : Pattern) (h : Handle) : Option (Option Edge) := do
  match (← p.node? h).parent with
  | none => return none
  | some parent => return (← p.node? parent).edges.find? (·.child = h)

/-! ### Attributes of a node -/

/-- Binds a variable to a node. -/
def bind (p : Pattern) (h : Handle) (v : Variable) : Option Pattern := p.edit h (·.binding v)

/-- Unbinds the variables with the given names from a node. -/
def unbind (p : Pattern) (h : Handle) (names : List String) : Option Pattern :=
  p.update h (·.unbinding names)

/-- Replaces what a node stores. -/
def setStores (p : Pattern) (h : Handle) (stores : Stores) : Option Pattern :=
  p.edit h fun n => { n with stores }

/-- Replaces what a node requires. -/
def setRequires (p : Pattern) (h : Handle) (requires : Requires) : Option Pattern :=
  p.edit h fun n => { n with requires }

/-- Sets or removes the test on a node's value. -/
def setTest (p : Pattern) (h : Handle) (test : Option ValueTest) : Option Pattern :=
  p.edit h fun n => { n with test }

/-- Turns the tag selection of a node on or off. -/
def setSelection (p : Pattern) (h : Handle) (on : Bool) (ns tag : String) : Option Pattern :=
  p.edit h (·.selecting on ns tag)

/-- Replaces the identifier schemes of a node. -/
def setIdKinds (p : Pattern) (h : Handle) (idKinds : IdKinds) : Option Pattern :=
  p.edit h fun n => { n with idKinds }

/-- Lets a node store the identifier, value and content that `source` stores, too. -/
def mergeStores (p : Pattern) (h : Handle) (source : Node) : Option Pattern :=
  p.edit h fun n => { n with stores := n.stores.merge source.stores }

/-! ### Top returning nodes -/

/-- Whether no node on the chain of parents from `h` on returns anything; the chain has at most
`fuel` nodes. -/
def noneReturns (p : Pattern) : Nat → Option Handle → Option Bool
  | _, none => some true
  | 0, some _ => none
  | fuel + 1, some h => do
    let n ← p.node? h
    if n.stores.returns then return false else noneReturns p fuel n.parent

/-- Whether no strict ancestor of a node returns its identifier, value or content.  The answer is
remembered in the node until the next edit. -/
def topReturning (p : Pattern) (h : Handle) : Option (Bool × Pattern) := do
  let n ← p.node? h
  match n.topMemo with
  | some answer => return (answer, p)
  | none =>
    let answer ← p.noneReturns p.size n.parent
    return (answer, ← p.update h fun n => { n with topMemo := some answer })

end Pattern

end TwigAlgebra
