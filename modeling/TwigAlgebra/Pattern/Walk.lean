import TwigAlgebra.Pattern.Basic

/-!
# Walks over a pattern

Questions about the nodes below a handle.  Counting and searching descend recursively, the
pre-order listing keeps its pending nodes on a stack, and the breadth-first listing in a queue.
A recursive descent is never deeper than the arena has slots unless it runs in a cycle, so the
number of slots bounds it; a listing takes one step per node, so the count bounds it.

## Main definitions

* `Pattern.count`, `Pattern.countReturning` — the sizes of a subtree.
* `Pattern.locate` — the first node with a code.
* `Pattern.preorder`, `Pattern.bfs` — listings.
* `Pattern.boundVars`, `Pattern.codes`, `Pattern.variableNode` — what the listed nodes bind.
* `Pattern.requiresBelow`, `Pattern.storesBelow` — whether a subtree requires or stores anything.
-/

namespace TwigAlgebra.Pattern

/-! ### Counting -/

/-- The sum over the subtree of `h` of a number per node. -/
def tally (p : Pattern) (f : Node → Nat) : Nat → Handle → Option Nat
  | 0, _ => none
  | fuel + 1, h => do
    let n ← p.node? h
    n.edges.foldlM (fun total e => do return total + (← tally p f fuel e.child)) (f n)

/-- The number of nodes of a subtree. -/
def count (p : Pattern) (h : Handle) : Option Nat := p.tally (fun _ => 1) p.size h

/-- The number of nodes of a subtree that return their identifier, value or content. -/
def countReturning (p : Pattern) (h : Handle) : Option Nat :=
  p.tally (fun n => n.stores.returns.toNat) p.size h

/-! ### Searching -/

/-- The first answer along a list; the rest of the list is not looked at. -/
def firstAnswer {α β : Type} (f : α → Option (Option β)) : List α → Option (Option β)
  | [] => some none
  | a :: as => do
    match ← f a with
    | some b => return some b
    | none => firstAnswer f as

/-- The first node with the code, depth first, in the subtree of `h`. -/
def locateFrom (p : Pattern) (code : Code) : Nat → Handle → Option (Option Handle)
  | 0, _ => none
  | fuel + 1, h => do
    let n ← p.node? h
    if n.code = code then return some h
    else firstAnswer (fun e => locateFrom p code fuel e.child) n.edges

/-- The first node with the code, depth first. -/
def locate (p : Pattern) (code : Code) : Option (Option Handle) :=
  p.locateFrom code p.size p.root

/-- Whether some node of the subtree of `h` has a property; the walk stops at the first. -/
def someBelow (p : Pattern) (f : Node → Bool) : Nat → Handle → Option Bool
  | 0, _ => none
  | fuel + 1, h => do
    let n ← p.node? h
    if f n then return true else n.edges.anyM fun e => someBelow p f fuel e.child

/-- Whether some node of a subtree requires anything. -/
def requiresBelow (p : Pattern) (h : Handle) : Option Bool :=
  p.someBelow (·.requires.any) p.size h

/-- Whether some node of a subtree stores anything. -/
def storesBelow (p : Pattern) (h : Handle) : Option Bool := p.someBelow (·.stores.any) p.size h

/-- The first child of a node on the given axis with the given tag. -/
def childByTag (p : Pattern) (h : Handle) (tag : String) (direct : Bool) :
    Option (Option Handle) := do
  let n ← p.node? h
  firstAnswer (fun e => do
    if e.direct = direct then
      return if (← p.node? e.child).tag = tag then some e.child else none
    else return none) n.edges

/-- Whether a node has a child on the given axis with the given tag. -/
def hasChild (p : Pattern) (h : Handle) (tag : String) (direct : Bool) : Option Bool :=
  (p.childByTag h tag direct).map Option.isSome

/-! ### Listings -/

/-- Takes `steps` nodes off a stack, putting the children of each on top of the rest. -/
def popAll (p : Pattern) : Nat → List Handle → Option (List Handle)
  | _, [] => some []
  | 0, _ :: _ => none
  | steps + 1, h :: stack => do
    let n ← p.node? h
    return h :: (← popAll p steps (n.children ++ stack))

/-- The nodes of the tree in pre-order. -/
def preorder (p : Pattern) : Option (List Handle) := do
  p.popAll (← p.count p.root) [p.root]

/-- Takes `steps` nodes off the front of a queue, lining up the children of each at its end, and
lists the nodes in the order in which they were lined up. -/
def serveAll (p : Pattern) : Nat → List Handle → Option (List Handle)
  | _, [] => some []
  | 0, _ :: _ => none
  | steps + 1, h :: queue => do
    let n ← p.node? h
    return n.children ++ (← serveAll p steps (queue ++ n.children))

/-- A node followed by everything below it, level by level. -/
def bfs (p : Pattern) (h : Handle) : Option (List Handle) := do
  return h :: (← p.serveAll (← p.count h) [h])

/-! ### Bindings and codes -/

/-- The nodes in pre-order, themselves. -/
def nodesInOrder (p : Pattern) : Option (List Node) := do (← p.preorder).mapM p.node?

/-- Every bound variable, in pre-order of the nodes; a scan over the pattern has its columns in
this order. -/
def boundVars (p : Pattern) : Option (List Variable) :=
  p.nodesInOrder.map fun ns => ns.flatMap (·.vars)

/-- The code of every node, in pre-order. -/
def codes (p : Pattern) : Option (List Code) := p.nodesInOrder.map fun ns => ns.map (·.code)

/-- The first node that binds a variable. -/
def variableNode (p : Pattern) (v : Var) : Option (Option Handle) := do
  return (← p.preorder).find? fun h =>
    ((p.node? h).map fun n => n.vars.any (·.id = v)).getD false

end TwigAlgebra.Pattern
