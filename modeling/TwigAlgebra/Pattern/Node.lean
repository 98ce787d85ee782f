import TwigAlgebra.Ids
import TwigAlgebra.Literal

/-!
# Pattern nodes

A pattern node describes one element or attribute of a matched document: the tag it selects, the
data a scan materialises for it, the data that must be known to reach the stored data, a test on
its value, and the variables bound to it.  Nodes live in the slots of a pattern's arena; an edge
leads from a node's slot to a child's, and each child links back to its parent.

## Main definitions

* `VarKind`, `Variable` — query variables and what they carry.
* `Stores`, `Requires`, `IdKinds` — the flags of a node.
* `EdgeFlags`, `Edge` — edges with their axis and their matching rules.
* `Node` — a pattern node.
* `Node.make`, `Node.detached` — a fresh node, and a node without its surroundings.
-/

namespace TwigAlgebra

/-- What a variable carries out of a matched document node. -/
inductive VarKind where
  /-- The identifier of the node. -/
  | nodeId : VarKind
  /-- The text value of the node. -/
  | value : VarKind
  /-- The serialised subtree of the node. -/
  | content : VarKind
  deriving DecidableEq, Repr, Inhabited

/-- The label of a kind in renderings. -/
def VarKind.label : VarKind → String
  | nodeId => "ID"
  | value => "Val"
  | content => "Cont"

/-- A query variable, bound to at most one pattern node. -/
structure Variable where
  /-- The number by which columns refer to the variable. -/
  id : Var
  /-- The name in the query, without the dollar sign. -/
  name : String
  /-- What the variable carries. -/
  kind : VarKind
  /-- The code of the node that the variable is bound to. -/
  node : Option Code
  deriving DecidableEq, Repr, Inhabited

/-- A variable is written with its name and the label of its kind. -/
def Variable.text (v : Variable) : String := "$" ++ v.name ++ ":" ++ v.kind.label

/-- The node data that a scan materialises. -/
structure Stores where
  /-- The identifier. -/
  id : Bool
  /-- The name of the element or attribute. -/
  tag : Bool
  /-- The text value. -/
  value : Bool
  /-- The serialised subtree. -/
  content : Bool
  deriving DecidableEq, Repr, Inhabited

namespace Stores

/-- Nothing is stored. -/
def none : Stores := ⟨false, false, false, false⟩

/-- Something is stored. -/
def any (s : Stores) : Bool := s.id || s.tag || s.value || s.content

/-- Something that a match returns is stored: the identifier, the value or the content. -/
def returns (s : Stores) : Bool := s.id || s.value || s.content

/-- What a variable of the given kind carries is stored. -/
def covers (s : Stores) : VarKind → Bool
  | .nodeId => s.id
  | .value => s.value
  | .content => s.content

/-- Stores what a variable of the given kind carries, too. -/
def including (s : Stores) : VarKind → Stores
  | .nodeId => { s with id := true }
  | .value => { s with value := true }
  | .content => { s with content := true }

/-- Stores the identifier, value and content that either stores; the tag is left alone. -/
def merge (s other : Stores) : Stores :=
  { s with
    id := s.id || other.id, value := s.value || other.value, content := s.content || other.content }

@[simp] theorem any_none : none.any = false := rfl

@[simp] theorem covers_including (s : Stores) (k : VarKind) : (s.including k).covers k = true := by
  cases k <;> rfl

end Stores

/-- The node data that must be known before stored data can be reached. -/
structure Requires where
  /-- The identifier. -/
  id : Bool
  /-- The tag. -/
  tag : Bool
  /-- The value. -/
  value : Bool
  deriving DecidableEq, Repr, Inhabited

/-- Nothing is required. -/
def Requires.none : Requires := ⟨false, false, false⟩

/-- Something is required. -/
def Requires.any (r : Requires) : Bool := r.id || r.tag || r.value

/-- The identifier schemes of a node; several may be combined. -/
structure IdKinds where
  /-- Identifiers that tell nodes apart. -/
  identity : Bool
  /-- Identifiers in document order. -/
  order : Bool
  /-- Identifiers that show ancestry. -/
  structural : Bool
  /-- Identifiers that survive updates. -/
  update : Bool
  deriving DecidableEq, Repr, Inhabited

/-- No scheme. -/
def IdKinds.none : IdKinds := ⟨false, false, false, false⟩

/-- A test on the value of a matched node. -/
structure ValueTest where
  /-- The comparison. -/
  comparison : Comparison
  /-- The constant the value is compared with. -/
  value : Literal
  deriving DecidableEq, Repr, Inhabited

/-- A slot of a pattern's arena. -/
abbrev Handle := Nat

/-- The axis and the matching rules of an edge. -/
structure EdgeFlags where
  /-- The child is a direct child; otherwise any descendant. -/
  direct : Bool
  /-- Matches of the child are nested under the match of the parent. -/
  nested : Bool
  /-- A match of the parent survives without a match of the child. -/
  optional : Bool
  deriving DecidableEq, Repr, Inhabited

/-- An edge to a child. -/
structure Edge extends EdgeFlags where
  /-- The slot of the child. -/
  child : Handle
  deriving DecidableEq, Repr, Inhabited

/-- The nesting levels that an edge adds. -/
def EdgeFlags.levels (e : EdgeFlags) : UInt32 := if e.nested then 1 else 0

/-- The edge with the given flags to a child. -/
def EdgeFlags.to (flags : EdgeFlags) (child : Handle) : Edge := ⟨flags, child⟩

@[simp] theorem EdgeFlags.child_to (flags : EdgeFlags) (h : Handle) : (flags.to h).child = h := rfl

@[simp] theorem EdgeFlags.flags_to (flags : EdgeFlags) (h : Handle) :
    (flags.to h).toEdgeFlags = flags := rfl

/-- A pattern node. -/
structure Node where
  /-- The code. -/
  code : Code
  /-- The namespace, empty when there is none. -/
  ns : String
  /-- The tag, an asterisk for any. -/
  tag : String
  /-- The node matches an attribute. -/
  isAttribute : Bool
  /-- The node selects on its tag. -/
  selectsTag : Bool
  /-- The data stored. -/
  stores : Stores
  /-- The data required. -/
  requires : Requires
  /-- The test on the value. -/
  test : Option ValueTest
  /-- The identifier schemes. -/
  idKinds : IdKinds
  /-- The number of nested edges above the node, recorded when it was attached. -/
  depth : UInt32
  /-- The node is reached by navigating inside stored content. -/
  isVirtual : Bool
  /-- The variables bound to the node, in binding order. -/
  vars : List Variable
  /-- The slot of the parent. -/
  parent : Option Handle
  /-- The edges to the children, in child order. -/
  edges : List Edge
  /-- The remembered answer to the question whether no ancestor returns anything. -/
  topMemo : Option Bool
  deriving DecidableEq, Repr, Inhabited

namespace Node

/-- The tag that selects every name. -/
def anyTag : String := "*"

/-- A node on its own.  An empty tag or an asterisk selects every name, in every namespace. -/
def make (code : Code) (ns tag : String) : Node :=
  let any := tag = "" ∨ tag = anyTag
  { code
    ns := if any then "" else ns
    tag := if any then anyTag else tag
    isAttribute := false
    selectsTag := ¬ any
    stores := .none
    requires := .none
    test := none
    idKinds := .none
    depth := 0
    isVirtual := false
    vars := []
    parent := none
    edges := []
    topMemo := none }

/-- The node without parent, children and memo. -/
def detached (n : Node) : Node := { n with parent := none, edges := [], topMemo := none }

/-- Turns the tag selection on, with a name, or off, which selects every name. -/
def selecting (n : Node) (on : Bool) (ns tag : String) : Node :=
  if on then { n with selectsTag := true, ns, tag }
  else { n with selectsTag := false, ns := "", tag := anyTag }

/-- Binds a variable, which records the node; the node stores what the variable carries. -/
def binding (n : Node) (v : Variable) : Node :=
  { n with
    stores := n.stores.including v.kind
    vars := n.vars ++ [{ v with node := some n.code }] }

/-- Unbinds the variables with the given names. -/
def unbinding (n : Node) (names : List String) : Node :=
  { n with vars := n.vars.filter fun v => !names.contains v.name }

/-- Stores nothing. -/
def cleared (n : Node) : Node := { n with stores := .none }

/-- The node as reached inside stored content: under a new code, without identifier and without
variables. -/
def asVirtual (n : Node) (code : Code) : Node :=
  { n with isVirtual := true, code, stores := { n.stores with id := false }, vars := [] }

/-- The children, in order. -/
def children (n : Node) : List Handle := n.edges.map (·.child)

/-- The names of the columns that the node materialises. -/
def columnNames (n : Node) : List String :=
  let column (stored : Bool) (label : String) :=
    if stored then [n.code.text ++ "." ++ label] else []
  column n.stores.id "ID" ++ column n.stores.tag "Tag" ++ column n.stores.value "Val"
    ++ column n.stores.content "Cont"

/-- The bound variables of one kind. -/
def varsOfKind (n : Node) (k : VarKind) : List Variable := n.vars.filter (·.kind = k)

/-- Some bound variable is of the kind. -/
def anyVarOfKind (n : Node) (k : VarKind) : Bool := n.vars.any (·.kind = k)

/-- The first bound variable with the name. -/
def varByName (n : Node) (name : String) : Option Variable := n.vars.find? (·.name = name)

@[simp] theorem detached_edges (n : Node) : n.detached.edges = [] := rfl

@[simp] theorem detached_parent (n : Node) : n.detached.parent = none := rfl

@[simp] theorem detached_detached (n : Node) : n.detached.detached = n.detached := rfl

end Node

end TwigAlgebra
