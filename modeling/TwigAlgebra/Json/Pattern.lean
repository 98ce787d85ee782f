import TwigAlgebra.Json.Predicate
import TwigAlgebra.Pattern.Basic

/-!
# Patterns as structured values

A pattern is written with its whole arena, slot by slot, detached nodes included, so that handles
keep their meaning.  Remembered answers are not written.

## Main definitions

* `Variable.toJson`, `Variable.ofJson?` — variables.
* `Node.toJson`, `Node.ofJson?` — nodes.
* `Pattern.toJson`, `Pattern.ofJson?` — patterns.
-/

namespace TwigAlgebra

open Json

namespace VarKind

/-- The names of the kinds. -/
def names : List (String × VarKind) := [("NodeId", nodeId), ("Value", value), ("Content", content)]

/-- A kind as a value. -/
def toJson : VarKind → Json
  | nodeId => str "NodeId"
  | value => str "Value"
  | content => str "Content"

/-- Reads a kind. -/
def ofJson? : Json → Option VarKind := asChoice names

end VarKind

namespace Variable

/-- A variable as a value. -/
def toJson (v : Variable) : Json :=
  obj [("id", word v.id.val), ("name", str v.name), ("kind", v.kind.toJson),
    ("node", option (fun c => word c.val) v.node)]

/-- Reads a variable. -/
def ofJson? (j : Json) : Option Variable := do
  let fs ← j.record ["id", "name", "kind", "node"]
  return ⟨⟨← fs.get "id" asWord⟩, ← fs.get "name" asString, ← fs.get "kind" VarKind.ofJson?,
    (← fs.optional "node" asWord).map .mk⟩

end Variable

namespace ValueTest

/-- A test as a value. -/
def toJson (t : ValueTest) : Json :=
  obj [("comparison", t.comparison.toJson), ("value", t.value.toJson)]

/-- Reads a test. -/
def ofJson? (j : Json) : Option ValueTest := do
  let fs ← j.record ["comparison", "value"]
  return ⟨← fs.get "comparison" Comparison.ofJson?, ← fs.get "value" Literal.ofJson?⟩

end ValueTest

namespace Stores

/-- What is stored, as a value. -/
def toJson (s : Stores) : Json :=
  obj [("id", bool s.id), ("tag", bool s.tag), ("value", bool s.value), ("content", bool s.content)]

/-- Reads what is stored. -/
def ofJson? (j : Json) : Option Stores := do
  let fs ← j.record ["id", "tag", "value", "content"]
  return ⟨← fs.get "id" asBool, ← fs.get "tag" asBool, ← fs.get "value" asBool,
    ← fs.get "content" asBool⟩

end Stores

namespace Requires

/-- What is required, as a value. -/
def toJson (r : Requires) : Json :=
  obj [("id", bool r.id), ("tag", bool r.tag), ("value", bool r.value)]

/-- Reads what is required. -/
def ofJson? (j : Json) : Option Requires := do
  let fs ← j.record ["id", "tag", "value"]
  return ⟨← fs.get "id" asBool, ← fs.get "tag" asBool, ← fs.get "value" asBool⟩

end Requires

namespace IdKinds

/-- Identifier schemes as a value. -/
def toJson (k : IdKinds) : Json :=
  obj [("identity", bool k.identity), ("order", bool k.order), ("structural", bool k.structural),
    ("update", bool k.update)]

/-- Reads identifier schemes. -/
def ofJson? (j : Json) : Option IdKinds := do
  let fs ← j.record ["identity", "order", "structural", "update"]
  return ⟨← fs.get "identity" asBool, ← fs.get "order" asBool, ← fs.get "structural" asBool,
    ← fs.get "update" asBool⟩

end IdKinds

namespace Edge

/-- An edge as a value. -/
def toJson (e : Edge) : Json :=
  obj [("child", nat e.child), ("direct", bool e.direct), ("nested", bool e.nested),
    ("optional", bool e.optional)]

/-- Reads an edge. -/
def ofJson? (j : Json) : Option Edge := do
  let fs ← j.record ["child", "direct", "nested", "optional"]
  let child ← fs.get "child" asNat
  return ⟨⟨← fs.get "direct" asBool, ← fs.get "nested" asBool, ← fs.get "optional" asBool⟩, child⟩

end Edge

namespace Node

/-- The names of a node's fields. -/
def fieldNames : List String :=
  ["code", "namespace", "tag", "is_attribute", "selects_tag", "stores", "requires",
    "value_predicate", "id_kind", "nesting_depth", "is_virtual", "variables", "parent", "edges"]

/-- A node as a value. -/
def toJson (n : Node) : Json :=
  obj [("code", word n.code.val), ("namespace", str n.ns), ("tag", str n.tag),
    ("is_attribute", bool n.isAttribute), ("selects_tag", bool n.selectsTag),
    ("stores", n.stores.toJson), ("requires", n.requires.toJson),
    ("value_predicate", option ValueTest.toJson n.test), ("id_kind", n.idKinds.toJson),
    ("nesting_depth", word n.depth), ("is_virtual", bool n.isVirtual),
    ("variables", list Variable.toJson n.vars), ("parent", option nat n.parent),
    ("edges", list Edge.toJson n.edges)]

/-- Reads a node. -/
def ofJson? (j : Json) : Option Node := do
  let fs ← j.record fieldNames
  return {
    code := ⟨← fs.get "code" asWord⟩
    ns := ← fs.get "namespace" asString
    tag := ← fs.get "tag" asString
    isAttribute := ← fs.get "is_attribute" asBool
    selectsTag := ← fs.get "selects_tag" asBool
    stores := ← fs.get "stores" Stores.ofJson?
    requires := ← fs.get "requires" Requires.ofJson?
    test := ← fs.optional "value_predicate" ValueTest.ofJson?
    idKinds := ← fs.get "id_kind" IdKinds.ofJson?
    depth := ← fs.get "nesting_depth" asWord
    isVirtual := ← fs.get "is_virtual" asBool
    vars := ← fs.get "variables" (asList Variable.ofJson?)
    parent := ← fs.optional "parent" asNat
    edges := ← fs.get "edges" (asList Edge.ofJson?)
    topMemo := none }

end Node

namespace Pattern

/-- A pattern as a value. -/
def toJson (p : Pattern) : Json :=
  obj [("name", str p.name), ("nodes", list Node.toJson p.nodes.toList), ("root", nat p.root)]

/-- Reads a pattern. -/
def ofJson? (j : Json) : Option Pattern := do
  let fs ← j.record ["name", "nodes", "root"]
  return ⟨← fs.get "name" asString, (← fs.get "nodes" (asList Node.ofJson?)).toArray,
    ← fs.get "root" asNat⟩

end Pattern

end TwigAlgebra
