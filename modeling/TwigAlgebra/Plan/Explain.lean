import TwigAlgebra.Pattern.Render
import TwigAlgebra.Plan.Basic

/-!
# Explaining plans

A plan is explained as a tree of operator names with their parameters in a fixed order, and the
tree is rendered with one operator per line, inputs indented below.

## Main definitions

* `Explanation` — operator names, properties and inputs.
* `Plan.explain` — the explanation of a plan.
* `Explanation.render` — the text of an explanation.
-/

namespace TwigAlgebra

/-- A name and a text, such as `column` and `#3`. -/
abbrev Property := String × String

/-- The explanation of an operator and of what is below it. -/
inductive Explanation where
  /-- A name, its properties, and the inputs. -/
  | node (name : String) (properties : List Property) (inputs : List Explanation) : Explanation
  deriving Repr, Inhabited, BEq

namespace Explanation

/-- The name of the operator at the top. -/
def name : Explanation → String
  | node n _ _ => n

/-- The properties of the operator at the top. -/
def properties : Explanation → List Property
  | node _ ps _ => ps

/-- The first property of the top operator with a given name. -/
def get? (e : Explanation) (key : String) : Option String :=
  (e.properties.find? fun p => p.1 = key).map (·.2)

/-- The line of one operator, indented twice its depth. -/
def line (depth : Nat) (name : String) (properties : List Property) : String :=
  String.ofList (List.replicate (2 * depth) ' ') ++ name
    ++ String.join (properties.map fun p => " " ++ p.1 ++ "=" ++ p.2) ++ "\n"

mutual

/-- The lines of an explanation. -/
def renderAt (depth : Nat) : Explanation → String
  | node n ps inputs => line depth n ps ++ renderAll (depth + 1) inputs

/-- The lines of some explanations, one after the other. -/
def renderAll (depth : Nat) : List Explanation → String
  | [] => ""
  | e :: es => e.renderAt depth ++ renderAll depth es

end

/-- The text of an explanation. -/
def render (e : Explanation) : String := e.renderAt 0

end Explanation

/-- The properties of a scan; a pattern shows its brief labels. -/
def Scan.properties (s : Scan) : Option (List Property) := do
  let pattern ← match s.pattern with
    | some p => (p.text Node.brief).map fun t => [("pattern", t)]
    | none => some []
  return [("scan", s.id.text), ("source", s.source.path)]
    ++ (if s.source.documents.isEmpty then []
      else [("documents", String.intercalate "," s.source.documents)])
    ++ [("attach_doc_id", if s.attachDocId then "true" else "false")] ++ pattern

/-- The property that shows a nested aggregation. -/
def NestedAggregation.properties (a : Option NestedAggregation) : List Property :=
  (a.map fun a => ("aggregation", a.text)).toList

/-- The properties of an operator with one input. -/
def Unary.properties : Unary → List Property
  | select p => [("predicate", p.text)]
  | project cs => [("columns", ColumnRef.listText cs)]
  | distinct cs => [("columns", ColumnRef.listText cs)]
  | group g =>
    [("group_by", ColumnRef.listText g.groupBy), ("reduce_by", ColumnRef.listText g.reduceBy),
      ("nest", ColumnRef.listText g.nest)] ++ NestedAggregation.properties g.aggregation
  | aggregate a =>
    [("path", ColumnRef.listText a.path), ("function", a.function.text),
      ("outer_variable", a.result.text)]
  | flatten c => [("column", c.text)]
  | construct t => [("pattern", t.text)]

/-- The properties of an operator with two inputs. -/
def Binary.properties : Binary → List Property
  | product => []
  | join p => [("predicate", p.text)]
  | outerJoin p => [("predicate", p.text)]
  | nestedJoin j =>
    [("predicate", j.condition.text), ("doc_id_col", j.docIdColumn.text),
      ("node_id_cols", ColumnRef.listText j.nodeIdColumns)]
      ++ NestedAggregation.properties j.aggregation

/-- The property that shows a schema. -/
def Schema.properties (s : Option Schema) : List Property :=
  (s.map fun s => ("schema", s.text)).toList

/-- The explanation of a plan: parameters first, then the schema, if there is one. -/
def Plan.explain : Plan → Option Explanation
  | scan s d => do return .node s.name ((← s.properties) ++ Schema.properties d) []
  | unary op input d => do
    return .node op.name (op.properties ++ Schema.properties d) [← input.explain]
  | binary op left right d => do
    let l ← left.explain
    return .node op.name (op.properties ++ Schema.properties d) [l, ← right.explain]

end TwigAlgebra
