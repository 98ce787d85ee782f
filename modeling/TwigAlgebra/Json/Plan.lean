import TwigAlgebra.Json.Pattern
import TwigAlgebra.Plan.Explain

/-!
# Plans as structured values

An operator is written as an alternative named after its kind, which holds its parameters and its
inputs; beside it stands its schema.

## Main definitions

* `Plan.toJson`, `Plan.ofJson?` — plans.
* `Query.toJson`, `Query.ofJson?` — plans with their stage.
* `Explanation.toJson` — explanations.
-/

namespace TwigAlgebra

open Json

namespace Source

/-- A source as a value. -/
def toJson (s : Source) : Json := obj [("path", str s.path), ("documents", list str s.documents)]

/-- Reads a source. -/
def ofJson? (j : Json) : Option Source := do
  let fs ← j.record ["path", "documents"]
  return ⟨← fs.get "path" asString, ← fs.get "documents" (asList asString)⟩

end Source

namespace Scan

/-- A scan as a value. -/
def toJson (s : Scan) : Json :=
  obj [("id", word s.id.val), ("pattern", option Pattern.toJson s.pattern),
    ("attach_doc_id", bool s.attachDocId), ("source", s.source.toJson)]

/-- Reads a scan. -/
def ofJson? (j : Json) : Option Scan := do
  let fs ← j.record ["id", "pattern", "attach_doc_id", "source"]
  return ⟨⟨← fs.get "id" asWord⟩, ← fs.optional "pattern" Pattern.ofJson?,
    ← fs.get "attach_doc_id" asBool, ← fs.get "source" Source.ofJson?⟩

end Scan

namespace AggregateFunction

/-- The names of the functions. -/
def names : List (String × AggregateFunction) :=
  [("Count", count), ("Sum", sum), ("Avg", avg), ("Min", min), ("Max", max)]

/-- A function as a value. -/
def toJson : AggregateFunction → Json
  | count => str "Count"
  | sum => str "Sum"
  | avg => str "Avg"
  | min => str "Min"
  | max => str "Max"

/-- Reads a function. -/
def ofJson? : Json → Option AggregateFunction := asChoice names

end AggregateFunction

namespace NestedAggregation

/-- A nested aggregation as a value. -/
def toJson (a : NestedAggregation) : Json :=
  obj [("column", a.column.toJson), ("function", a.function.toJson)]

/-- Reads a nested aggregation. -/
def ofJson? (j : Json) : Option NestedAggregation := do
  let fs ← j.record ["column", "function"]
  return ⟨← fs.get "column" ColumnRef.ofJson?, ← fs.get "function" AggregateFunction.ofJson?⟩

end NestedAggregation

/-- A list of references as a value. -/
def ColumnRef.listToJson : List ColumnRef → Json := list toJson

/-- Reads a list of references. -/
def ColumnRef.listOfJson? : Json → Option (List ColumnRef) := asList ofJson?

namespace Unary

/-- An operator over an input as an alternative. -/
def toJson (input : Json) : Unary → Json
  | select p => tagged "Selection" (obj [("input", input), ("predicate", p.toJson)])
  | project cs => tagged "Projection" (obj [("input", input), ("columns", ColumnRef.listToJson cs)])
  | distinct cs =>
    tagged "DuplicateElimination" (obj [("input", input), ("columns", ColumnRef.listToJson cs)])
  | group g =>
    tagged "GroupBy" (obj [("input", input), ("group_by", ColumnRef.listToJson g.groupBy),
      ("reduce_by", ColumnRef.listToJson g.reduceBy), ("nest", ColumnRef.listToJson g.nest),
      ("aggregation", option NestedAggregation.toJson g.aggregation)])
  | aggregate a =>
    tagged "Aggregation" (obj [("input", input), ("path", ColumnRef.listToJson a.path),
      ("function", a.function.toJson), ("outer_variable", word a.result.val)])
  | flatten c => tagged "Flatten" (obj [("input", input), ("column", c.toJson)])
  | construct t =>
    tagged "XmlTreeConstruct" (obj [("input", input), ("pattern", t.patternToJson)])

/-- Reads the parameters of the operator with the given kind; none has a grouping's. -/
def ofFields? (kind : String) (fs : Fields) : Option Unary :=
  match kind with
  | "Selection" => do return select (← fs.get "predicate" Predicate.ofJson?)
  | "Projection" => do return project (← fs.get "columns" ColumnRef.listOfJson?)
  | "DuplicateElimination" => do return distinct (← fs.get "columns" ColumnRef.listOfJson?)
  | "GroupBy" => do
    return group ⟨← fs.get "group_by" ColumnRef.listOfJson?,
      ← fs.get "reduce_by" ColumnRef.listOfJson?, ← fs.get "nest" ColumnRef.listOfJson?,
      ← fs.optional "aggregation" NestedAggregation.ofJson?⟩
  | "Aggregation" => do
    return aggregate ⟨← fs.get "path" ColumnRef.listOfJson?,
      ← fs.get "function" AggregateFunction.ofJson?, ⟨← fs.get "outer_variable" asWord⟩⟩
  | "Flatten" => do return flatten (← fs.get "column" ColumnRef.ofJson?)
  | "XmlTreeConstruct" => do return construct (← fs.get "pattern" Template.ofPatternJson?)
  | _ => none

/-- The fields of an operator with one input; only a grouping may list them without names. -/
def fields? (kind : String) (j : Json) : Option Fields :=
  if kind = "GroupBy" then j.record ["input", "group_by", "reduce_by", "nest", "aggregation"]
  else j.fields

end Unary

namespace Binary

/-- An operator over a left and a right input as an alternative. -/
def toJson (left right : Json) : Binary → Json
  | product => tagged "CartesianProduct" (obj [("left", left), ("right", right)])
  | join p => tagged "Join" (obj [("left", left), ("right", right), ("predicate", p.toJson)])
  | outerJoin p =>
    tagged "LeftOuterJoin" (obj [("left", left), ("right", right), ("predicate", p.toJson)])
  | nestedJoin j =>
    tagged "LeftOuterNestedJoin" (obj [("left", left), ("right", right),
      ("predicate", j.condition.toJson), ("doc_id_col", j.docIdColumn.toJson),
      ("node_id_cols", ColumnRef.listToJson j.nodeIdColumns),
      ("aggregation", option NestedAggregation.toJson j.aggregation)])

/-- Reads the parameters of the operator with the given kind. -/
def ofFields? (kind : String) (fs : Fields) : Option Binary :=
  match kind with
  | "CartesianProduct" => some product
  | "Join" => do return join (← fs.get "predicate" Predicate.ofJson?)
  | "LeftOuterJoin" => do return outerJoin (← fs.get "predicate" Predicate.ofJson?)
  | "LeftOuterNestedJoin" => do
    return nestedJoin ⟨← fs.get "predicate" Predicate.ofJson?,
      ← fs.get "doc_id_col" ColumnRef.ofJson?, ← fs.get "node_id_cols" ColumnRef.listOfJson?,
      ← fs.optional "aggregation" NestedAggregation.ofJson?⟩
  | _ => none

/-- The kinds of operators with two inputs. -/
def kinds : List String := ["CartesianProduct", "Join", "LeftOuterJoin", "LeftOuterNestedJoin"]

/-- The fields of an operator with two inputs; those of a product have names. -/
def fields? (kind : String) (j : Json) : Option Fields :=
  match kind with
  | "CartesianProduct" => j.fields
  | "LeftOuterNestedJoin" =>
    j.record ["left", "right", "predicate", "doc_id_col", "node_id_cols", "aggregation"]
  | _ => j.record ["left", "right", "predicate"]

end Binary

namespace Plan

/-- An operator beside its schema. -/
def withSchema (op : Json) (schema : Option Schema) : Json :=
  obj [("op", op), ("schema", option Schema.toJson schema)]

/-- A plan as a value. -/
def toJson : Plan → Json
  | scan s d => withSchema (tagged "Scan" s.toJson) d
  | unary op input d => withSchema (op.toJson input.toJson) d
  | binary op left right d => withSchema (op.toJson left.toJson right.toJson) d

/-- Reads a plan that is at most `fuel` operators deep. -/
def ofJsonAt : Nat → Json → Option Plan
  | 0, _ => none
  | fuel + 1, j => do
    let fs ← j.record ["op", "schema"]
    let schema ← fs.optional "schema" Schema.ofJson?
    match ← (← fs "op").variant with
    | (_, none) => none
    | (kind, some payload) =>
      if kind = "Scan" then return scan (← Scan.ofJson? payload) schema
      else if kind ∈ Binary.kinds then
        let ps ← Binary.fields? kind payload
        return binary (← Binary.ofFields? kind ps) (← ps.get "left" (ofJsonAt fuel))
          (← ps.get "right" (ofJsonAt fuel)) schema
      else
        let ps ← Unary.fields? kind payload
        return unary (← Unary.ofFields? kind ps) (← ps.get "input" (ofJsonAt fuel)) schema

/-- Reads a plan. -/
def ofJson? (j : Json) : Option Plan := ofJsonAt j.depth j

end Plan

namespace Stage

/-- The names of the stages. -/
def names : List (String × Stage) := [("Symbolic", symbolic), ("Resolved", resolved)]

/-- A stage as a value. -/
def toJson (s : Stage) : Json := str s.text

/-- Reads a stage. -/
def ofJson? : Json → Option Stage := asChoice names

end Stage

namespace Query

/-- A plan with its stage as a value. -/
def toJson (q : Query) : Json := obj [("root", q.root.toJson), ("state", q.stage.toJson)]

/-- Reads a plan with its stage. -/
def ofJson? (j : Json) : Option Query := do
  let fs ← j.record ["root", "state"]
  return ⟨← fs.get "root" Plan.ofJson?, ← fs.get "state" Stage.ofJson?⟩

end Query

namespace Explanation

/-- The field with the properties, which is left out when there are none. -/
def propertiesToJson (ps : List Property) : List (String × Json) :=
  if ps.isEmpty then [] else [("props", obj (ps.map fun p => (p.1, str p.2)))]

mutual

/-- An explanation as a value. -/
def toJson : Explanation → Json
  | node n ps inputs =>
    obj (("op", str n) :: propertiesToJson ps ++ [("inputs", arr (toJsonAll inputs))])

/-- Some explanations as values. -/
def toJsonAll : List Explanation → List Json
  | [] => []
  | e :: es => e.toJson :: toJsonAll es

end

end Explanation

end TwigAlgebra
