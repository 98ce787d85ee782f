import TwigAlgebra.Pattern.Walk
import TwigAlgebra.Predicate
import TwigAlgebra.Template

/-!
# Logical plans

A plan is a tree of operators.  Its leaves are scans, which match a pattern against the documents
of a source, and its inner operators have one input or two.  An operator's parameters refer to the
columns of its input; before resolution they name keys, afterwards positions.  An operator may
declare the schema of its output, and once resolved it holds the computed one in the same place.

## Main definitions

* `Scan`, `Unary`, `Binary` — the operators, without their inputs.
* `Plan` — operator trees.
* `Plan.name` — the name of the top operator, by which messages refer to it.
* `Plan.postorder`, `Plan.holders` — the operators of a plan, and those that introduce variables.
* `Plan.keys` — the symbolic keys among the parameters of the top operator.
* `Query` — a plan at a stage of its life.
-/

namespace TwigAlgebra

/-- Where a scan finds its documents. -/
structure Source where
  /-- The path of a collection. -/
  path : String
  /-- The documents of the collection that are read; all of them if none is listed. -/
  documents : List String
  deriving DecidableEq, Repr, Inhabited

/-- A leaf: it matches a pattern against documents. -/
structure Scan where
  /-- The number of the scan, to which its document columns belong. -/
  id : ScanId
  /-- The pattern; without one the scan emits whole documents. -/
  pattern : Option Pattern
  /-- A column with the document identifier comes first. -/
  attachDocId : Bool
  /-- The documents read. -/
  source : Source
  deriving DecidableEq, Repr, Inhabited

namespace Scan

/-- The column that a variable of the pattern fills. -/
def variableColumn (v : Variable) : Column := .carrying (.var v.id) v.kind.scalarType

/-- The columns of the documents themselves: one per variable of the pattern in pre-order, or the
whole document. -/
def bodyColumns (s : Scan) : Option (List Column) :=
  match s.pattern with
  | some p => p.boundVars.map fun vs => vs.map variableColumn
  | none => some [.carrying (.document s.id) .xml]

/-- The document identifier, if it is attached. -/
def docIdColumns (s : Scan) : List Column :=
  if s.attachDocId then [.carrying (.docId s.id) .id] else []

/-- The schema of the tuples that a scan emits. -/
def schema (s : Scan) : Option Schema := s.bodyColumns.map fun cs => ⟨s.docIdColumns ++ cs⟩

/-- The number of columns that a scan emits. -/
def width (s : Scan) : Option Nat := do
  let body ← match s.pattern with
    | some p => p.boundVars.map List.length
    | none => some 1
  return body + s.attachDocId.toNat

end Scan

/-- The functions that reduce many values to one. -/
inductive AggregateFunction where
  /-- The number of values. -/
  | count : AggregateFunction
  /-- Their sum. -/
  | sum : AggregateFunction
  /-- Their mean. -/
  | avg : AggregateFunction
  /-- The least. -/
  | min : AggregateFunction
  /-- The greatest. -/
  | max : AggregateFunction
  deriving DecidableEq, Repr, Inhabited

namespace AggregateFunction

/-- The name of a function. -/
def text : AggregateFunction → String
  | count => "COUNT"
  | sum => "SUM"
  | avg => "AVG"
  | min => "MIN"
  | max => "MAX"

/-- Counting gives whole numbers. -/
def resultType : AggregateFunction → ScalarType
  | count => .integer
  | _ => .double

end AggregateFunction

/-- A function over one column of nested tuples, computed while they are nested. -/
structure NestedAggregation where
  /-- The column. -/
  column : ColumnRef
  /-- The function. -/
  function : AggregateFunction
  deriving DecidableEq, Repr, Inhabited

/-- The written form of a nested aggregation. -/
def NestedAggregation.text (a : NestedAggregation) : String :=
  a.function.text ++ "(" ++ a.column.text ++ ")"

/-- The parameters of a grouping. -/
structure Grouping where
  /-- The columns that tell groups apart. -/
  groupBy : List ColumnRef
  /-- The columns kept once per group. -/
  reduceBy : List ColumnRef
  /-- The columns nested in each group. -/
  nest : List ColumnRef
  /-- A function over each group. -/
  aggregation : Option NestedAggregation
  deriving DecidableEq, Repr, Inhabited

/-- The parameters of an aggregation. -/
structure Aggregation where
  /-- The path to the values. -/
  path : List ColumnRef
  /-- The function. -/
  function : AggregateFunction
  /-- The variable that names the result. -/
  result : Var
  deriving DecidableEq, Repr, Inhabited

/-- The parameters of a nested join. -/
structure NestedJoin where
  /-- What pairs of tuples fulfil. -/
  condition : Predicate
  /-- The left column with the document identifier that both sides share. -/
  docIdColumn : ColumnRef
  /-- The left columns with the node identifiers that both sides share. -/
  nodeIdColumns : List ColumnRef
  /-- A function over the matches of each left tuple. -/
  aggregation : Option NestedAggregation
  deriving DecidableEq, Repr, Inhabited

/-- The operators with one input. -/
inductive Unary where
  /-- Keeps the tuples that fulfil a predicate. -/
  | select (condition : Predicate) : Unary
  /-- Keeps the listed columns, in the order of the list. -/
  | project (columns : List ColumnRef) : Unary
  /-- Keeps one of the tuples that agree in the listed columns. -/
  | distinct (columns : List ColumnRef) : Unary
  /-- Groups tuples and nests their last columns. -/
  | group (g : Grouping) : Unary
  /-- Adds a column with a function of nested values. -/
  | aggregate (a : Aggregation) : Unary
  /-- Replaces a nested column by the columns inside it. -/
  | flatten (column : ColumnRef) : Unary
  /-- Builds documents after a template. -/
  | construct (template : Template) : Unary
  deriving DecidableEq, Repr, Inhabited

/-- The operators with two inputs. -/
inductive Binary where
  /-- Pairs every left tuple with every right tuple. -/
  | product : Binary
  /-- Pairs the tuples that fulfil a predicate. -/
  | join (condition : Predicate) : Binary
  /-- Pairs the tuples that fulfil a predicate, and keeps left tuples without a match. -/
  | outerJoin (condition : Predicate) : Binary
  /-- Nests the matches of each left tuple in one column. -/
  | nestedJoin (j : NestedJoin) : Binary
  deriving DecidableEq, Repr, Inhabited

/-- A tree of operators, each with the schema declared or computed for its output. -/
inductive Plan where
  /-- A leaf. -/
  | scan (s : Scan) (schema : Option Schema) : Plan
  /-- An operator over one input. -/
  | unary (op : Unary) (input : Plan) (schema : Option Schema) : Plan
  /-- An operator over a left and a right input. -/
  | binary (op : Binary) (left right : Plan) (schema : Option Schema) : Plan
  deriving DecidableEq, Repr, Inhabited

/-- The name of a scan depends on whether it navigates by a pattern. -/
def Scan.name (s : Scan) : String :=
  if s.pattern.isSome then "XMLCollectionNav" else "XMLCollectionParse"

/-- The end of the names of nesting operators that aggregate, too. -/
def aggregationMark (a : Option NestedAggregation) : String :=
  if a.isSome then "WithAggregation" else ""

namespace Unary

/-- The name of an operator with one input. -/
def name : Unary → String
  | select _ => "Selection"
  | project _ => "Projection"
  | distinct _ => "DuplicateElimination"
  | group g => "GroupBy" ++ aggregationMark g.aggregation
  | aggregate _ => "Aggregation"
  | flatten _ => "Flatten"
  | construct _ => Content.reader

/-- The column of a nested aggregation, as a list. -/
def aggregated (a : Option NestedAggregation) : List ColumnRef := a.toList.map (·.column)

/-- The columns among the parameters, in the order in which they are resolved. -/
def columns : Unary → List ColumnRef
  | select p => p.columns
  | project cs => cs
  | distinct cs => cs
  | group g => g.groupBy ++ g.reduceBy ++ g.nest ++ aggregated g.aggregation
  | aggregate a => a.path
  | flatten c => [c]
  | construct t => t.paths.flatten

/-- The operator builds documents. -/
def isConstruct : Unary → Bool
  | construct _ => true
  | _ => false

end Unary

namespace Binary

/-- The name of an operator with two inputs. -/
def name : Binary → String
  | product => "CartesianProduct"
  | join _ => "Join"
  | outerJoin _ => "LeftOuterJoin"
  | nestedJoin j => "LeftOuterNestedJoin" ++ aggregationMark j.aggregation

/-- The columns among the parameters, in the order in which they are resolved. -/
def columns : Binary → List ColumnRef
  | product => []
  | join p => p.columns
  | outerJoin p => p.columns
  | nestedJoin j =>
    j.condition.columns ++ j.docIdColumn :: j.nodeIdColumns ++ Unary.aggregated j.aggregation

end Binary

namespace Plan

/-- The schema declared or computed for the output. -/
def schema : Plan → Option Schema
  | scan _ s => s
  | unary _ _ s => s
  | binary _ _ _ s => s

/-- The width of the output, where there is a schema. -/
def width (p : Plan) : Option Nat := p.schema.map Schema.width

/-- The name of the top operator. -/
def name : Plan → String
  | scan s _ => s.name
  | unary op _ _ => op.name
  | binary op _ _ _ => op.name

/-- The inputs of the top operator, left before right. -/
def inputs : Plan → List Plan
  | scan .. => []
  | unary _ input _ => [input]
  | binary _ left right _ => [left, right]

/-- The columns among the parameters of the top operator. -/
def columns : Plan → List ColumnRef
  | scan .. => []
  | unary op _ _ => op.columns
  | binary op _ _ _ => op.columns

/-- The symbolic keys among the parameters of the top operator. -/
def keys (p : Plan) : List ColumnKey := ColumnRef.keys p.columns

/-- The top operator builds documents. -/
def isConstruct : Plan → Bool
  | unary op _ _ => op.isConstruct
  | _ => false

/-- The subplans, the inputs of an operator before the operator. -/
def postorder : Plan → List Plan
  | scan s d => [scan s d]
  | unary op input d => input.postorder ++ [unary op input d]
  | binary op left right d => left.postorder ++ right.postorder ++ [binary op left right d]

/-- The top operator introduces variables: it is a scan or an aggregation. -/
def isHolder : Plan → Bool
  | scan .. => true
  | unary (.aggregate _) _ _ => true
  | _ => false

/-- The operators strictly below the top one that introduce variables, in post-order. -/
def holders (p : Plan) : List Plan := p.inputs.flatMap fun q => q.postorder.filter isHolder

/-- The scan at the top, if it is one. -/
def scan? : Plan → Option Scan
  | scan s _ => some s
  | _ => none

/-- The scans of a plan, in post-order. -/
def scans (p : Plan) : List Scan := p.postorder.filterMap scan?

@[simp] theorem postorder_scan (s : Scan) (d : Option Schema) :
    (scan s d).postorder = [scan s d] := rfl

@[simp] theorem postorder_unary (op : Unary) (p : Plan) (d : Option Schema) :
    (unary op p d).postorder = p.postorder ++ [unary op p d] := rfl

@[simp] theorem postorder_binary (op : Binary) (l r : Plan) (d : Option Schema) :
    (binary op l r d).postorder = l.postorder ++ r.postorder ++ [binary op l r d] := rfl

@[simp] theorem holders_scan (s : Scan) (d : Option Schema) : (scan s d).holders = [] := rfl

@[simp] theorem holders_unary (op : Unary) (p : Plan) (d : Option Schema) :
    (unary op p d).holders = p.postorder.filter isHolder := by simp [holders, inputs]

@[simp] theorem holders_binary (op : Binary) (l r : Plan) (d : Option Schema) :
    (binary op l r d).holders = l.postorder.filter isHolder ++ r.postorder.filter isHolder := by
  simp [holders, inputs]

/-- A plan is among its subplans. -/
theorem mem_postorder_self (p : Plan) : p ∈ p.postorder := by cases p <;> simp

end Plan

/-- The stages of a plan's life. -/
inductive Stage where
  /-- Parameters may name keys. -/
  | symbolic : Stage
  /-- Every parameter is a position and every schema is computed. -/
  | resolved : Stage
  deriving DecidableEq, Repr, Inhabited

/-- The written form of a stage. -/
def Stage.text : Stage → String
  | symbolic => "Symbolic"
  | resolved => "Resolved"

/-- A plan together with its stage. -/
structure Query where
  /-- The operators. -/
  root : Plan
  /-- The stage. -/
  stage : Stage
  deriving DecidableEq, Repr, Inhabited

namespace Query

/-- A plan at its first stage. -/
def symbolic (root : Plan) : Query := ⟨root, .symbolic⟩

/-- The width of the output, where there is a schema. -/
def width (q : Query) : Option Nat := q.root.width

end Query

end TwigAlgebra
