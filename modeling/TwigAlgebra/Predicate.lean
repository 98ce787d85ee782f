import TwigAlgebra.Literal
import TwigAlgebra.Schema.Positions

/-!
# Predicates

Selections and joins keep the tuples that fulfil a predicate, which is a disjunction of
conjunctions of comparisons.  The empty conjunction always holds and the empty disjunction never.

## Main definitions

* `Operand`, `Condition`, `Predicate` — right-hand sides, comparisons and predicates.
* `Predicate.columns` — the columns compared, from left to right.
* `Predicate.resolve` — replaces the columns by positions.
-/

namespace TwigAlgebra

/-- The right-hand side of a comparison. -/
inductive Operand where
  /-- Another column. -/
  | column (c : ColumnRef) : Operand
  /-- A constant. -/
  | literal (l : Literal) : Operand
  deriving DecidableEq, Repr, Inhabited

/-- A comparison of a column with a column or a constant. -/
structure Condition where
  /-- The column on the left. -/
  left : ColumnRef
  /-- What it is compared with. -/
  right : Operand
  /-- How it is compared. -/
  comparison : Comparison
  deriving DecidableEq, Repr, Inhabited

/-- A disjunction of conjunctions. -/
structure Predicate where
  /-- The conjunctions. -/
  clauses : List (List Condition)
  deriving DecidableEq, Repr, Inhabited

/-- The written form of a right-hand side. -/
def Operand.text : Operand → String
  | column c => c.text
  | literal l => l.text

/-- The column on the right, if there is one. -/
def Operand.column? : Operand → Option ColumnRef
  | column c => some c
  | literal _ => none

/-- Resolves the column on the right, if there is one. -/
def Operand.resolve (ps : Positions) (reader : String) : Operand → Attempt Operand
  | column c => (ps.resolveOne reader c).map column
  | literal l => .done (literal l)

namespace Condition

/-- The written form of a comparison. -/
def text (c : Condition) : String :=
  c.left.text ++ " " ++ c.comparison.symbol ++ " " ++ c.right.text

/-- The columns compared. -/
def columns (c : Condition) : List ColumnRef := c.left :: c.right.column?.toList

/-- Resolves the left column, then the right. -/
def resolve (ps : Positions) (reader : String) (c : Condition) : Attempt Condition :=
  ((ps.resolveOne reader c.left).map fun left => { c with left }).andThen fun c =>
    (c.right.resolve ps reader).map fun right => { c with right }

end Condition

namespace Predicate

/-- The written form of a conjunction. -/
def clauseText : List Condition → String
  | [] => "true"
  | cs => "(" ++ String.intercalate " AND " (cs.map Condition.text) ++ ")"

/-- The written form of a predicate. -/
def text (p : Predicate) : String :=
  match p.clauses with
  | [] => "false"
  | cs => String.intercalate " OR " (cs.map clauseText)

/-- The columns compared, from left to right. -/
def columns (p : Predicate) : List ColumnRef :=
  p.clauses.flatMap fun cs => cs.flatMap Condition.columns

/-- The symbolic keys compared, from left to right. -/
def keys (p : Predicate) : List ColumnKey := ColumnRef.keys p.columns

/-- Resolves the columns from left to right. -/
def resolve (ps : Positions) (reader : String) (p : Predicate) : Attempt Predicate :=
  (Attempt.each (Attempt.each (Condition.resolve ps reader)) p.clauses).map .mk

end Predicate

end TwigAlgebra
