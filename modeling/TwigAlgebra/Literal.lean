import TwigAlgebra.Binary64.Decimal

/-!
# Constants and comparisons

Patterns test the value of a node against a constant, and predicates compare a column with a
constant or with another column.  Both share the constants and comparisons of this module.

## Main definitions

* `Comparison`, `Comparison.symbol` — the six comparisons and their symbols.
* `Literal`, `Literal.text` — text and number constants and their written forms.
-/

namespace TwigAlgebra

/-- A comparison of two values. -/
inductive Comparison where
  /-- The values are the same. -/
  | equal : Comparison
  /-- The values differ. -/
  | notEqual : Comparison
  /-- The left value is smaller. -/
  | less : Comparison
  /-- The left value is not greater. -/
  | lessOrEqual : Comparison
  /-- The left value is greater. -/
  | greater : Comparison
  /-- The left value is not smaller. -/
  | greaterOrEqual : Comparison
  deriving DecidableEq, Repr, Inhabited

/-- The symbol of a comparison. -/
def Comparison.symbol : Comparison → String
  | equal => "="
  | notEqual => "!="
  | less => "<"
  | lessOrEqual => "<="
  | greater => ">"
  | greaterOrEqual => ">="

/-- A constant. -/
inductive Literal where
  /-- A text constant. -/
  | string (s : String) : Literal
  /-- A number constant. -/
  | number (x : Binary64) : Literal
  deriving DecidableEq, Repr, Inhabited

/-- The written form of a constant: text stands between quotes as it is, numbers are written out
in full. -/
def Literal.text : Literal → String
  | string s => "\"" ++ s ++ "\""
  | number x => x.text

end TwigAlgebra
