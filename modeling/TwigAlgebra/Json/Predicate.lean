import TwigAlgebra.Json.Schema
import TwigAlgebra.Predicate
import TwigAlgebra.Template

/-!
# Predicates and templates as structured values

## Main definitions

* `Literal.toJson`, `Literal.ofJson?` — constants.
* `Predicate.toJson`, `Predicate.ofJson?` — predicates.
* `Template.toJson`, `Template.ofJson?` — template trees.
* `Template.patternToJson`, `Template.ofPatternJson?` — templates as an operator holds them.
-/

namespace TwigAlgebra

open Json

namespace Comparison

/-- The names of the comparisons. -/
def names : List (String × Comparison) :=
  [("Equal", equal), ("NotEqual", notEqual), ("Less", less), ("LessOrEqual", lessOrEqual),
    ("Greater", greater), ("GreaterOrEqual", greaterOrEqual)]

/-- A comparison as a value. -/
def toJson : Comparison → Json
  | equal => str "Equal"
  | notEqual => str "NotEqual"
  | less => str "Less"
  | lessOrEqual => str "LessOrEqual"
  | greater => str "Greater"
  | greaterOrEqual => str "GreaterOrEqual"

/-- Reads a comparison. -/
def ofJson? : Json → Option Comparison := asChoice names

end Comparison

namespace Literal

/-- A constant as a value. -/
def toJson : Literal → Json
  | string s => tagged "String" (str s)
  | number x => tagged "Number" (double x)

/-- Reads a constant. -/
def ofJson? (j : Json) : Option Literal := do
  match ← j.variant with
  | ("String", some s) => return string (← s.asString)
  | ("Number", some x) => return number (← x.asDouble)
  | _ => none

end Literal

namespace Operand

/-- A right-hand side as a value. -/
def toJson : Operand → Json
  | column c => tagged "Column" c.toJson
  | literal l => tagged "Literal" l.toJson

/-- Reads a right-hand side. -/
def ofJson? (j : Json) : Option Operand := do
  match ← j.variant with
  | ("Column", some c) => return column (← ColumnRef.ofJson? c)
  | ("Literal", some l) => return literal (← Literal.ofJson? l)
  | _ => none

end Operand

namespace Condition

/-- A comparison of columns as a value. -/
def toJson (c : Condition) : Json :=
  obj [("left", c.left.toJson), ("right", c.right.toJson), ("comparison", c.comparison.toJson)]

/-- Reads a comparison of columns. -/
def ofJson? (j : Json) : Option Condition := do
  let fs ← j.record ["left", "right", "comparison"]
  return ⟨← fs.get "left" ColumnRef.ofJson?, ← fs.get "right" Operand.ofJson?,
    ← fs.get "comparison" Comparison.ofJson?⟩

end Condition

namespace Predicate

/-- A predicate as a value. -/
def toJson (p : Predicate) : Json := list (list Condition.toJson) p.clauses

/-- Reads a predicate. -/
def ofJson? (j : Json) : Option Predicate := (asList (asList Condition.ofJson?) j).map .mk

end Predicate

namespace Content

/-- What a template node emits, as a value. -/
def toJson : Content → Json
  | element tag => tagged "Element" (obj [("tag", str tag)])
  | attr name => tagged "Attribute" (obj [("name", str name)])
  | text s => tagged "Literal" (str s)
  | path slots => tagged "VariablePath" (list ColumnRef.toJson slots)

/-- Reads what a template node emits. -/
def ofJson? (j : Json) : Option Content := do
  match ← j.variant with
  | ("Element", some e) => return element (← (← e.fields).get "tag" asString)
  | ("Attribute", some a) => return attr (← (← a.fields).get "name" asString)
  | ("Literal", some s) => return text (← s.asString)
  | ("VariablePath", some cs) => return path (← asList ColumnRef.ofJson? cs)
  | _ => none

end Content

namespace Template

mutual

/-- A template as a value. -/
def toJson : Template → Json
  | node c ts => obj [("content", c.toJson), ("children", arr (toJsonAll ts))]

/-- Some templates as values. -/
def toJsonAll : List Template → List Json
  | [] => []
  | t :: ts => t.toJson :: toJsonAll ts

end

/-- Reads a template that is at most `fuel` levels deep. -/
def ofJsonAt : Nat → Json → Option Template
  | 0, _ => none
  | fuel + 1, j => do
    let fs ← j.record ["content", "children"]
    return node (← fs.get "content" Content.ofJson?) (← fs.get "children" (asList (ofJsonAt fuel)))

/-- Reads a template. -/
def ofJson? (j : Json) : Option Template := ofJsonAt j.depth j

/-- A template as an operator holds it. -/
def patternToJson (t : Template) : Json := obj [("root", t.toJson)]

/-- Reads a template as an operator holds it. -/
def ofPatternJson? (j : Json) : Option Template := do (← j.record ["root"]).get "root" ofJson?

end Template

end TwigAlgebra
