import TwigAlgebra.Pattern.Walk

/-!
# Renderings of patterns

A pattern is rendered on one line: each node's label, then its edges, in parentheses when there
are several.  The brief labels show tags, tests and stored data.  The full labels show the codes
and every flag; they order patterns, and patterns with the same full rendering count as equal.

## Main definitions

* `Node.brief`, `Node.full` — the two labels of a node.
* `Pattern.render` — the rendering of a subtree under either label.
* `Pattern.compareNodes`, `Pattern.compare` — the order of subtrees and patterns.
-/

namespace TwigAlgebra

/-- `s` if `b` holds, otherwise nothing. -/
def mark (b : Bool) (s : String) : String := if b then s else ""

@[simp] theorem mark_true (s : String) : mark true s = s := rfl

@[simp] theorem mark_false (s : String) : mark false s = "" := rfl

namespace Node

/-- Marks for virtual nodes and attributes. -/
def kindMarks (n : Node) : String := mark n.isVirtual "~" ++ mark n.isAttribute "@"

/-- The tag behind its namespace. -/
def qualifiedTag (n : Node) : String := mark (n.ns ≠ "") (n.ns ++ ":") ++ n.tag

/-- The test in a brief label.  A comparison with text is shown as equality. -/
def briefTest : Option ValueTest → String
  | none => ""
  | some ⟨_, .string s⟩ => " \x7b=" ++ (Literal.string s).text ++ "\x7d "
  | some ⟨c, .number x⟩ => " \x7b" ++ c.symbol ++ (Literal.number x).text ++ "\x7d"

/-- The brief label: an asterisk stands for a stored identifier, `C` for content, `V` for the
value. -/
def brief (n : Node) : String :=
  n.kindMarks ++ n.qualifiedTag ++ mark n.stores.id "*" ++ mark n.stores.content "C"
    ++ mark n.stores.value "V" ++ briefTest n.test

/-- The test in a full label. -/
def fullTest : Option ValueTest → String
  | none => ""
  | some t => "#V\x7b" ++ t.comparison.symbol ++ t.value.text ++ "\x7d"

/-- The full label: the code, what is stored and required, and the test. -/
def full (n : Node) : String :=
  n.kindMarks ++ (if n.selectsTag then n.qualifiedTag else anyTag) ++ "(" ++ n.code.text ++ ")"
    -- each requirement is the same letter, and only its place tells what is required
    ++ mark n.stores.tag "_S" ++ mark n.requires.tag "R"
    ++ mark n.stores.id "*" ++ mark n.requires.id "R"
    ++ fullTest n.test
    ++ mark n.stores.value "#V" ++ mark n.requires.value "R"
    ++ mark n.stores.content "#C"

end Node

/-- The marks of an edge: its axis, `N` when nested, `O` when optional. -/
def EdgeFlags.marks (e : EdgeFlags) : String :=
  (if e.direct then "/" else "//") ++ mark e.nested "N" ++ mark e.optional "O"

namespace Pattern

/-- The rendering of the subtree of `h`, not deeper than `fuel`. -/
def renderFrom (p : Pattern) (label : Node → String) : Nat → Handle → Option String
  | 0, _ => none
  | fuel + 1, h => do
    let n ← p.node? h
    let branches ← n.edges.mapM fun e => do
      return e.marks ++ " " ++ (← renderFrom p label fuel e.child) ++ " "
    let below := String.join branches
    return label n ++ if 1 < n.edges.length then "(" ++ below ++ ")" else below

/-- The rendering of a subtree. -/
def render (p : Pattern) (label : Node → String) (h : Handle) : Option String :=
  p.renderFrom label p.size h

/-- The rendering of a whole pattern. -/
def text (p : Pattern) (label : Node → String) : Option String := p.render label p.root

/-- The order of two subtrees: by the full labels of their top nodes, then by their full
renderings. -/
def compareNodes (p : Pattern) (a : Handle) (q : Pattern) (b : Handle) : Option Ordering := do
  match compare (← p.node? a).full (← q.node? b).full with
  | .eq => return compare (← p.render Node.full a) (← q.render Node.full b)
  | o => return o

/-- The order of two patterns. -/
def compare (p q : Pattern) : Option Ordering := p.compareNodes p.root q q.root

end Pattern

end TwigAlgebra
