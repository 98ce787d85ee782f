import TwigAlgebra.Schema.Positions

/-!
# Output templates

The operator at the top of a plan builds documents from tuples after a template, a tree of
elements, attributes and constant text in which paths stand for values taken from the tuple.  The
first reference of a path is a column of the tuple, and each further one a column of the tuples
nested in the column before.

## Main definitions

* `Content`, `Template` — what a template node emits, and template trees.
* `Template.paths` — the paths, in document order.
* `Template.resolve` — replaces the references of the paths by positions.
-/

namespace TwigAlgebra

/-- What a template node emits. -/
inductive Content where
  /-- An element around what the children emit. -/
  | element (tag : String) : Content
  /-- An attribute whose value the children emit. -/
  | attr (name : String) : Content
  /-- Constant text. -/
  | text (s : String) : Content
  /-- The value at a path. -/
  | path (slots : List ColumnRef) : Content
  deriving DecidableEq, Repr, Inhabited

/-- A template: what its top node emits, and the templates of the children. -/
inductive Template where
  /-- A node with its children in document order. -/
  | node (content : Content) (children : List Template) : Template
  deriving Repr, Inhabited

mutual

/-- Equality of templates is decided node by node. -/
def Template.decEq : (a b : Template) → Decidable (a = b)
  | .node c ts, .node c' ts' =>
    match Template.decEqAll ts ts' with
    | .isTrue h =>
      if h' : c = c' then .isTrue (by rw [h, h']) else .isFalse fun e => h' (by cases e; rfl)
    | .isFalse h => .isFalse fun e => h (by cases e; rfl)

/-- Equality of lists of templates. -/
def Template.decEqAll : (as bs : List Template) → Decidable (as = bs)
  | [], [] => .isTrue rfl
  | a :: as, b :: bs =>
    match Template.decEq a b, Template.decEqAll as bs with
    | .isTrue h, .isTrue h' => .isTrue (by rw [h, h'])
    | .isFalse h, _ => .isFalse fun e => h (by cases e; rfl)
    | _, .isFalse h => .isFalse fun e => h (by cases e; rfl)
  | [], _ :: _ => .isFalse nofun
  | _ :: _, [] => .isFalse nofun

end

instance : DecidableEq Template := Template.decEq

namespace Content

/-- The path of a node that has one. -/
def path? : Content → Option (List ColumnRef)
  | path slots => some slots
  | _ => none

/-- The written form of a node around the written forms of its children; text and paths show no
children. -/
def render (children : String) : Content → String
  | element tag => "<" ++ tag ++ ">" ++ children ++ "</" ++ tag ++ ">"
  | attr name => "@" ++ name ++ "=\"" ++ children ++ "\""
  | text s => s
  | path slots => "\x7b" ++ String.intercalate "." (slots.map ColumnRef.text) ++ "\x7d"

/-- The operator in whose name templates are resolved. -/
def reader : String := "XMLTreeConstruct"

/-- Resolves the path of a node that has one. -/
def resolve (ps : Positions) : Content → Attempt Content
  | path slots => (ps.resolvePath reader slots).map path
  | c => .done c

end Content

namespace Template

mutual

/-- The written form of a template. -/
def text : Template → String
  | node c ts => c.render (textAll ts)

/-- The written forms of some templates, one after the other. -/
def textAll : List Template → String
  | [] => ""
  | t :: ts => t.text ++ textAll ts

end

mutual

/-- The paths of a template, in document order. -/
def paths : Template → List (List ColumnRef)
  | node c ts => c.path?.toList ++ pathsAll ts

/-- The paths of some templates, in document order. -/
def pathsAll : List Template → List (List ColumnRef)
  | [] => []
  | t :: ts => t.paths ++ pathsAll ts

end

@[simp] theorem paths_node (c : Content) (ts : List Template) :
    (node c ts).paths = c.path?.toList ++ pathsAll ts := rfl

mutual

/-- Resolves the references of a template in document order. -/
def resolve (ps : Positions) : Template → Attempt Template
  | node c ts =>
    let r := c.resolve ps
    match r.failure with
    | none => (resolveEach ps ts).map (node r.value)
    | some e => .stopped (node r.value ts) e

/-- Resolves the references of some templates in document order. -/
def resolveEach (ps : Positions) : List Template → Attempt (List Template)
  | [] => .done []
  | t :: ts =>
    let r := t.resolve ps
    match r.failure with
    | none => (resolveEach ps ts).map (r.value :: ·)
    | some e => .stopped (r.value :: ts) e

end

/-- The symbolic keys of the paths, in document order. -/
def keys (t : Template) : List ColumnKey := ColumnRef.keys t.paths.flatten

/-- No reference is symbolic any more. -/
def isResolved (t : Template) : Bool := t.keys.isEmpty

end Template

end TwigAlgebra
