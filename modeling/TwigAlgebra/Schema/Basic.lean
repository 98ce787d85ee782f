import TwigAlgebra.Reference
import TwigAlgebra.Pattern.Node

/-!
# Nested schemas

The tuples of an operator are described by a list of columns.  A column is a scalar or holds
tuples of its own, described by columns again.  A column may remember the key it carries.

## Main definitions

* `ScalarType` — the types of scalar columns.
* `Column`, `Schema` — columns and lists of them.
* `Schema.width`, `Schema.leafCount` — the columns at the top level, and the scalars at all levels.
* `Schema.carries` — whether some column, at any level, carries a key.
* `Schema.concat` — the columns of several schemas, one schema after the other.
-/

namespace TwigAlgebra

/-- The type of a scalar column. -/
inductive ScalarType where
  /-- The identifier of a document or a node. -/
  | id : ScalarType
  /-- Text. -/
  | string : ScalarType
  /-- A serialised subtree. -/
  | xml : ScalarType
  /-- A whole number, the result of counting. -/
  | integer : ScalarType
  /-- A number, the result of any other aggregation. -/
  | double : ScalarType
  deriving DecidableEq, Repr, Inhabited

/-- The written form of a type. -/
def ScalarType.text : ScalarType → String
  | id => "ID"
  | string => "String"
  | xml => "XML"
  | integer => "Integer"
  | double => "Double"

/-- The type of the column that carries a variable of the given kind. -/
def VarKind.scalarType : VarKind → ScalarType
  | nodeId => .id
  | value => .string
  | content => .xml

/-- A column: what it carries, if that is known, and its shape. -/
inductive Column where
  /-- A scalar column. -/
  | scalar (origin : Option ColumnKey) (type : ScalarType) : Column
  /-- A column of nested tuples with the given columns. -/
  | nested (origin : Option ColumnKey) (columns : List Column) : Column
  deriving Repr, Inhabited

/-- The columns of a tuple, in order. -/
structure Schema where
  /-- The columns at the top level. -/
  columns : List Column
  deriving Repr, Inhabited

mutual

/-- Equality of columns is decided level by level. -/
def Column.decEq : (a b : Column) → Decidable (a = b)
  | .scalar o t, .scalar o' t' =>
    if h : o = o' ∧ t = t' then .isTrue (by rw [h.1, h.2])
    else .isFalse fun e => h (by cases e; exact ⟨rfl, rfl⟩)
  | .nested o cs, .nested o' cs' =>
    match Column.decEqAll cs cs' with
    | .isTrue h =>
      if h' : o = o' then .isTrue (by rw [h, h']) else .isFalse fun e => h' (by cases e; rfl)
    | .isFalse h => .isFalse fun e => h (by cases e; rfl)
  | .scalar .., .nested .. => .isFalse nofun
  | .nested .., .scalar .. => .isFalse nofun

/-- Equality of lists of columns. -/
def Column.decEqAll : (as bs : List Column) → Decidable (as = bs)
  | [], [] => .isTrue rfl
  | a :: as, b :: bs =>
    match Column.decEq a b, Column.decEqAll as bs with
    | .isTrue h, .isTrue h' => .isTrue (by rw [h, h'])
    | .isFalse h, _ => .isFalse fun e => h (by cases e; rfl)
    | _, .isFalse h => .isFalse fun e => h (by cases e; rfl)
  | [], _ :: _ => .isFalse nofun
  | _ :: _, [] => .isFalse nofun

end

instance : DecidableEq Column := Column.decEq

deriving instance DecidableEq for Schema

namespace Column

/-- What the column carries. -/
def origin : Column → Option ColumnKey
  | scalar o _ => o
  | nested o _ => o

/-- The columns inside a nested column. -/
def inner? : Column → Option (List Column)
  | scalar .. => none
  | nested _ cs => some cs

/-- A scalar column that carries a key. -/
def carrying (key : ColumnKey) (type : ScalarType) : Column := scalar (some key) type

/-- A nested column that carries nothing itself. -/
def nesting (columns : List Column) : Column := nested none columns

mutual

/-- The number of scalars in a column, at all levels. -/
def leafCount : Column → Nat
  | scalar .. => 1
  | nested _ cs => leafCountAll cs

/-- The number of scalars in some columns, at all levels. -/
def leafCountAll : List Column → Nat
  | [] => 0
  | c :: cs => c.leafCount + leafCountAll cs

end

mutual

/-- Whether a column carries a key, itself or inside. -/
def carries (key : ColumnKey) : Column → Bool
  | scalar o _ => o == some key
  | nested o cs => o == some key || carriesAny key cs

/-- Whether one of some columns carries a key, itself or inside. -/
def carriesAny (key : ColumnKey) : List Column → Bool
  | [] => false
  | c :: cs => c.carries key || carriesAny key cs

end

mutual

/-- The shape of a column: a type, or the shapes inside in brackets. -/
def text : Column → String
  | scalar _ t => t.text
  | nested _ cs => "[" ++ String.intercalate ", " (texts cs) ++ "]"

/-- The shapes of some columns. -/
def texts : List Column → List String
  | [] => []
  | c :: cs => c.text :: texts cs

end

@[simp] theorem leafCount_scalar (o : Option ColumnKey) (t : ScalarType) :
    (scalar o t).leafCount = 1 := rfl

@[simp] theorem leafCount_nested (o : Option ColumnKey) (cs : List Column) :
    (nested o cs).leafCount = leafCountAll cs := rfl

@[simp] theorem leafCountAll_nil : leafCountAll [] = 0 := rfl

@[simp] theorem leafCountAll_cons (c : Column) (cs : List Column) :
    leafCountAll (c :: cs) = c.leafCount + leafCountAll cs := rfl

@[simp] theorem carries_scalar (key : ColumnKey) (o : Option ColumnKey) (t : ScalarType) :
    (scalar o t).carries key = (o == some key) := rfl

@[simp] theorem carries_nested (key : ColumnKey) (o : Option ColumnKey) (cs : List Column) :
    (nested o cs).carries key = (o == some key || carriesAny key cs) := rfl

@[simp] theorem carriesAny_nil (key : ColumnKey) : carriesAny key [] = false := rfl

@[simp] theorem carriesAny_cons (key : ColumnKey) (c : Column) (cs : List Column) :
    carriesAny key (c :: cs) = (c.carries key || carriesAny key cs) := rfl

end Column

namespace Schema

/-- No columns. -/
def empty : Schema := ⟨[]⟩

/-- The number of columns at the top level. -/
def width (s : Schema) : Nat := s.columns.length

/-- The column at a position of the top level. -/
def column? (s : Schema) (i : Nat) : Option Column := s.columns[i]?

/-- The schema inside the column at a position, if that is nested. -/
def nested? (s : Schema) (i : Nat) : Option Schema := (s.column? i).bind fun c => c.inner?.map .mk

/-- Adds a column at the end. -/
def push (s : Schema) (c : Column) : Schema := ⟨s.columns ++ [c]⟩

/-- The columns of several schemas, one schema after the other. -/
def concat (parts : List Schema) : Schema := ⟨parts.flatMap (·.columns)⟩

/-- The number of scalars at all levels. -/
def leafCount (s : Schema) : Nat := Column.leafCountAll s.columns

/-- Whether some column, at any level, carries a key. -/
def carries (s : Schema) (key : ColumnKey) : Bool := Column.carriesAny key s.columns

/-- The shape of a schema: the shapes of its columns in brackets. -/
def text (s : Schema) : String := (Column.nesting s.columns).text

@[simp] theorem width_empty : empty.width = 0 := rfl

@[simp] theorem width_push (s : Schema) (c : Column) : (s.push c).width = s.width + 1 := by
  simp [width, push]

@[simp] theorem concat_nil : concat [] = empty := rfl

@[simp] theorem columns_concat (parts : List Schema) :
    (concat parts).columns = parts.flatMap columns := rfl

theorem width_concat_cons (p : Schema) (ps : List Schema) :
    (concat (p :: ps)).width = p.width + (concat ps).width := by
  simp [width]

end Schema

end TwigAlgebra
