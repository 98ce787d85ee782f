import TwigAlgebra.Ids

/-!
# Column keys and references

An operator's parameters name columns of its input.  Before resolution a column is named by what
it carries, a `ColumnKey`; afterwards by its position in the input tuple.

## Main definitions

* `ColumnKey` — the symbolic identity of a column.
* `ColumnKey.le` — the order in which keys are listed.
* `ColumnRef` — a reference, symbolic or resolved.
-/

namespace TwigAlgebra

/-- What a column carries, known before any position is. -/
inductive ColumnKey where
  /-- The value of a variable: a pattern binding or the result of an aggregation. -/
  | var (v : Var) : ColumnKey
  /-- The document identifier that a scan attaches. -/
  | docId (s : ScanId) : ColumnKey
  /-- The whole document, emitted by a scan without a pattern. -/
  | document (s : ScanId) : ColumnKey
  deriving DecidableEq, Repr, Inhabited

namespace ColumnKey

/-- The written form of a key. -/
def text : ColumnKey → String
  | var v => v.text
  | docId s => s.text ++ ".docid"
  | document s => s.text ++ ".doc"

/-- The place of a key's kind in listings. -/
def rank : ColumnKey → Nat
  | var _ => 0
  | docId _ => 1
  | document _ => 2

/-- The number inside a key. -/
def number : ColumnKey → Nat
  | var v => v.val.toNat
  | docId s => s.val.toNat
  | document s => s.val.toNat

/-- Variables come before document identifiers, these before documents, and each kind is ordered
by number. -/
def le (a b : ColumnKey) : Bool :=
  a.rank < b.rank || (a.rank == b.rank && a.number ≤ b.number)

end ColumnKey

/-- A reference to a column of an operator's input. -/
inductive ColumnRef where
  /-- The column that carries `key`, wherever it is. -/
  | symbolic (key : ColumnKey) : ColumnRef
  /-- The column at `position` of the input tuple, or of a nested one on a path. -/
  | resolved (position : Nat) : ColumnRef
  deriving DecidableEq, Repr, Inhabited

namespace ColumnRef

/-- The written form of a reference; positions carry a number sign. -/
def text : ColumnRef → String
  | symbolic key => key.text
  | resolved position => "#" ++ toString position

/-- The key of a symbolic reference. -/
def key? : ColumnRef → Option ColumnKey
  | symbolic key => some key
  | resolved _ => none

/-- The position of a resolved reference. -/
def position? : ColumnRef → Option Nat
  | symbolic _ => none
  | resolved position => some position

@[simp] theorem key?_symbolic (key : ColumnKey) : (symbolic key).key? = some key := rfl

@[simp] theorem key?_resolved (i : Nat) : (resolved i).key? = none := rfl

@[simp] theorem position?_symbolic (key : ColumnKey) : (symbolic key).position? = none := rfl

@[simp] theorem position?_resolved (i : Nat) : (resolved i).position? = some i := rfl

/-- The symbolic keys of a list of references, in order. -/
def keys (columns : List ColumnRef) : List ColumnKey := columns.filterMap key?

/-- A list of references in brackets, separated by commas. -/
def listText (columns : List ColumnRef) : String :=
  "[" ++ String.intercalate ", " (columns.map text) ++ "]"

end ColumnRef

end TwigAlgebra
