import TwigAlgebra.Json.Basic
import TwigAlgebra.Schema.Basic

/-!
# References and schemas as structured values

Each type has a writer `toJson` and a reader `ofJson?`; a reader refuses what does not fit.  The
readers of recursive types go no deeper than the value.

## Main definitions

* `ColumnRef.toJson`, `ColumnRef.ofJson?` — references.
* `Schema.toJson`, `Schema.ofJson?` — schemas.
-/

namespace TwigAlgebra

open Json

namespace ColumnKey

/-- A key as a value. -/
def toJson : ColumnKey → Json
  | var v => tagged "Var" (word v.val)
  | docId s => tagged "DocId" (word s.val)
  | document s => tagged "Document" (word s.val)

/-- Reads a key. -/
def ofJson? (j : Json) : Option ColumnKey := do
  match ← j.variant with
  | ("Var", some n) => return var ⟨← n.asWord⟩
  | ("DocId", some n) => return docId ⟨← n.asWord⟩
  | ("Document", some n) => return document ⟨← n.asWord⟩
  | _ => none

end ColumnKey

namespace ColumnRef

/-- A reference as a value. -/
def toJson : ColumnRef → Json
  | symbolic key => tagged "Symbolic" key.toJson
  | resolved i => tagged "Resolved" (nat i)

/-- Reads a reference. -/
def ofJson? (j : Json) : Option ColumnRef := do
  match ← j.variant with
  | ("Symbolic", some key) => return symbolic (← ColumnKey.ofJson? key)
  | ("Resolved", some i) => return resolved (← i.asNat)
  | _ => none

end ColumnRef

namespace ScalarType

/-- The names of the types. -/
def names : List (String × ScalarType) :=
  [("Id", id), ("String", string), ("Xml", xml), ("Integer", integer), ("Double", double)]

/-- A type as a value. -/
def toJson : ScalarType → Json
  | id => str "Id"
  | string => str "String"
  | xml => str "Xml"
  | integer => str "Integer"
  | double => str "Double"

/-- Reads a type. -/
def ofJson? : Json → Option ScalarType := asChoice names

end ScalarType

namespace Column

/-- The names of a column's fields. -/
def fieldNames : List String := ["origin", "kind"]

/-- The name of a schema's field. -/
def schemaFieldNames : List String := ["columns"]

mutual

/-- A column as a value. -/
def toJson : Column → Json
  | scalar o t =>
    obj [("origin", option ColumnKey.toJson o), ("kind", tagged "Scalar" t.toJson)]
  | nested o cs =>
    obj [("origin", option ColumnKey.toJson o),
      ("kind", tagged "Nested" (obj [("columns", arr (toJsonAll cs))]))]

/-- Some columns as values. -/
def toJsonAll : List Column → List Json
  | [] => []
  | c :: cs => c.toJson :: toJsonAll cs

end

/-- Reads a column that is nested at most `fuel` levels deep. -/
def ofJsonAt : Nat → Json → Option Column
  | 0, _ => none
  | fuel + 1, j => do
    let fs ← j.record fieldNames
    let origin ← fs.optional "origin" ColumnKey.ofJson?
    match ← (← fs "kind").variant with
    | ("Scalar", some t) => return scalar origin (← ScalarType.ofJson? t)
    | ("Nested", some s) =>
      return nested origin (← (← s.record schemaFieldNames).get "columns" (asList (ofJsonAt fuel)))
    | _ => none

end Column

namespace Schema

/-- A schema as a value. -/
def toJson (s : Schema) : Json := obj [("columns", arr (Column.toJsonAll s.columns))]

/-- Reads a schema. -/
def ofJson? (j : Json) : Option Schema := do
  return ⟨← (← j.record Column.schemaFieldNames).get "columns" (asList (Column.ofJsonAt j.depth))⟩

end Schema

end TwigAlgebra
