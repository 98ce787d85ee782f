import TwigAlgebra.Binary64.Basic

/-!
# Configuration tables

A configuration text describes a table of named values, some of them tables again.  Where a table
came from decides what may still be added to it: a table under a header is closed to dotted keys,
a table that only lies on the way to another may still get a header of its own, and an inline
table is complete as it stands.

## Main definitions

* `Toml` — the values.
* `Toml.Entries` — the entries of a table.
* `Toml.assign`, `Toml.openTable`, `Toml.openElement` — what a line of a text does to the table.
-/

namespace TwigAlgebra

/-- How a table came about. -/
inductive TableKind where
  /-- It has a header. -/
  | headed : TableKind
  /-- It lies on the way to a table with a header. -/
  | implied : TableKind
  /-- A dotted key made it. -/
  | dotted : TableKind
  deriving DecidableEq, Repr, Inhabited

/-- A value of a configuration. -/
inductive Toml where
  /-- Text. -/
  | string (s : String) : Toml
  /-- A whole number. -/
  | integer (i : Int) : Toml
  /-- A double. -/
  | float (x : Binary64) : Toml
  /-- A truth value. -/
  | boolean (b : Bool) : Toml
  /-- A date, a time of day, or both, as written. -/
  | moment (s : String) : Toml
  /-- A list of values. -/
  | array (items : List Toml) : Toml
  /-- A table written in place. -/
  | inlined (entries : List (String × Toml)) : Toml
  /-- A table written line by line. -/
  | table (kind : TableKind) (entries : List (String × Toml)) : Toml
  /-- A list of tables, each written under a header of its own; it is not empty. -/
  | elements (tables : List (List (String × Toml))) : Toml
  deriving Repr, Inhabited

namespace Toml

/-- The entries of a table; no key occurs twice. -/
abbrev Entries := List (String × Toml)

/-- The value of a key. -/
def find? (es : Entries) (key : String) : Option Toml := (es.find? fun e => e.1 = key).map (·.2)

/-- Sets the value of a key. -/
def set (es : Entries) (key : String) (v : Toml) : Entries :=
  if (find? es key).isSome then es.map fun e => if e.1 = key then (key, v) else e
  else es ++ [(key, v)]

theorem find?_cons (e : String × Toml) (es : Entries) (name : String) :
    find? (e :: es) name = if e.1 = name then some e.2 else find? es name := by
  by_cases h : e.1 = name <;> simp [find?, h]

theorem find?_append (es fs : Entries) (name : String) :
    find? (es ++ fs) name = (find? es name).or (find? fs name) := by
  induction es with
  | nil => rfl
  | cons e es ih => by_cases h : e.1 = name <;> simp [find?_cons, h, ih]

/-- Setting an entry gives its key the value and leaves the other keys alone. -/
theorem find?_set (es : Entries) (key : String) (v : Toml) (name : String) :
    find? (set es key v) name = if name = key then some v else find? es name := by
  have replaced : ∀ es : Entries, find? (es.map fun e => if e.1 = key then (key, v) else e) name
      = if name = key then (find? es name).map fun _ => v else find? es name := by
    intro es
    induction es with
    | nil => simp [find?]
    | cons e es ih =>
      rw [List.map_cons, find?_cons, find?_cons, ih]
      by_cases he : e.1 = key
      · by_cases hn : name = key
        · simp [he, hn]
        · simp [he, hn, Ne.symm hn]
      · by_cases hn : name = key
        · simp [he, hn]
        · simp [he, hn]
  by_cases hk : (find? es key).isSome
  · simp only [set, hk, if_true, replaced]
    by_cases hn : name = key
    · subst hn
      obtain ⟨old, hold⟩ := Option.isSome_iff_exists.mp hk
      simp [hold]
    · simp [hn]
  · have absent : find? es key = none := by simpa using hk
    simp only [set, absent, Option.isSome_none, Bool.false_eq_true, if_false, find?_append,
      find?_cons]
    by_cases hn : name = key
    · subst hn; simp [absent]
    · simp [hn, Ne.symm hn, find?]

/-- Changes the table at the end of a path of keys; tables on the way that do not exist are made.
`made` is the kind of these; dotted keys do not enter tables with a header.  In a list of tables
the way leads into the last. -/
def descend (made : TableKind) (change : TableKind → Entries → Option Entries) :
    List String → TableKind → Entries → Option Entries
  | [], kind, es => change kind es
  | key :: path, _, es => do
    match find? es key with
    | none => return set es key (.table made (← descend made change path made []))
    | some (.table kind inner) =>
      if made = .dotted ∧ kind = .headed then none
      else return set es key (.table kind (← descend made change path kind inner))
    | some (.elements tables) =>
      let last ← tables.getLast?
      return set es key
        (.elements (tables.dropLast ++ [← descend made change path .headed last]))
    | some _ => none

/-- Adds an entry under a dotted key, whose last part is `key`, to a table.  The key must be new,
and a table reached by a dotted key must be made by dotted keys only. -/
def assign (path : List String) (key : String) (v : Toml) (kind : TableKind) (es : Entries) :
    Option Entries :=
  descend .dotted (fun kind es =>
    if (kind == .dotted) == path.isEmpty then none
    else if (find? es key).isSome then none
    else some (set es key v)) path kind es

/-- The table `key` of a table gets its header.  It must be new or lie on the way to another. -/
def openTable (key : String) (es : Entries) : Option Entries :=
  match find? es key with
  | none => some (set es key (.table .headed []))
  | some (.table .implied inner) => some (set es key (.table .headed inner))
  | some _ => none

/-- The list of tables `key` of a table gets a new element. -/
def openElement (key : String) (es : Entries) : Option Entries :=
  match find? es key with
  | none => some (set es key (.elements [[]]))
  | some (.elements tables) => some (set es key (.elements (tables ++ [[]])))
  | some _ => none

end Toml

end TwigAlgebra
