import TwigAlgebra.Binary64.Basic

/-!
# Structured values

Plans, patterns and options are exchanged as values of nulls, truth values, numbers, text, lists
and records.  Whole numbers and doubles are different things: a whole number can be read where a
double is expected, but not the other way round.

## Main definitions

* `Json` — the values.
* `Json.record`, `Json.fields` — the fields of a record, by name.
* `Json.variant` — a choice between named alternatives.
* `Json.asNat`, `Json.asWord`, … — the readers of plain values.
-/

namespace TwigAlgebra

/-- A structured value. -/
inductive Json where
  /-- Nothing. -/
  | null : Json
  /-- A truth value. -/
  | bool (b : Bool) : Json
  /-- A whole number. -/
  | int (i : Int) : Json
  /-- A double. -/
  | float (x : Binary64) : Json
  /-- Text. -/
  | str (s : String) : Json
  /-- A list. -/
  | arr (items : List Json) : Json
  /-- A record; no name occurs twice. -/
  | obj (fields : List (String × Json)) : Json
  deriving Repr, Inhabited

namespace Json

mutual

/-- The nesting depth of a value. -/
def depth : Json → Nat
  | arr items => depthAll items + 1
  | obj fields => depthFields fields + 1
  | _ => 1

/-- The greatest nesting depth of some values. -/
def depthAll : List Json → Nat
  | [] => 0
  | j :: js => max j.depth (depthAll js)

/-- The greatest nesting depth of some fields. -/
def depthFields : List (String × Json) → Nat
  | [] => 0
  | (_, j) :: fs => max j.depth (depthFields fs)

end

/-! ### Plain values -/

/-- A natural number as a value. -/
def nat (n : Nat) : Json := int n

/-- A word as a value. -/
def word (w : UInt32) : Json := nat w.toNat

/-- A double as a value; the infinities and what is no number are written as nothing. -/
def double (x : Binary64) : Json := if x.isFinite then float x else null

/-- A value that may be missing. -/
def option {α : Type} (encode : α → Json) : Option α → Json
  | none => null
  | some a => encode a

/-- A list of values. -/
def list {α : Type} (encode : α → Json) (as : List α) : Json := arr (as.map encode)

/-- An alternative that carries a value. -/
def tagged (name : String) (payload : Json) : Json := obj [(name, payload)]

/-- Reads a natural number. -/
def asNat : Json → Option Nat
  | int (.ofNat n) => some n
  | _ => none

/-- Reads a 32-bit word. -/
def asWord : Json → Option UInt32
  | int (.ofNat n) => if n < UInt32.size then some (.ofNat n) else none
  | _ => none

/-- Reads a truth value. -/
def asBool : Json → Option Bool
  | bool b => some b
  | _ => none

/-- Reads text. -/
def asString : Json → Option String
  | str s => some s
  | _ => none

/-- Reads a double; a whole number stands for the nearest one. -/
def asDouble : Json → Option Binary64
  | float x => some x
  | int i => some (.ofInt i)
  | _ => none

/-- Reads a list. -/
def asList {α : Type} (decode : Json → Option α) : Json → Option (List α)
  | arr items => items.mapM decode
  | _ => none

/-- Reads a value that may be missing. -/
def asOption {α : Type} (decode : Json → Option α) : Json → Option (Option α)
  | null => some none
  | j => (decode j).map some

/-! ### Records -/

/-- The fields of a record, by name. -/
abbrev Fields := String → Option Json

/-- The field with a name in a list of fields. -/
def lookup (fields : List (String × Json)) (name : String) : Option Json :=
  (fields.find? fun f => f.1 = name).map (·.2)

@[simp] theorem lookup_nil (name : String) : lookup [] name = none := rfl

theorem lookup_cons (f : String × Json) (fields : List (String × Json)) (name : String) :
    lookup (f :: fields) name = if f.1 = name then some f.2 else lookup fields name := by
  by_cases h : f.1 = name <;> simp [lookup, h]

/-- The fields of a record in the form with names. -/
def fields : Json → Option Fields
  | obj fs => some (lookup fs)
  | _ => none

/-- The fields of a record, which has names or else lists exactly the fields with the given names
in their order. -/
def record (names : List String) : Json → Option Fields
  | obj fs => some (lookup fs)
  | arr items => if items.length = names.length then some (lookup (names.zip items)) else none
  | _ => none

/-- The fields of a record whose fields may all be missing; a list may end early. -/
def partialRecord (names : List String) : Json → Option Fields
  | obj fs => some (lookup fs)
  | arr items => if items.length ≤ names.length then some (lookup (names.zip items)) else none
  | _ => none

/-- Reads a field that must be there. -/
def Fields.get {α : Type} (fs : Fields) (name : String) (decode : Json → Option α) : Option α :=
  (fs name).bind decode

/-- Reads a field that may be missing or nothing. -/
def Fields.optional {α : Type} (fs : Fields) (name : String) (decode : Json → Option α) :
    Option (Option α) :=
  match fs name with
  | none => some none
  | some j => asOption decode j

/-- Reads a field that stands for `default` when it is missing. -/
def Fields.getD {α : Type} (fs : Fields) (name : String) (decode : Json → Option α) (default : α) :
    Option α :=
  match fs name with
  | none => some default
  | some j => decode j

/-! ### Alternatives -/

/-- The name of the chosen alternative, and what it carries, if anything. -/
def variant : Json → Option (String × Option Json)
  | str s => some (s, none)
  | obj [(name, payload)] => some (name, some payload)
  | _ => none

/-- Reads one of some alternatives that carry nothing. -/
def asChoice {α : Type} (choices : List (String × α)) (j : Json) : Option α := do
  match ← j.variant with
  | (name, none) => (choices.find? fun c => c.1 = name).map (·.2)
  | (name, some null) => (choices.find? fun c => c.1 = name).map (·.2)
  | _ => none

end Json

end TwigAlgebra
