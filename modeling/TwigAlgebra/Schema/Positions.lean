import TwigAlgebra.Attempt
import TwigAlgebra.Schema.Basic

/-!
# Where keys are in a tuple

Inside the input of one operator, a key stands for the place of the column that carries it: a path
whose first index is a position of the input tuple and whose later indices lead into nested
columns.  When several columns carry a key, the first of them counts, a nested column coming
before those inside it.

## Main definitions

* `Positions` — keys with their paths.
* `Schema.positions` — the paths of all keys that a schema carries.
* `Positions.resolveAt`, `Positions.resolve` — the position that a reference stands for.
* `Positions.resolveAll`, `Positions.resolvePath` — the same for lists of references and for paths.
-/

namespace TwigAlgebra

/-- The paths of keys; no key has two. -/
structure Positions where
  /-- The keys in the order in which they were met, each with its path. -/
  entries : List (ColumnKey × List Nat)
  deriving DecidableEq, Repr, Inhabited

namespace Positions

/-- No key has a path. -/
def none : Positions := ⟨[]⟩

/-- The path of a key. -/
def get? (ps : Positions) (key : ColumnKey) : Option (List Nat) :=
  (ps.entries.find? fun e => e.1 = key).map (·.2)

/-- Notes the path of a key unless there is no key or it has a path already. -/
def note (ps : Positions) (key : Option ColumnKey) (path : List Nat) : Positions :=
  match key with
  | .none => ps
  | some k => if (ps.get? k).isSome then ps else ⟨ps.entries ++ [(k, path)]⟩

@[simp] theorem get?_none (key : ColumnKey) : none.get? key = .none := rfl

/-- Noting a key gives it a path only if it had none, and leaves the other paths alone. -/
theorem get?_note (ps : Positions) (origin : Option ColumnKey) (path : List Nat)
    (key : ColumnKey) :
    (ps.note origin path).get? key
      = (ps.get? key).or (if origin = some key then some path else .none) := by
  cases origin with
  | none => simp [note]
  | some k =>
    cases h : ps.get? k with
    | some old =>
      by_cases hk : k = key
      · subst hk; simp [note, h]
      · simp [note, h, hk]
    | none =>
      have hnote : ps.note (some k) path = ⟨ps.entries ++ [(k, path)]⟩ := by simp [note, h]
      rw [hnote]
      by_cases hk : k = key
      · subst hk
        have hfind : ps.entries.find? (fun e => e.1 = k) = .none := by simpa [get?] using h
        simp [get?, hfind, List.find?_append]
      · simp [get?, hk, List.find?_append]

mutual

/-- Notes the column at `path` and the columns inside it. -/
def collect (path : List Nat) : Column → Positions → Positions
  | .scalar o _, ps => ps.note o path
  | .nested o cs, ps => collectAll path 0 cs (ps.note o path)

/-- Notes the columns at positions `i`, `i + 1`, … below `path`. -/
def collectAll (path : List Nat) (i : Nat) : List Column → Positions → Positions
  | [], ps => ps
  | c :: cs, ps => collectAll path (i + 1) cs (collect (path ++ [i]) c ps)

end

/-- The number of keys. -/
def size (ps : Positions) : Nat := ps.entries.length

/-- The entries in the order of their keys. -/
def sorted (ps : Positions) : List (ColumnKey × List Nat) :=
  ps.entries.mergeSort fun a b => a.1.le b.1

/-- What a reference at nesting level `depth` of a path stands for: the index of its key's path
there.  A resolved reference stands for itself. -/
def resolveAt (ps : Positions) (reader : String) (depth : Nat) :
    ColumnRef → Except PlanError ColumnRef
  | .resolved i => .ok (.resolved i)
  | .symbolic key =>
    match ps.get? key with
    | .none => .error (.unbound key reader)
    | some path =>
      match path[depth]? with
      | .none => .error (.tooShallow key reader depth)
      | some i => .ok (.resolved i)

/-- What a reference to the input tuple stands for. -/
def resolve (ps : Positions) (reader : String) (c : ColumnRef) : Except PlanError ColumnRef :=
  ps.resolveAt reader 0 c

/-- Resolves one reference. -/
def resolveOne (ps : Positions) (reader : String) (c : ColumnRef) : Attempt ColumnRef :=
  .replacing c (ps.resolve reader c)

/-- Resolves a list of references to the input tuple. -/
def resolveAll (ps : Positions) (reader : String) (cs : List ColumnRef) :
    Attempt (List ColumnRef) :=
  .each (ps.resolveOne reader) cs

/-- Resolves the references of a path from nesting level `depth` on. -/
def resolveFrom (ps : Positions) (reader : String) : Nat → List ColumnRef → Attempt (List ColumnRef)
  | _, [] => .done []
  | depth, c :: cs =>
    match ps.resolveAt reader depth c with
    | .ok c => (resolveFrom ps reader (depth + 1) cs).map (c :: ·)
    | .error e => .stopped (c :: cs) e

/-- Resolves the references of a path, each at its own nesting level. -/
def resolvePath (ps : Positions) (reader : String) (path : List ColumnRef) :
    Attempt (List ColumnRef) :=
  ps.resolveFrom reader 0 path

@[simp] theorem resolveAt_resolved (ps : Positions) (reader : String) (depth i : Nat) :
    ps.resolveAt reader depth (.resolved i) = .ok (.resolved i) := rfl

end Positions

/-- The paths of the keys that a schema carries. -/
def Schema.positions (s : Schema) : Positions := Positions.collectAll [] 0 s.columns .none

end TwigAlgebra
