import TwigAlgebra.Compile
import TwigAlgebra.Toml.Reader

/-!
# Options in configurations

The options stand in two tables, `optimizer` and `remap`.  What is left out stands for its
default, and unknown keys are ignored.  A list in the place of a table gives the options in their
order, and a date stands for a table without known keys.

## Main definitions

* `Options.ofToml?` — reads the options from a configuration.
* `Options.toToml` — writes them.
-/

namespace TwigAlgebra

open Toml

namespace Toml

/-- A truth value. -/
def asBool : Toml → Option Bool
  | boolean b => some b
  | _ => none

/-- The known entries of a table whose keys are `names`, in the order in which a list gives
them. -/
def known (names : List String) : Toml → Option (String → Option Toml)
  | table _ es => some (find? es)
  | inlined es => some (find? es)
  | array items => some (find? (names.zip items))
  | elements tables => some (find? (names.zip (tables.map (table .headed))))
  | moment _ => some fun _ => none
  | _ => none

/-- The truth value of an entry, `true` if it is left out. -/
def switch (get : String → Option Toml) (name : String) : Option Bool :=
  match get name with
  | none => some true
  | some v => v.asBool

/-- The line that gives an entry a truth value. -/
def switchLine (name : String) (b : Bool) : String :=
  name ++ " = " ++ (if b then "true" else "false") ++ "\n"

end Toml

/-- Reads the choice of rules. -/
def Minimisation.ofToml? (v : Toml) : Option Minimisation := do
  let get ← v.known ["enabled", "minimize_storage", "prune_branches"]
  return ⟨← switch get "enabled", ← switch get "minimize_storage", ← switch get "prune_branches"⟩

/-- Reads the choice of checks. -/
def Checks.ofToml? (v : Toml) : Option Checks := do
  let get ← v.known ["check_declared_schemas", "validate_plan"]
  return ⟨← switch get "check_declared_schemas", ← switch get "validate_plan"⟩

namespace Options

/-- Reads the options from the entries of a configuration. -/
def ofEntries? (es : Entries) : Option Options := do
  let rules ← match find? es "optimizer" with
    | none => some .all
    | some v => Minimisation.ofToml? v
  let checks ← match find? es "remap" with
    | none => some .all
    | some v => Checks.ofToml? v
  return ⟨rules, checks⟩

/-- Reads the options from a configuration text. -/
def ofToml? (s : String) : Except PlanError Options :=
  match (Toml.parse s).bind ofEntries? with
  | some o => .ok o
  | none => .error .badOptions

/-- The options as a configuration text. -/
def toToml (o : Options) : String :=
  "[optimizer]\n" ++ switchLine "enabled" o.rules.enabled
    ++ switchLine "minimize_storage" o.rules.minimizeStorage
    ++ switchLine "prune_branches" o.rules.pruneBranches
    ++ "\n[remap]\n" ++ switchLine "check_declared_schemas" o.checks.declaredSchemas
    ++ switchLine "validate_plan" o.checks.plan

end Options

end TwigAlgebra
