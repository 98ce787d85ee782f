import TwigAlgebra.Compile
import TwigAlgebra.Json.Basic

/-!
# Options as structured values

Every option may be left out and then stands for its default, under which all rules and checks
apply.

## Main definitions

* `Options.toJson`, `Options.ofJson?` — options.
-/

namespace TwigAlgebra

open Json

namespace Minimisation

/-- The choice of rules as a value. -/
def toJson (m : Minimisation) : Json :=
  obj [("enabled", bool m.enabled), ("minimize_storage", bool m.minimizeStorage),
    ("prune_branches", bool m.pruneBranches)]

/-- Reads the choice of rules. -/
def ofJson? (j : Json) : Option Minimisation := do
  let fs ← j.partialRecord ["enabled", "minimize_storage", "prune_branches"]
  return ⟨← fs.getD "enabled" asBool true, ← fs.getD "minimize_storage" asBool true,
    ← fs.getD "prune_branches" asBool true⟩

end Minimisation

namespace Checks

/-- The choice of checks as a value. -/
def toJson (c : Checks) : Json :=
  obj [("check_declared_schemas", bool c.declaredSchemas), ("validate_plan", bool c.plan)]

/-- Reads the choice of checks. -/
def ofJson? (j : Json) : Option Checks := do
  let fs ← j.partialRecord ["check_declared_schemas", "validate_plan"]
  return ⟨← fs.getD "check_declared_schemas" asBool true, ← fs.getD "validate_plan" asBool true⟩

end Checks

namespace Options

/-- Options as a value. -/
def toJson (o : Options) : Json :=
  obj [("optimizer", o.rules.toJson), ("remap", o.checks.toJson)]

/-- Reads options. -/
def ofJson? (j : Json) : Option Options := do
  let fs ← j.partialRecord ["optimizer", "remap"]
  return ⟨← fs.getD "optimizer" Minimisation.ofJson? .all, ← fs.getD "remap" Checks.ofJson? .all⟩

end Options

end TwigAlgebra
