import TwigAlgebra.Minimise
import TwigAlgebra.Plan.Validate
import TwigAlgebra.Resolution

/-!
# Compiling plans

Compiling a plan checks it, minimises its patterns and resolves its columns.

## Main definitions

* `Checks`, `Options` — what is checked, and all choices together.
* `Query.compile` — the three steps.
-/

namespace TwigAlgebra

/-- What is checked around resolution. -/
structure Checks where
  /-- Declared schemas must have the computed width. -/
  declaredSchemas : Bool
  /-- The plan must be sound before anything is changed. -/
  plan : Bool
  deriving DecidableEq, Repr, Inhabited

/-- Everything is checked. -/
def Checks.all : Checks := ⟨true, true⟩

/-- The choices of a compilation. -/
structure Options where
  /-- How patterns are minimised. -/
  rules : Minimisation
  /-- What is checked. -/
  checks : Checks
  deriving DecidableEq, Repr, Inhabited

/-- Every rule applies and everything is checked. -/
def Options.default : Options := ⟨.all, .all⟩

namespace Query

/-- Checks a plan: it is sound, and its codes lie below the next code of the counters. -/
def check (c : Counters) (q : Query) : Except PlanError Unit := do
  q.root.validate
  q.root.codesBelow c.code

/-- Checks the plan if asked to, minimises it and resolves it. -/
def compile (o : Options) (c : Counters) (q : Query) : Attempt (Query × Savings) :=
  let checked : Except PlanError Unit := if o.checks.plan then q.check c else .ok ()
  match checked with
  -- what the check refuses is left as it is
  | .error e => .stopped (q, .zero) e
  | .ok _ => (q.minimise o.rules).andThen fun (q, saved) =>
      (q.resolve o.checks.declaredSchemas).map fun q => (q, saved)

end Query

end TwigAlgebra
