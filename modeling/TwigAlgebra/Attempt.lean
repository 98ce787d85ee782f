import TwigAlgebra.Error

/-!
# Attempts

Resolving the columns of a predicate, a template or an operator replaces them one after the other
and stops at the first that cannot be resolved.  What was replaced until then stays replaced.  An
attempt therefore holds a value in either case, and beside it the failure that stopped it, if one
did.

## Main definitions

* `Attempt` — a value and perhaps a failure.
* `Attempt.map`, `Attempt.andThen`, `Attempt.check` — going on after an attempt.
* `Attempt.each` — an attempt on each element of a list in turn.
-/

namespace TwigAlgebra

/-- A value as far as it was worked on, and the failure that stopped the work, if one did. -/
structure Attempt (α : Type) where
  /-- The value, complete if there is no failure. -/
  value : α
  /-- Why the work stopped early. -/
  failure : Option PlanError
  deriving DecidableEq, Repr

namespace Attempt

variable {α β : Type}

/-- The work is complete. -/
def done (a : α) : Attempt α := ⟨a, none⟩

/-- The work stopped at `a`. -/
def stopped (a : α) (e : PlanError) : Attempt α := ⟨a, some e⟩

/-- The outcome of replacing `a`, which stays as it is on failure. -/
def replacing (a : α) : Except PlanError α → Attempt α
  | .ok b => done b
  | .error e => stopped a e

/-- Puts the value, finished or not, into its surroundings. -/
def map (f : α → β) (r : Attempt α) : Attempt β := ⟨f r.value, r.failure⟩

/-- Goes on with the value unless the work has stopped. -/
def andThen (r : Attempt α) (next : α → Attempt α) : Attempt α :=
  match r.failure with
  | none => next r.value
  | some _ => r

/-- Examines the value unless the work has stopped. -/
def check (r : Attempt α) (test : α → Except PlanError Unit) : Attempt α :=
  r.andThen fun a =>
    match test a with
    | .ok _ => done a
    | .error e => stopped a e

/-- What follows from the finished value. -/
def outcome (r : Attempt α) (f : α → Except PlanError β) : Except PlanError β :=
  match r.failure with
  | none => f r.value
  | some e => .error e

/-- Works on the elements of a list in turn; from the first failure on they stay as they are. -/
def each (f : α → Attempt α) : List α → Attempt (List α)
  | [] => done []
  | a :: as =>
    let r := f a
    match r.failure with
    | none => (each f as).map (r.value :: ·)
    | some e => stopped (r.value :: as) e

@[simp] theorem value_done (a : α) : (done a).value = a := rfl

@[simp] theorem failure_done (a : α) : (done a).failure = none := rfl

@[simp] theorem value_stopped (a : α) (e : PlanError) : (stopped a e).value = a := rfl

@[simp] theorem failure_stopped (a : α) (e : PlanError) : (stopped a e).failure = some e := rfl

@[simp] theorem value_map (f : α → β) (r : Attempt α) : (r.map f).value = f r.value := rfl

@[simp] theorem failure_map (f : α → β) (r : Attempt α) : (r.map f).failure = r.failure := rfl

@[simp] theorem andThen_done (a : α) (next : α → Attempt α) : (done a).andThen next = next a := rfl

@[simp] theorem andThen_stopped (a : α) (e : PlanError) (next : α → Attempt α) :
    (stopped a e).andThen next = stopped a e := rfl

@[simp] theorem each_nil (f : α → Attempt α) : each f [] = done [] := rfl

/-- The work on a list is complete exactly when the work on every element is. -/
theorem failure_each_eq_none_iff {f : α → Attempt α} {l : List α} :
    (each f l).failure = none ↔ ∀ a ∈ l, (f a).failure = none := by
  induction l with
  | nil => simp
  | cons a as ih =>
    cases h : (f a).failure <;> simp [each, h, ih]

/-- Complete work on a list has worked on every element. -/
theorem value_each_of_complete {f : α → Attempt α} {l : List α}
    (h : ∀ a ∈ l, (f a).failure = none) : (each f l).value = l.map fun a => (f a).value := by
  induction l with
  | nil => rfl
  | cons a as ih =>
    have ha := h a (by simp)
    have has := ih fun b hb => h b (by simp [hb])
    simp [each, ha, has]

end Attempt

end TwigAlgebra
