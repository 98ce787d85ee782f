import TwigAlgebra.Attempt

/-!
# Laws of attempts

Which steps of an attempt are complete, and which one stopped it.  An attempt on a list stops at
the first element on which the work stops, and a check never changes the value it examines.

## Main results

* `Attempt.failure_andThen_eq_none_iff`, `Attempt.failure_andThen_eq_some_iff` — going on.
* `Attempt.failure_check_eq_none_iff`, `Attempt.failure_check_eq_some_iff` — examining.
* `Attempt.outcome_eq_ok_iff`, `Attempt.outcome_eq_error_iff` — what follows from an attempt.
* `Attempt.failure_each` — the failure of a list is that of its first failing element.
-/

namespace TwigAlgebra.Attempt

variable {α β : Type}

theorem eq_done_iff {r : Attempt α} {a : α} : r = done a ↔ r.value = a ∧ r.failure = none := by
  obtain ⟨value, failure⟩ := r
  simp [done]

theorem eq_stopped_iff {r : Attempt α} {a : α} {e : PlanError} :
    r = stopped a e ↔ r.value = a ∧ r.failure = some e := by
  obtain ⟨value, failure⟩ := r
  simp [stopped]

theorem eq_done_of_complete {r : Attempt α} (h : r.failure = none) : r = done r.value :=
  eq_done_iff.mpr ⟨rfl, h⟩

theorem andThen_of_complete {r : Attempt α} (h : r.failure = none) (next : α → Attempt α) :
    r.andThen next = next r.value := by
  rw [andThen, h]

theorem andThen_of_stopped {r : Attempt α} {e : PlanError} (h : r.failure = some e)
    (next : α → Attempt α) : r.andThen next = r := by
  rw [andThen, h]

theorem failure_andThen_eq_none_iff {r : Attempt α} {next : α → Attempt α} :
    (r.andThen next).failure = none ↔ r.failure = none ∧ (next r.value).failure = none := by
  cases h : r.failure with
  | none => simp [andThen_of_complete h]
  | some e => simp [andThen_of_stopped h, h]

theorem failure_andThen_eq_some_iff {r : Attempt α} {next : α → Attempt α} {e : PlanError} :
    (r.andThen next).failure = some e
      ↔ r.failure = some e ∨ r.failure = none ∧ (next r.value).failure = some e := by
  cases h : r.failure with
  | none => simp [andThen_of_complete h]
  | some e' => simp [andThen_of_stopped h, h]

/-- A check examines the value and leaves it as it is. -/
@[simp] theorem value_check (r : Attempt α) (test : α → Except PlanError Unit) :
    (r.check test).value = r.value := by
  cases h : r.failure with
  | none =>
    rw [check, andThen_of_complete h]
    cases test r.value <;> rfl
  | some e => rw [check, andThen_of_stopped h]

theorem failure_check_eq_none_iff {r : Attempt α} {test : α → Except PlanError Unit} :
    (r.check test).failure = none ↔ r.failure = none ∧ test r.value = .ok () := by
  rw [check, failure_andThen_eq_none_iff]
  cases h : test r.value <;> simp

theorem failure_check_eq_some_iff {r : Attempt α} {test : α → Except PlanError Unit}
    {e : PlanError} :
    (r.check test).failure = some e
      ↔ r.failure = some e ∨ r.failure = none ∧ test r.value = .error e := by
  rw [check, failure_andThen_eq_some_iff]
  cases h : test r.value <;> simp

theorem outcome_eq_ok_iff {r : Attempt α} {f : α → Except PlanError β} {b : β} :
    r.outcome f = .ok b ↔ r.failure = none ∧ f r.value = .ok b := by
  cases h : r.failure <;> simp [outcome, h]

theorem outcome_eq_error_iff {r : Attempt α} {f : α → Except PlanError β} {e : PlanError} :
    r.outcome f = .error e
      ↔ r.failure = some e ∨ r.failure = none ∧ f r.value = .error e := by
  cases h : r.failure <;> simp [outcome, h]

/-- Work on a list stops at the first element on which it stops. -/
theorem failure_each (f : α → Attempt α) (l : List α) :
    (each f l).failure = l.findSome? fun a => (f a).failure := by
  induction l with
  | nil => rfl
  | cons a as ih => cases h : (f a).failure <;> simp [each, h, ih]

end TwigAlgebra.Attempt
