import TwigAlgebra.Proofs.Totality

/-!
# The life of a plan

A plan is minimised, resolved and compiled by calls in any order, with any options, and goes on with
what a call leaves, also when the call fails.  It starts symbolic, a resolution that succeeds moves
it to its last stage, and from then on nothing changes it.

## Main definitions

* `Call`, `Call.run`, `Call.runAll` — calls, and what they make of a plan.
* `Call.Resolves` — a call resolves a plan.
* `Query.Steady` — what every call preserves.

## Main results

* `Query.Steady.run` — one call preserves it.
* `Query.Steady.runAll` — a run of calls preserves it.
* `Query.runAll_frozen` — a plan is resolved by a resolution only, and then stays as it is.
-/

namespace TwigAlgebra

/-- A call that works on a plan. -/
inductive Call where
  /-- Its patterns are minimised. -/
  | minimise (rules : Minimisation) : Call
  /-- Its columns are resolved; declared schemas may be checked. -/
  | resolve (checked : Bool) : Call
  /-- It is compiled. -/
  | compile (options : Options) (counters : Counters) : Call
  deriving DecidableEq, Repr

namespace Call

/-- What a call makes of a plan. -/
def run : Call → Query → Attempt Query
  | minimise rules, q => (q.minimise rules).map Prod.fst
  | resolve checked, q => q.resolve checked
  | compile o c, q => (q.compile o c).map Prod.fst

/-- What calls make of a plan, each working on what the one before has left. -/
def runAll (calls : List Call) (q : Query) : Query :=
  calls.foldl (fun q call => (call.run q).value) q

/-- The call resolves `q` and leaves `r`.  A compilation does if the resolution of what minimising
has left does. -/
def Resolves (q r : Query) : Call → Prop
  | minimise _ => False
  | resolve checked => q.resolve checked = .done r
  | compile o _ => ∃ t saved, q.minimise o.rules = .done (t, saved) ∧
      t.resolve o.checks.declaredSchemas = .done r

@[simp] theorem runAll_nil (q : Query) : runAll [] q = q := rfl

@[simp] theorem runAll_cons (call : Call) (calls : List Call) (q : Query) :
    runAll (call :: calls) q = runAll calls (call.run q).value := rfl

/-- A call that resolves a plan leaves one that is resolved as it is, whatever is checked. -/
theorem Resolves.resolve_eq {call : Call} {q r : Query} (h : call.Resolves q r) (checked : Bool) :
    r.root.resolve checked = .done r.root := by
  cases call with
  | minimise rules => cases h
  | resolve checked' =>
    have hroot := (Query.resolve_eq_done_iff.mp h).1
    exact Plan.resolve_of_resolve hroot checked
  | compile o c =>
    obtain ⟨t, saved, -, ht⟩ := h
    have hroot := (Query.resolve_eq_done_iff.mp ht).1
    exact Plan.resolve_of_resolve hroot checked

end Call

namespace Query

variable {q r : Query}

/-! ### One call -/

/-- A resolution moves a plan to its last stage if it succeeds, and leaves its stage otherwise. -/
theorem resolve_cases (q : Query) (checked : Bool) :
    (∃ r, q.resolve checked = .done r) ∨ (q.resolve checked).value.stage = q.stage := by
  cases hr : (q.resolve checked).failure with
  | none => exact Or.inl ⟨_, Attempt.eq_done_of_complete hr⟩
  | some e =>
    right
    exact (resolve_eq_stopped_iff.mp (Attempt.eq_stopped_iff.mpr ⟨rfl, hr⟩)).2.2

/-- A compilation leaves a symbolic plan over finite trees symbolic, or it succeeds and resolves
it. -/
theorem compile_cases (hstage : q.stage = .symbolic) (hq : q.root.IsFinite) (o : Options)
    (c : Counters) :
    (q.compile o c).value.1.stage = .symbolic ∨
      (q.compile o c).failure = none ∧
        (Call.compile o c).Resolves q (q.compile o c).value.1 := by
  rcases check_cases o c q with ⟨ho, e, he⟩ | hcheck
  · -- refused by the check
    left
    rw [compile_of_refused ho he]
    exact hstage
  · -- minimised first, which keeps the stage, and then resolved
    have hsymbolic := (minimise_cases hq hstage o.rules).2.1
    rw [compile_of_accepted hcheck]
    cases hm : (q.minimise o.rules).failure with
    | some e =>
      rw [Attempt.andThen_of_stopped hm]
      exact Or.inl hsymbolic
    | none =>
      rw [Attempt.andThen_of_complete hm]
      rcases resolve_cases (q.minimise o.rules).value.1 o.checks.declaredSchemas with
        ⟨r, hr⟩ | hsame
      · right
        rw [Attempt.failure_map, Attempt.value_map, hr]
        exact ⟨rfl, _, _, Attempt.eq_done_of_complete hm, hr⟩
      · exact Or.inl (hsame.trans hsymbolic)

/-- A call leaves a symbolic plan over finite trees symbolic, or it succeeds and resolves it. -/
theorem run_cases (hstage : q.stage = .symbolic) (hq : q.root.IsFinite) (call : Call) :
    (call.run q).value.stage = .symbolic ∨
      (call.run q).failure = none ∧ call.Resolves q (call.run q).value := by
  cases call with
  | minimise rules => exact Or.inl (minimise_cases hq hstage rules).2.1
  | resolve checked =>
    rcases resolve_cases q checked with ⟨r, hr⟩ | hsame
    · right
      show (q.resolve checked).failure = none ∧ q.resolve checked = .done (q.resolve checked).value
      rw [hr]
      exact ⟨rfl, rfl⟩
    · exact Or.inl (hsame.trans hstage)
  | compile o c => exact compile_cases hstage hq o c

/-- What every call preserves: the patterns are finite trees, and a plan at its last stage is
resolved as it is, whatever is checked. -/
structure Steady (q : Query) : Prop where
  /-- The patterns are finite trees. -/
  finite : q.root.IsFinite
  /-- Resolution changes nothing at the last stage. -/
  fixed : q.stage = .resolved → ∀ checked, q.root.resolve checked = .done q.root

namespace Steady

theorem of_symbolic (hstage : q.stage = .symbolic) (hq : q.root.IsFinite) : q.Steady := by
  refine ⟨hq, fun hresolved => ?_⟩
  rw [hstage] at hresolved
  cases hresolved

theorem notLost_run (h : q.Steady) (call : Call) : (call.run q).NotLost := by
  cases call with
  | minimise rules => exact notLost_minimise h.finite rules
  | resolve checked => exact notLost_resolve h.finite checked
  | compile o c => exact notLost_compile h.finite o c

/-- A resolution of a resolved plan succeeds and leaves it as it is. -/
theorem resolve_eq (h : q.Steady) (hstage : q.stage = .resolved) (checked : Bool) :
    q.resolve checked = .done q :=
  resolve_eq_done_iff.mpr ⟨h.fixed hstage checked, hstage⟩

/-- A compilation of a resolved plan fails and leaves it as it is. -/
theorem compile_of_resolved (hstage : q.stage = .resolved) (o : Options) (c : Counters) :
    ∃ e, q.compile o c = .stopped (q, .zero) e := by
  rcases check_cases o c q with ⟨ho, e, he⟩ | hcheck
  · exact ⟨e, compile_of_refused ho he⟩
  · refine ⟨.alreadyResolved, ?_⟩
    rw [compile_of_accepted hcheck, minimise_of_resolved hstage, Attempt.andThen_stopped]

/-- Every call leaves a resolved plan as it is; resolutions succeed, and other calls fail. -/
theorem run_of_resolved (h : q.Steady) (hstage : q.stage = .resolved) (call : Call) :
    (call.run q).value = q ∧ ((call.run q).failure = none ↔ ∃ checked, call = .resolve checked) := by
  cases call with
  | minimise rules =>
    rw [Call.run, minimise_of_resolved hstage]
    exact ⟨rfl, iff_of_false nofun nofun⟩
  | resolve checked =>
    rw [Call.run, h.resolve_eq hstage checked]
    exact ⟨rfl, iff_of_true rfl ⟨checked, rfl⟩⟩
  | compile o c =>
    obtain ⟨e, he⟩ := compile_of_resolved hstage o c
    rw [Call.run, he]
    exact ⟨rfl, iff_of_false nofun nofun⟩

theorem run (h : q.Steady) (call : Call) : (call.run q).value.Steady := by
  cases hstage : q.stage with
  | resolved =>
    rw [(h.run_of_resolved hstage call).1]
    exact h
  | symbolic =>
    refine ⟨?_, fun hresolved => ?_⟩
    · cases call with
      | minimise rules => exact isFinite_minimise h.finite rules
      | resolve checked => exact isFinite_resolve h.finite checked
      | compile o c => exact isFinite_compile h.finite o c
    · rcases run_cases hstage h.finite call with hsymbolic | ⟨-, hresolves⟩
      · rw [hsymbolic] at hresolved
        cases hresolved
      · exact hresolves.resolve_eq

/-! ### Runs of calls -/

theorem runAll (h : q.Steady) (calls : List Call) : (Call.runAll calls q).Steady := by
  induction calls generalizing q with
  | nil => exact h
  | cons call calls ih => exact ih (h.run call)

/-- Calls leave a resolved plan as it is. -/
theorem runAll_of_resolved (h : q.Steady) (hstage : q.stage = .resolved) (calls : List Call) :
    Call.runAll calls q = q := by
  induction calls with
  | nil => rfl
  | cons call calls ih => rw [Call.runAll_cons, (h.run_of_resolved hstage call).1, ih]

end Steady

/-- After any calls on a symbolic plan over finite trees, the next call does not get lost.  It makes
a plan resolved only by a resolution that succeeds.  And a plan that is resolved stays exactly as it
is from then on: resolutions succeed whatever is checked, and all other calls fail. -/
theorem runAll_frozen {q : Query} (hstage : q.stage = .symbolic) (hfinite : q.root.IsFinite)
    (calls : List Call) (next : Call) :
    (next.run (Call.runAll calls q)).NotLost ∧
      ((Call.runAll calls q).stage = .symbolic →
        (next.run (Call.runAll calls q)).value.stage = .resolved →
        (next.run (Call.runAll calls q)).failure = none ∧
          next.Resolves (Call.runAll calls q) (next.run (Call.runAll calls q)).value) ∧
      ((Call.runAll calls q).stage = .resolved →
        (∀ more, Call.runAll more (Call.runAll calls q) = Call.runAll calls q) ∧
        ((next.run (Call.runAll calls q)).failure = none ↔ ∃ checked, next = .resolve checked)) := by
  have hsteady := (Steady.of_symbolic hstage hfinite).runAll calls
  refine ⟨hsteady.notLost_run next, fun hsymbolic hresolved => ?_, fun hresolved => ?_⟩
  · rcases run_cases hsymbolic hsteady.finite next with hsame | hresolves
    · rw [hsame] at hresolved
      cases hresolved
    · exact hresolves
  · exact ⟨hsteady.runAll_of_resolved hresolved, (hsteady.run_of_resolved hresolved next).2⟩

/-- The theorem at a plan that is minimised, resolved, and then compiled in vain. -/
theorem runAll_frozen_bookTitles :
    bookTitles.stage = .symbolic ∧ bookTitles.root.IsFinite ∧
      (Call.runAll [.minimise .all, .resolve true] bookTitles).stage = .resolved ∧
      (∀ more, Call.runAll more (Call.runAll [.minimise .all, .resolve true] bookTitles)
        = Call.runAll [.minimise .all, .resolve true] bookTitles) ∧
      ((Call.compile .default (.startingAt ⟨3⟩)).run
        (Call.runAll [.minimise .all, .resolve true] bookTitles)).failure ≠ none := by
  have hfinite : bookTitles.root.IsFinite := Plan.isFinite_of_validate (by decide)
  have hresolved : (Call.runAll [.minimise .all, .resolve true] bookTitles).stage = .resolved := by
    decide +kernel
  obtain ⟨-, -, hfrozen⟩ := runAll_frozen rfl hfinite [.minimise .all, .resolve true]
    (.compile .default (.startingAt ⟨3⟩))
  obtain ⟨hmore, hnext⟩ := hfrozen hresolved
  refine ⟨rfl, hfinite, hresolved, hmore, fun hnone => ?_⟩
  obtain ⟨checked, heq⟩ := hnext.mp hnone
  cases heq

end Query

end TwigAlgebra
