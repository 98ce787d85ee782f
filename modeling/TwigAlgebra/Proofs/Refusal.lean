import TwigAlgebra.Proofs.Totality

/-!
# Compiling a refused plan again

A compilation that fails leaves the plan changed: patterns may be smaller, and some columns may be
resolved.  What is left is refused again if the plan was checked, or if the columns were the reason.
Only the report that minimisation lost variables has no second time: the variables are gone from what
is left, and nothing there tells that they were bound.

## Main results

* `Query.compile_refused_again` — a refused plan is refused again, unless unchecked variables got
  lost.
* `Query.compile_twinCodes` — a pattern with two nodes of one code that is accepted the second time.
-/

namespace TwigAlgebra.Query

variable {q r : Query} {o : Options} {c : Counters} {e : PlanError}

/-- What refuses a plan past the check: the report that variables are gone, or the resolution of
the plan with smaller patterns. -/
theorem compile_stopped_cases (hstage : q.stage = .symbolic) (hq : q.root.IsFinite)
    (hcheck : o.checks.plan = true → q.check c = .ok ())
    (hfail : (q.compile o c).failure = some e) :
    (q.minimise o.rules).failure = some e ∧ e.ReportsDrop ∨
      ∃ t, q.Alike t ∧
        t.resolve o.checks.declaredSchemas = .stopped (q.compile o c).value.1 e := by
  rw [compile_of_accepted hcheck] at hfail ⊢
  rcases (minimise_cases hq hstage o.rules).2.2 with ⟨hnone, halike⟩ | ⟨e', he', hdrop⟩
  · right
    rw [Attempt.andThen_of_complete hnone] at hfail ⊢
    exact ⟨_, halike, Attempt.eq_stopped_iff.mpr ⟨rfl, hfail⟩⟩
  · left
    rw [Attempt.andThen_of_stopped he', he'] at hfail
    cases hfail
    exact ⟨he', hdrop⟩

/-- A checked plan loses no variables. -/
theorem failure_minimise_of_check (hstage : q.stage = .symbolic) (hcheck : q.check c = .ok ())
    (m : Minimisation) : (q.minimise m).failure = none := by
  obtain ⟨_, hvalid, -⟩ := Except.bind_eq_ok_iff.mp hcheck
  obtain ⟨r, saved, hr, -, -⟩ := exists_minimise hstage hvalid m
  rw [hr, Attempt.failure_done]

/-- What resolution does not accept is not accepted by a compilation either. -/
theorem exists_failure_compile (hstage : r.stage = .symbolic) (hr : r.root.IsFinite)
    (hfail : (r.resolve o.checks.declaredSchemas).failure = some e) (c : Counters) :
    ∃ e', (r.compile o c).failure = some e' := by
  rcases check_cases o c r with ⟨ho, e', he'⟩ | hcheck
  · exact ⟨e', by rw [compile_of_refused ho he']; rfl⟩
  · rw [compile_of_accepted hcheck]
    rcases (minimise_cases hr hstage o.rules).2.2 with ⟨hnone, halike⟩ | ⟨e', he', -⟩
    · refine ⟨e, ?_⟩
      rw [Attempt.andThen_of_complete hnone, Attempt.failure_map, (halike.resolve _).1, hfail]
    · exact ⟨e', by rw [Attempt.andThen_of_stopped he', he']⟩

/-- A symbolic plan over finite trees that is refused is refused again as it was left, by the same
compilation; unless the plan was not checked and minimisation reported that it lost variables. -/
theorem compile_refused_again (hstage : q.stage = .symbolic) (hq : q.root.IsFinite)
    (hfail : (q.compile o c).failure = some e) (hkept : o.checks.plan = true ∨ ¬ e.ReportsDrop) :
    ∃ e', ((q.compile o c).value.1.compile o c).failure = some e' ∧ e' ≠ .lostHandle := by
  have hfinite := isFinite_compile hq o c
  have hagain : ∃ e', ((q.compile o c).value.1.compile o c).failure = some e' := by
    rcases check_cases o c q with ⟨ho, e', he'⟩ | hcheck
    · -- the check changes nothing, and refuses again
      have hrefused := compile_of_refused ho he'
      exact ⟨e', by rw [hrefused, Attempt.value_stopped, hrefused]; rfl⟩
    · rcases compile_stopped_cases hstage hq hcheck hfail with ⟨hlost, hdrop⟩ | ⟨t, halike, ht⟩
      · rcases hkept with ho | hkept
        · rw [failure_minimise_of_check hstage (hcheck ho)] at hlost
          cases hlost
        · exact absurd hdrop hkept
      · -- what the resolution has left is resolved no further
        have hstop := resolve_eq_stopped_self ht
        have hsame := (resolve_eq_stopped_iff.mp ht).2.2
        have hsymbolic := hsame.trans (halike.stage.trans hstage)
        exact exists_failure_compile hsymbolic hfinite (Attempt.eq_stopped_iff.mp hstop).2 c
  obtain ⟨e', he'⟩ := hagain
  exact ⟨e', he', fun heq => notLost_compile hfinite o c (heq ▸ he')⟩

/-- A scan for the names below a site, where an optional note has the code of the name. -/
def twinScan : Plan :=
  let node (code : UInt32) (tag : String) (parent : Option Handle) (edges : List Edge) : Node :=
    { Node.make ⟨code⟩ "" tag with parent, edges }
  let site := node 0 "site" none [⟨⟨true, false, true⟩, 1⟩, ⟨⟨true, false, false⟩, 2⟩]
  let note := node 1 "note" (some 0) []
  let name := (node 1 "name" (some 0) []).binding ⟨⟨0⟩, "n", .value, none⟩
  .scan ⟨⟨0⟩, some ⟨"site", #[site, note, name], 0⟩, false, ⟨"items", []⟩⟩ none

theorem isFinite_twinScan : twinScan.IsFinite := by
  refine Plan.isFinite_scan_iff.mpr ?_
  rintro q ⟨⟩
  exact ⟨.cons 0 (.cons 1 .nil (.cons 2 .nil .nil)) .nil,
    ⟨rfl, ⟨rfl, trivial, rfl, trivial, trivial⟩, trivial⟩, rfl⟩

/-- Plans are not checked before they are minimised by the rules. -/
def unchecked (rules : Minimisation) : Options := ⟨rules, ⟨true, false⟩⟩

/-- A projection of the names to a variable that nothing binds. -/
def missingTwin : Query := .symbolic (.unary (.project [.symbolic (.var ⟨9⟩)]) twinScan none)

/-- The theorem at a plan that is not checked, keeps all branches, and is refused for the missing
column. -/
theorem compile_refused_again_missingTwin :
    (missingTwin.compile (unchecked ⟨true, true, false⟩) .initial).failure
        = some (.unbound (.var ⟨9⟩) "Projection") ∧
      ∃ e', ((missingTwin.compile (unchecked ⟨true, true, false⟩) .initial).value.1.compile
        (unchecked ⟨true, true, false⟩) .initial).failure = some e' ∧ e' ≠ .lostHandle := by
  have hfinite : missingTwin.root.IsFinite := Plan.isFinite_unary_iff.mpr isFinite_twinScan
  have hfail : (missingTwin.compile (unchecked ⟨true, true, false⟩) .initial).failure
      = some (.unbound (.var ⟨9⟩) "Projection") := by decide +kernel
  have hkept : ¬ (PlanError.unbound (.var ⟨9⟩) "Projection").ReportsDrop := by
    rintro ⟨code, count, h⟩
    cases h
  exact ⟨hfail, compile_refused_again rfl hfinite hfail (Or.inr hkept)⟩

/-- The scan for the names alone. -/
def twinCodes : Query := .symbolic twinScan

/-- What stays of the tree is the chain to the name, and it is kept as the path to the code of the
name.  But the note is found first, so that the first compilation reports a lost variable, and the
second has nothing to report. -/
theorem compile_twinCodes :
    twinCodes.stage = .symbolic ∧ twinCodes.root.IsFinite ∧
      (twinCodes.compile (unchecked .all) .initial).failure
        = some (.malformed ⟨0⟩ (.droppedVariables 1)) ∧
      ((twinCodes.compile (unchecked .all) .initial).value.1.compile (unchecked .all)
        .initial).failure = none :=
  ⟨rfl, isFinite_twinScan, by decide +kernel, by decide +kernel⟩

end TwigAlgebra.Query
