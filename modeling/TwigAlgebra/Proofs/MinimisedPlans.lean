import TwigAlgebra.Proofs.MinimisedPatterns
import TwigAlgebra.Proofs.PlanCheck

/-!
# What minimising leaves of a plan

A sound plan that is not resolved yet can always be minimised.  Its operators stay as they are, with
their parameters and their schemas; of the pattern of each scan is left what the two rules say, and
the savings are those of the scans, added up.  Minimising what is left, by the same rules, saves
nothing and changes nothing.

## Main definitions

* `Scan.MinimisesTo`, `Plan.MinimisesTo` — what is left, and what is saved.

## Main results

* `Query.minimise_exact` — what minimising leaves and counts.
* `Query.minimise_twice` — minimising twice is minimising once.
-/

namespace TwigAlgebra

open Pattern

/-- The scan `t` is what the rules leave of `s`, and this is saved. -/
inductive Scan.MinimisesTo (m : Minimisation) (unread : Bool) : Scan → Scan → Savings → Prop
  /-- A scan of whole documents is counted. -/
  | whole {s : Scan} (hs : s.pattern = none) : MinimisesTo m unread s s ⟨1, 0, 0⟩
  /-- The rules are applied to the pattern. -/
  | pattern {s : Scan} {p q : Pattern} (hs : s.pattern = some p) (h : p.MinimisesTo m unread q) :
      MinimisesTo m unread s { s with pattern := some q } (p.savings m unread)

namespace Plan

/-- The plan `q` is what the rules leave of `p`, and this is saved. -/
inductive MinimisesTo (m : Minimisation) (unread : Bool) : Plan → Plan → Savings → Prop
  /-- The rules are applied to a scan. -/
  | scan {s t : Scan} {saved : Savings} (h : s.MinimisesTo m unread t saved) (d : Option Schema) :
      MinimisesTo m unread (scan s d) (scan t d) saved
  /-- The operator stays. -/
  | unary (op : Unary) {p q : Plan} {saved : Savings} (h : MinimisesTo m unread p q saved)
      (d : Option Schema) : MinimisesTo m unread (unary op p d) (unary op q d) saved
  /-- The operator stays, and what its inputs save is added. -/
  | binary (op : Binary) {l l' r r' : Plan} {a b : Savings} (hl : MinimisesTo m unread l l' a)
      (hr : MinimisesTo m unread r r' b) (d : Option Schema) :
      MinimisesTo m unread (binary op l r d) (binary op l' r' d) (a.add b)

variable {m : Minimisation} {unread : Bool} {p q : Plan} {saved : Savings}

theorem MinimisesTo.scansVisited_eq (h : p.MinimisesTo m unread q saved) :
    saved.scansVisited = p.scans.length := by
  induction h with
  | scan h d => cases h <;> rfl
  | unary op _ d ih =>
    rw [ih, scans, scans, postorder_unary, List.filterMap_append, List.length_append]
    rfl
  | binary op _ _ d ihl ihr =>
    rw [Savings.add, ihl, ihr, scans, scans, scans, postorder_binary, List.filterMap_append,
      List.filterMap_append, List.length_append, List.length_append]
    rfl

theorem MinimisesTo.namesOutput_eq (h : p.MinimisesTo m unread q saved) :
    q.namesOutput = p.namesOutput := by
  cases h with
  | scan => rfl
  | unary op => cases op <;> rfl
  | binary => rfl

/-- Minimising a scan leaves what the rules say, and nothing to do for a second time. -/
theorem exists_minimisesTo_scan {s : Scan} {d : Option Schema} (hs : (scan s d).PatternSound)
    (m : Minimisation) (unread : Bool) : ∃ t saved,
      s.minimise m unread = .done (t, saved) ∧ s.MinimisesTo m unread t saved ∧
      t.minimise m unread = .done (t, ⟨saved.scansVisited, 0, 0⟩) := by
  cases hp : s.pattern with
  | none =>
    have hwhole : s.minimise m unread = .done (s, ⟨1, 0, 0⟩) := by rw [Scan.minimise, hp]
    exact ⟨s, ⟨1, 0, 0⟩, hwhole, .whole hp, hwhole⟩
  | some p =>
    obtain ⟨f, hf⟩ := hs s rfl p hp
    obtain ⟨q, g, hq, hminimises, -, -⟩ := hf.exists_minimisesTo m unread
    refine ⟨{ s with pattern := some q }, p.savings m unread, ?_, .pattern hp hminimises, ?_⟩
    · simp only [Scan.minimise, hp, hq]
      rfl
    · simp only [Scan.minimise, hf.minimise_again hq]
      rfl

/-- Minimising a plan with sound patterns leaves what the rules say, and nothing to do for a second
time. -/
theorem exists_minimisesTo (hp : ∀ n ∈ p.postorder, n.PatternSound) (m : Minimisation)
    (unread : Bool) : ∃ q saved, p.minimise m unread = .done (q, saved) ∧
      p.MinimisesTo m unread q saved ∧
      q.minimise m unread = .done (q, ⟨saved.scansVisited, 0, 0⟩) := by
  induction p with
  | scan s d =>
    obtain ⟨t, saved, ht, hminimises, htwice⟩ :=
      exists_minimisesTo_scan (hp _ (mem_postorder_self _)) m unread
    exact ⟨scan t d, saved, by rw [minimise, ht]; rfl, .scan hminimises d,
      by rw [minimise, htwice]; rfl⟩
  | unary op p d ih =>
    obtain ⟨q, saved, hq, hminimises, htwice⟩ := ih fun n hn => hp n (by simp [hn])
    exact ⟨unary op q d, saved, by rw [minimise, hq]; rfl, .unary op hminimises d,
      by rw [minimise, htwice]; rfl⟩
  | binary op l r d ihl ihr =>
    obtain ⟨l', savedl, hl', hl, htwicel⟩ := ihl fun n hn => hp n (by simp [hn])
    obtain ⟨r', savedr, hr', hr, htwicer⟩ := ihr fun n hn => hp n (by simp [hn])
    exact ⟨binary op l' r' d, savedl.add savedr, by rw [minimise, hl', hr']; rfl,
      .binary op hl hr d, by rw [minimise, htwicel, htwicer]; rfl⟩

end Plan

namespace Query

variable {q : Query} {m : Minimisation}

/-- Minimising a sound symbolic plan succeeds.  Of the pattern of each scan is left what the rules
say: the nodes give up what they store if and only if the rule applies and no binding node has their
tag; a slot stays reached if and only if no edge on the way to it goes; and nodes that are still
reached are otherwise as they were.  All scans are counted, the nodes that give up what they store,
and the slots that go.  It makes no difference whether edges are taken one by one or, where that is
possible, by pruning to the end of a chain. -/
theorem minimise_exact (hstage : q.stage = .symbolic) (hvalid : q.root.validate = .ok ())
    (henabled : m.enabled = true) :
    ∃ r saved, q.minimise m = .done (r, saved) ∧ r.stage = .symbolic ∧
      q.root.MinimisesTo m q.root.namesOutput r.root saved ∧
      saved.scansVisited = q.root.scans.length ∧
      (m.pruneBranches = true → ∀ a p, q.root.HasPattern a p →
        p.PrunesEitherWay m q.root.namesOutput) := by
  have hsound := Plan.validate_eq_ok_iff.mp hvalid
  obtain ⟨root, saved, hroot, hminimises, -⟩ :=
    Plan.exists_minimisesTo hsound.patterns m q.root.namesOutput
  refine ⟨⟨root, .symbolic⟩, saved, ?_, rfl, hminimises, hminimises.scansVisited_eq, ?_⟩
  · rw [Query.minimise, hstage]
    simp only [henabled, if_true, hroot]
    rfl
  · intro hprune a p hp
    obtain ⟨f, hf⟩ := validate_eq_ok_iff.mp ((Plan.sound_iff_distinct.mp hsound).patterns a p hp)
    exact hf.prunesEitherWay hprune

/-- The theorem at a plan with a branch for prices that nobody reads. -/
theorem minimise_exact_bookTitles :
    bookTitles.stage = .symbolic ∧ bookTitles.root.validate = .ok () ∧
      Minimisation.all.enabled = true ∧
      ∃ r saved, bookTitles.minimise .all = .done (r, saved) ∧ r.stage = .symbolic ∧
        bookTitles.root.MinimisesTo .all bookTitles.root.namesOutput r.root saved ∧
        saved.scansVisited = bookTitles.root.scans.length ∧
        (Minimisation.all.pruneBranches = true → ∀ a p, bookTitles.root.HasPattern a p →
          p.PrunesEitherWay .all bookTitles.root.namesOutput) :=
  have hvalid : bookTitles.root.validate = .ok () := by decide
  ⟨rfl, hvalid, rfl, minimise_exact rfl hvalid rfl⟩

/-- The node for prices gives up what it stores, and then it goes. -/
example : (bookTitles.minimise .all).value.2 = ⟨1, 1, 1⟩ := by decide +kernel

/-- Minimising a sound symbolic plan twice is minimising it once: the second time visits as many
scans, saves nothing and leaves the plan exactly as it is. -/
theorem minimise_twice (hstage : q.stage = .symbolic) (hvalid : q.root.validate = .ok ())
    (m : Minimisation) : ∃ r saved, q.minimise m = .done (r, saved) ∧
      r.minimise m = .done (r, ⟨saved.scansVisited, 0, 0⟩) := by
  cases henabled : m.enabled with
  | false =>
    -- no rule is on
    have hidle : q.minimise m = .done (q, .zero) := by
      rw [Query.minimise, hstage]
      simp [henabled]
    exact ⟨q, .zero, hidle, hidle⟩
  | true =>
    have hsound := Plan.validate_eq_ok_iff.mp hvalid
    obtain ⟨root, saved, hroot, hminimises, htwice⟩ :=
      Plan.exists_minimisesTo hsound.patterns m q.root.namesOutput
    refine ⟨⟨root, .symbolic⟩, saved, ?_, ?_⟩
    · rw [Query.minimise, hstage]
      simp only [henabled, if_true, hroot]
      rfl
    · -- the same rules apply, for the top operator is the same
      rw [← hminimises.namesOutput_eq] at htwice
      rw [Query.minimise]
      simp only [henabled, if_true, htwice]
      rfl

/-- The theorem at the plan with a branch for prices. -/
theorem minimise_twice_bookTitles :
    bookTitles.stage = .symbolic ∧ bookTitles.root.validate = .ok () ∧
      ∃ r saved, bookTitles.minimise .all = .done (r, saved) ∧
        r.minimise .all = .done (r, ⟨saved.scansVisited, 0, 0⟩) :=
  have hvalid : bookTitles.root.validate = .ok () := by decide
  ⟨rfl, hvalid, minimise_twice rfl hvalid .all⟩

end Query

end TwigAlgebra
