import TwigAlgebra.Proofs.Repetition
import TwigAlgebra.Proofs.Stops

/-!
# Resolving a plan again

Resolution leaves a plan that it resolves in the same way: what is resolved stays as it is, and the
operator that could not be resolved still cannot be, for the same reason.  A declared schema that
was replaced by the computed one agrees with it from then on, so that a resolved plan is resolved
whatever is checked.

## Main definitions

* `Plan.Reworks` — the operators are of the same kinds, over the same scans.

## Main results

* `Plan.resolve_resolve` — resolving what resolution left comes to the same end.
* `Plan.resolve_of_resolve` — a resolved plan is resolved as it is, whatever is checked.
* `Query.resolve_stopped_again` — a failed resolution fails again, and changes nothing then.
-/

namespace TwigAlgebra

namespace Plan

variable {checked : Bool} {op : Unary} {p p' : Plan} {d : Option Schema} {e : PlanError}

/-! ### What resolution leaves alone -/

/-- The plans have operators of the same kinds over the same scans; parameters and schemas may
differ. -/
inductive Reworks : Plan → Plan → Prop where
  /-- The same scan. -/
  | scan (s : Scan) (d d' : Option Schema) : Reworks (scan s d) (scan s d')
  /-- Operators with one input. -/
  | unary {op op' : Unary} {p p' : Plan} (hop : op'.isConstruct = op.isConstruct)
      (hp : Reworks p p') (d d' : Option Schema) : Reworks (unary op p d) (unary op' p' d')
  /-- Operators with two inputs. -/
  | binary (op op' : Binary) {l l' r r' : Plan} (hl : Reworks l l') (hr : Reworks r r')
      (d d' : Option Schema) : Reworks (binary op l r d) (binary op' l' r' d')

namespace Reworks

theorem refl (p : Plan) : p.Reworks p := by
  induction p with
  | scan s d => exact .scan s d d
  | unary op p d ih => exact .unary rfl ih d d
  | binary op l r d ihl ihr => exact .binary op op ihl ihr d d

theorem isConstruct_eq (h : p.Reworks p') : p'.isConstruct = p.isConstruct := by
  cases h with
  | scan s d d' => rfl
  | unary hop hp d d' => exact hop
  | binary op op' hl hr d d' => rfl

theorem scans_eq (h : p.Reworks p') : p'.scans = p.scans := by
  have hscans : p'.postorder.filterMap scan? = p.postorder.filterMap scan? := by
    induction h with
    | scan s d d' => rfl
    | unary hop hp d d' ih =>
      rw [postorder_unary, postorder_unary, List.filterMap_append, List.filterMap_append, ih]
      rfl
    | binary op op' hl hr d d' ihl ihr =>
      simp only [postorder_binary, List.filterMap_append, ihl, ihr]
      rfl
  exact hscans

end Reworks

/-- Recording a schema leaves one with which recording comes to the same end. -/
theorem exists_record_again (checked : Bool) (name : String) (d : Option Schema)
    (build : Option Schema → Plan) (x : Except PlanError Schema) :
    ∃ d', (record checked name d build x).value = build d' ∧
      record checked name d' build x = record checked name d build x := by
  cases x with
  | error e => exact ⟨d, rfl, rfl⟩
  | ok computed =>
    have hself : record checked name (some computed) build (.ok computed)
        = .done (build (some computed)) := by simp [record]
    cases d with
    | none => exact ⟨some computed, rfl, hself⟩
    | some declared =>
      by_cases hw : checked ∧ declared.width ≠ computed.width
      · -- another width is declared and checked, so that the declared schema stays
        exact ⟨some declared, by rw [record, if_pos hw, Attempt.value_stopped], rfl⟩
      · have hdone : record checked name (some declared) build (.ok computed)
            = .done (build (some computed)) := by rw [record, if_neg hw]
        exact ⟨some computed, by rw [hdone, Attempt.value_done], by rw [hself, hdone]⟩

/-- Resolution, complete or not, changes parameters and schemas only. -/
theorem reworks_resolve (checked : Bool) (p : Plan) : p.Reworks (p.resolve checked).value := by
  induction p with
  | scan s d =>
    rw [resolve]
    cases s.schema with
    | none => exact .refl _
    | some out =>
      obtain ⟨d', hvalue, -⟩ := exists_record_again checked s.name d (scan s) (.ok out)
      show (scan s d).Reworks (record checked s.name d (scan s) (.ok out)).value
      rw [hvalue]
      exact .scan s d d'
  | unary op p d ih =>
    -- the input is a construction, or stops, or is resolved
    rcases input_cases checked p with hc | ⟨hc, e, hp⟩ | ⟨hc, p', hp⟩
    · rw [resolve_unary_of_construct hc]
      exact .refl _
    · rw [resolve_unary_of_stopped hc hp]
      exact .unary rfl ih d d
    · rw [hp, Attempt.value_done] at ih
      cases hf : foldedWidth op p' with
      | none =>
        rw [resolve_unary_of_unfolded hc hp hf]
        exact .unary rfl ih d d
      | some folded =>
        rw [resolve_unary_of_done hc hp hf, Unary.resolve_eq]
        obtain ⟨d', hvalue, -⟩ := exists_record_again checked op.name d
          (unary (op.settle p'.output).value p')
          ((op.settle p'.output).outcome (Unary.rule op.name folded p'.output))
        rw [hvalue]
        exact .unary (op.isConstruct_settle _) ih d d'
  | binary op l r d ihl ihr =>
    -- the input on the left, before the one on the right is looked at
    rcases input_cases checked l with hcl | ⟨hcl, e, hl⟩ | ⟨hcl, l', hl⟩
    · rw [resolve_binary_of_left_construct hcl]
      exact .refl _
    · rw [resolve_binary_of_left_stopped hcl hl]
      exact .binary op op ihl (.refl r) d d
    · rw [hl, Attempt.value_done] at ihl
      rcases input_cases checked r with hcr | ⟨hcr, e, hr⟩ | ⟨hcr, r', hr⟩
      · rw [resolve_binary_of_right_construct hcl hl hcr]
        exact .binary op op ihl (.refl r) d d
      · rw [resolve_binary_of_right_stopped hcl hl hcr hr]
        exact .binary op op ihl ihr d d
      · rw [hr, Attempt.value_done] at ihr
        rw [resolve_binary_of_done hcl hl hcr hr]
        obtain ⟨d', hvalue, -⟩ := exists_record_again checked op.name d
          (binary (op.resolve l'.output r'.output).1 l' r') (op.resolve l'.output r'.output).2
        rw [hvalue]
        exact .binary _ _ ihl ihr d d'

theorem isConstruct_resolve (checked : Bool) (p : Plan) :
    (p.resolve checked).value.isConstruct = p.isConstruct :=
  (reworks_resolve checked p).isConstruct_eq

/-! ### Resolving again -/

/-- Resolving what resolution left, complete or not, comes to the same end. -/
theorem resolve_resolve (checked : Bool) (p : Plan) :
    (p.resolve checked).value.resolve checked = p.resolve checked := by
  induction p with
  | scan s d =>
    cases hs : s.schema with
    | none =>
      have hlost : (scan s d).resolve checked = .stopped (scan s d) .lostHandle := by
        rw [resolve, hs]
      rw [hlost, Attempt.value_stopped, hlost]
    | some out =>
      have hrecord (d : Option Schema) : (scan s d).resolve checked
          = record checked s.name d (scan s) (.ok out) := by rw [resolve, hs]
      obtain ⟨d', hvalue, hagain⟩ := exists_record_again checked s.name d (scan s) (.ok out)
      rw [hrecord, hvalue, hrecord, hagain]
  | unary op p d ih =>
    -- an input is resolved as before, and is a construction only if it was one
    have hsame := isConstruct_resolve checked p
    rcases input_cases checked p with hc | ⟨hc, e, hp⟩ | ⟨hc, p', hp⟩
    · have hstopped : (unary op p d).resolve checked = .stopped (unary op p d) constructionBelow :=
        resolve_unary_of_construct hc
      rw [hstopped, Attempt.value_stopped, hstopped]
    · have hp' : ((p.resolve checked).value.resolve checked).failure = some e := by rw [ih, hp]
      rw [resolve_unary_of_stopped hc hp, Attempt.value_stopped,
        resolve_unary_of_stopped (hsame.trans hc) hp', ih]
    · rw [hp, Attempt.value_done] at ih hsame
      cases hf : foldedWidth op p' with
      | none =>
        rw [resolve_unary_of_unfolded hc hp hf, Attempt.value_stopped,
          resolve_unary_of_unfolded (hsame.trans hc) ih hf]
      | some folded =>
        -- what is settled folds as much as before, and has the same name
        have hf' : foldedWidth (op.resolve folded p'.output).1 p' = some folded := by
          rw [Unary.resolve_eq, Unary.foldedWidth_settle, hf]
        have hname : (op.resolve folded p'.output).1.name = op.name := by
          rw [Unary.resolve_eq, Unary.name_settle]
        rw [resolve_unary_of_done hc hp hf]
        obtain ⟨d', hvalue, hagain⟩ := exists_record_again checked op.name d
          (unary (op.resolve folded p'.output).1 p') (op.resolve folded p'.output).2
        rw [hvalue, resolve_unary_of_done (hsame.trans hc) ih hf', Unary.resolve_resolve, hname,
          hagain]
  | binary op l r d ihl ihr =>
    have hsamel := isConstruct_resolve checked l
    have hsamer := isConstruct_resolve checked r
    rcases input_cases checked l with hcl | ⟨hcl, e, hl⟩ | ⟨hcl, l', hl⟩
    · have hstopped : (binary op l r d).resolve checked
          = .stopped (binary op l r d) constructionBelow := resolve_binary_of_left_construct hcl
      rw [hstopped, Attempt.value_stopped, hstopped]
    · have hl' : ((l.resolve checked).value.resolve checked).failure = some e := by rw [ihl, hl]
      rw [resolve_binary_of_left_stopped hcl hl, Attempt.value_stopped,
        resolve_binary_of_left_stopped (hsamel.trans hcl) hl', ihl]
    · rw [hl, Attempt.value_done] at ihl hsamel
      have hcl' := hsamel.trans hcl
      rcases input_cases checked r with hcr | ⟨hcr, e, hr⟩ | ⟨hcr, r', hr⟩
      · rw [resolve_binary_of_right_construct hcl hl hcr, Attempt.value_stopped,
          resolve_binary_of_right_construct hcl' ihl hcr]
      · have hr' : ((r.resolve checked).value.resolve checked).failure = some e := by rw [ihr, hr]
        rw [resolve_binary_of_right_stopped hcl hl hcr hr, Attempt.value_stopped,
          resolve_binary_of_right_stopped hcl' ihl (hsamer.trans hcr) hr', ihr]
      · rw [hr, Attempt.value_done] at ihr hsamer
        have hname : (op.resolve l'.output r'.output).1.name = op.name := by
          rw [Binary.resolve_eq, Binary.name_settle]
        rw [resolve_binary_of_done hcl hl hcr hr]
        obtain ⟨d', hvalue, hagain⟩ := exists_record_again checked op.name d
          (binary (op.resolve l'.output r'.output).1 l' r') (op.resolve l'.output r'.output).2
        rw [hvalue, resolve_binary_of_done hcl' ihl (hsamer.trans hcr) ihr, Binary.resolve_resolve,
          hname, hagain]

theorem agrees_self (checked : Bool) (out : Schema) : Agrees checked (some out) out := by
  rintro - d ⟨⟩
  rfl

/-- A plan that resolution does not change is not changed by it whatever is checked. -/
theorem resolve_eq_done_self {p : Plan} (h : p.resolve checked = .done p) (checked' : Bool) :
    p.resolve checked' = .done p := by
  induction p with
  | scan s d =>
    obtain ⟨out, hout, -, heq⟩ := resolve_scan_eq_done_iff.mp h
    cases heq
    exact resolve_scan_eq_done_iff.mpr ⟨out, hout, agrees_self checked' out, rfl⟩
  | unary op p d ih =>
    -- the input, the parameters and the schema are those that the operator has already
    obtain ⟨hc, q, folded, out, hq, hf, hsettle, hrule, -, heq⟩ := resolve_unary_eq_done_iff.mp h
    injection heq with hop hp hd
    subst hp hd
    exact resolve_unary_eq_done_iff.mpr
      ⟨hc, p, folded, out, ih hq, hf, hsettle, hrule, agrees_self checked' out, by rw [← hop]⟩
  | binary op l r d ihl ihr =>
    obtain ⟨hcl, hcr, l', r', hl, hr, hsettle, -, heq⟩ := resolve_binary_eq_done_iff.mp h
    injection heq with hop hl' hr' hd
    subst hl' hr'
    rw [← hop] at hd
    subst hd
    refine resolve_binary_eq_done_iff.mpr ⟨hcl, hcr, l, r, ihl hl, ihr hr, hsettle, ?_, ?_⟩
    · rw [← hop]
      exact agrees_self checked' _
    · rw [← hop]

/-- A resolved plan is resolved as it is, whatever is checked. -/
theorem resolve_of_resolve {r : Plan} (h : p.resolve checked = .done r) (checked' : Bool) :
    r.resolve checked' = .done r := by
  have hagain := resolve_resolve checked p
  rw [h, Attempt.value_done] at hagain
  exact resolve_eq_done_self hagain checked'

end Plan

namespace Query

theorem resolve_eq_stopped_iff {checked : Bool} {q r : Query} {e : PlanError} :
    q.resolve checked = .stopped r e ↔ (q.root.resolve checked).failure = some e ∧
      r.root = (q.root.resolve checked).value ∧ r.stage = q.stage := by
  obtain ⟨root, stage⟩ := r
  rw [Query.resolve]
  cases h : (q.root.resolve checked).failure with
  | none => simp [Attempt.eq_stopped_iff]
  | some e' =>
    simp only [Attempt.eq_stopped_iff, Attempt.value_stopped, Attempt.failure_stopped, mk.injEq,
      Option.some.injEq]
    constructor
    · rintro ⟨⟨rfl, rfl⟩, rfl⟩
      exact ⟨rfl, rfl, rfl⟩
    · rintro ⟨rfl, rfl, rfl⟩
      exact ⟨⟨rfl, rfl⟩, rfl⟩

/-- What a resolution that fails has left is resolved with the same failure, and left as it is. -/
theorem resolve_eq_stopped_self {checked : Bool} {q r : Query} {e : PlanError}
    (h : q.resolve checked = .stopped r e) : r.resolve checked = .stopped r e := by
  obtain ⟨hfailure, hroot, -⟩ := resolve_eq_stopped_iff.mp h
  have hagain : r.root.resolve checked = q.root.resolve checked := by
    rw [hroot, Plan.resolve_resolve]
  refine resolve_eq_stopped_iff.mpr ⟨?_, ?_, rfl⟩
  · rw [hagain, hfailure]
  · rw [hagain, hroot]

/-- A resolution that fails leaves the stage of the plan, and a plan whose resolution fails in the
same way and changes nothing more. -/
theorem resolve_stopped_again {checked : Bool} {q r : Query} {e : PlanError}
    (h : q.resolve checked = .stopped r e) :
    r.resolve checked = .stopped r e ∧ r.stage = q.stage :=
  ⟨resolve_eq_stopped_self h, (resolve_eq_stopped_iff.mp h).2.2⟩

/-- A projection to a document identifier and to a variable that nothing binds. -/
def missingTitle : Query :=
  let scan : Plan := .scan ⟨⟨0⟩, none, true, ⟨"books", []⟩⟩ none
  .symbolic (.unary (.project [.symbolic (.docId ⟨0⟩), .symbolic (.var ⟨0⟩)]) scan none)

/-- The theorem at a plan of which the scan and one of two columns are resolved before the
failure. -/
theorem resolve_stopped_again_missingTitle :
    (missingTitle.resolve true).failure = some (.unbound (.var ⟨0⟩) "Projection") ∧
      (missingTitle.resolve true).value.root.columns = [.resolved 0, .symbolic (.var ⟨0⟩)] ∧
      (missingTitle.resolve true).value.resolve true
        = .stopped (missingTitle.resolve true).value (.unbound (.var ⟨0⟩) "Projection") ∧
      (missingTitle.resolve true).value.stage = missingTitle.stage :=
  have h : (missingTitle.resolve true).failure = some (.unbound (.var ⟨0⟩) "Projection") := by
    decide
  ⟨h, by decide, resolve_stopped_again (Attempt.eq_stopped_iff.mpr ⟨rfl, h⟩)⟩

end Query

end TwigAlgebra
