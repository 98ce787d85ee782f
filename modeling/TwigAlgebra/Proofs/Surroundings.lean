import TwigAlgebra.Proofs.Stops

/-!
# Plans in their surroundings

What is left of a plan when a subplan is taken out are the operators above the subplan, with the
plans beside it.  Resolution sees two things of a resolved subplan only: the columns of its output,
which is where the keys of the operators above are looked up, and the scans and aggregations in it,
of which a grouping above may fold some.  Subplans that agree in both can be put in each other's
place: the operators above are resolved to the same positions and get the same schemas, or fail for
the same reason.

## Main definitions

* `Plan.Surroundings`, `Plan.Surroundings.around` — the operators above a subplan.
* `Plan.Interchangeable` — subplans that are resolved, and agree in what is seen from above.

## Main results

* `Plan.Interchangeable.resolve_around` — interchangeable plans are resolved alike in all
  surroundings.
-/

namespace TwigAlgebra.Plan

/-- A plan without one of its subplans. -/
inductive Surroundings where
  /-- Nothing is above the subplan, which is the whole plan. -/
  | top : Surroundings
  /-- The subplan is in the input of an operator. -/
  | unary (op : Unary) (rest : Surroundings) (schema : Option Schema) : Surroundings
  /-- The subplan is in the left input of an operator. -/
  | left (op : Binary) (rest : Surroundings) (right : Plan) (schema : Option Schema) : Surroundings
  /-- The subplan is in the right input of an operator. -/
  | right (op : Binary) (left : Plan) (rest : Surroundings) (schema : Option Schema) : Surroundings
  deriving DecidableEq, Repr

/-- The whole plan, with a subplan in its place. -/
def Surroundings.around (p : Plan) : Surroundings → Plan
  | top => p
  | unary op rest d => .unary op (rest.around p) d
  | left op rest r d => .binary op (rest.around p) r d
  | right op l rest d => .binary op l (rest.around p) d

/-- Resolution takes `p` to `p'` and `q` to `q'`, which cannot be told apart from above: they have
the same schema and the same scans and aggregations. -/
structure Interchangeable (checked : Bool) (p p' q q' : Plan) : Prop where
  /-- The one plan is resolved. -/
  left : p.resolve checked = .done p'
  /-- So is the other. -/
  right : q.resolve checked = .done q'
  /-- Both can be inputs, or neither. -/
  isConstruct : q.isConstruct = p.isConstruct
  /-- The outputs have the same columns. -/
  schema : q'.schema = p'.schema
  /-- The operators that introduce variables are the same. -/
  holders : q'.postorder.filter isHolder = p'.postorder.filter isHolder

variable {checked : Bool} {p p' q q' n : Plan}

/-! ### What is seen from above -/

/-- Of the operators that introduce variables only the scans count for a run of scans. -/
theorem scanRunWidth_congr_scan? {l l' : List Plan} (h : l'.map scan? = l.map scan?) :
    scanRunWidth l' = scanRunWidth l := by
  induction l generalizing l' with
  | nil =>
    rw [List.map_nil, List.map_eq_nil_iff] at h
    rw [h]
  | cons n l ih =>
    obtain ⟨m, rest, rfl, hm, hrest⟩ := List.map_eq_cons_iff.mp h
    cases n <;> cases m <;> simp_all [scan?, scanRunWidth]

namespace Interchangeable

theorem output_eq (h : Interchangeable checked p p' q q') (a : Surroundings) :
    (a.around q').output = (a.around p').output := by
  unfold output
  cases a with
  | top => exact congrArg (·.getD .empty) h.schema
  | _ => rfl

theorem isConstruct_around (h : Interchangeable checked p p' q q') (a : Surroundings) :
    (a.around q).isConstruct = (a.around p).isConstruct := by
  cases a with
  | top => exact h.isConstruct
  | _ => rfl

/-- The scans among the operators that introduce variables stand at the same places. -/
theorem scans_around (h : Interchangeable checked p p' q q') (a : Surroundings) :
    ((a.around q').postorder.filter isHolder).map scan?
      = ((a.around p').postorder.filter isHolder).map scan? := by
  induction a with
  | top => exact congrArg (List.map scan?) h.holders
  | unary op rest d ih =>
    have htop : ([Plan.unary op (rest.around q') d].filter isHolder).map scan?
        = ([Plan.unary op (rest.around p') d].filter isHolder).map scan? := by
      cases op <;> rfl
    simp only [Surroundings.around, postorder_unary, List.filter_append, List.map_append, ih, htop]
  | left op rest r d ih | right op l rest d ih =>
    simp only [Surroundings.around, postorder_binary, List.filter_append, List.map_append, ih]
    rfl

/-- A grouping above folds as many columns. -/
theorem foldedWidth_eq (h : Interchangeable checked p p' q q') (op : Unary) (a : Surroundings) :
    foldedWidth op (a.around q') = foldedWidth op (a.around p') := by
  have hwidth : trailingWidth (a.around q') = trailingWidth (a.around p') := by
    apply scanRunWidth_congr_scan?
    rw [List.map_reverse, List.map_reverse, List.map_drop, List.map_drop, h.scans_around a]
  cases op with
  | group g => exact hwidth
  | _ => rfl

end Interchangeable

/-! ### Resolution -/

/-- Whether and why recording a schema fails does not depend on the operator that gets it. -/
theorem failure_record_congr {name : String} {d : Option Schema}
    {build build' : Option Schema → Plan} (x : Except PlanError Schema) :
    (record checked name d build' x).failure = (record checked name d build x).failure := by
  ext e
  rw [failure_record_eq_some_iff, failure_record_eq_some_iff]

/-- In the surroundings `a` both plans fail for the same reason, or both are resolved, with the same
operators above them. -/
structure ResolvedAlike (checked : Bool) (p p' q q' : Plan) (a : Surroundings) : Prop where
  /-- The failure is the same. -/
  failure : ((a.around q).resolve checked).failure = ((a.around p).resolve checked).failure
  /-- If there is none, the surroundings are the same. -/
  complete : ∀ n, (a.around p).resolve checked = .done n →
    ∃ a' : Surroundings, n = a'.around p' ∧ (a.around q).resolve checked = .done (a'.around q')

/-- If both stop for the same reason, nothing else is to be shown. -/
theorem ResolvedAlike.of_stopped {a : Surroundings} {m : Plan} {e : PlanError}
    (hp : (a.around p).resolve checked = .stopped n e)
    (hq : (a.around q).resolve checked = .stopped m e) : ResolvedAlike checked p p' q q' a := by
  obtain ⟨-, hp⟩ := Attempt.eq_stopped_iff.mp hp
  obtain ⟨-, hq⟩ := Attempt.eq_stopped_iff.mp hq
  refine ⟨hq.trans hp.symm, fun n hn => ?_⟩
  rw [hn] at hp
  cases hp

/-- If an operator is recorded over both, only the place of the subplan tells the results apart. -/
theorem ResolvedAlike.of_record {a : Surroundings} {name : String} {d : Option Schema}
    {x : Except PlanError Schema} (above : Option Schema → Surroundings)
    (hp : (a.around p).resolve checked = record checked name d (fun d => (above d).around p') x)
    (hq : (a.around q).resolve checked = record checked name d (fun d => (above d).around q') x) :
    ResolvedAlike checked p p' q q' a := by
  constructor
  · rw [hp, hq]
    exact failure_record_congr x
  · intro n hn
    rw [hp, record_eq_done_iff] at hn
    obtain ⟨out, hx, hagrees, rfl⟩ := hn
    exact ⟨above (some out), rfl, hq.trans (record_eq_done_iff.mpr ⟨out, hx, hagrees, rfl⟩)⟩

/-- Interchangeable plans are resolved alike in all surroundings: the failure is the same, or the
operators above them are resolved to the same positions and get the same schemas. -/
theorem Interchangeable.resolve_around (h : Interchangeable checked p p' q q') (a : Surroundings) :
    ResolvedAlike checked p p' q q' a := by
  induction a with
  | top =>
    constructor
    · show (q.resolve checked).failure = (p.resolve checked).failure
      rw [h.left, h.right]
      rfl
    · intro n hn
      cases h.left.symm.trans hn
      exact ⟨.top, rfl, h.right⟩
  | unary op rest d ih =>
    have hsame := h.isConstruct_around rest
    rcases input_cases checked (rest.around p) with hc | ⟨hc, e, hp⟩ | ⟨hc, n, hp⟩
    · apply ResolvedAlike.of_stopped
      · exact resolve_unary_of_construct hc
      · exact resolve_unary_of_construct (hsame.trans hc)
    · apply ResolvedAlike.of_stopped
      · exact resolve_unary_of_stopped hc hp
      · exact resolve_unary_of_stopped (hsame.trans hc) (ih.failure.trans hp)
    · -- the inputs are resolved, and the operator sees no difference between them
      obtain ⟨rest', rfl, hq⟩ := ih.complete n hp
      have hwidth := h.foldedWidth_eq op rest'
      cases hf : foldedWidth op (rest'.around p') with
      | none =>
        apply ResolvedAlike.of_stopped
        · exact resolve_unary_of_unfolded hc hp hf
        · exact resolve_unary_of_unfolded (hsame.trans hc) hq (hwidth.trans hf)
      | some folded =>
        refine .of_record (.unary _ rest') (resolve_unary_of_done hc hp hf) ?_
        rw [← h.output_eq rest']
        exact resolve_unary_of_done (hsame.trans hc) hq (hwidth.trans hf)
  | left op rest r d ih =>
    have hsame := h.isConstruct_around rest
    rcases input_cases checked (rest.around p) with hcl | ⟨hcl, e, hp⟩ | ⟨hcl, n, hp⟩
    · apply ResolvedAlike.of_stopped
      · exact resolve_binary_of_left_construct hcl
      · exact resolve_binary_of_left_construct (hsame.trans hcl)
    · apply ResolvedAlike.of_stopped
      · exact resolve_binary_of_left_stopped hcl hp
      · exact resolve_binary_of_left_stopped (hsame.trans hcl) (ih.failure.trans hp)
    · obtain ⟨rest', rfl, hq⟩ := ih.complete n hp
      rcases input_cases checked r with hcr | ⟨hcr, e, hr⟩ | ⟨hcr, r', hr⟩
      · apply ResolvedAlike.of_stopped
        · exact resolve_binary_of_right_construct hcl hp hcr
        · exact resolve_binary_of_right_construct (hsame.trans hcl) hq hcr
      · apply ResolvedAlike.of_stopped
        · exact resolve_binary_of_right_stopped hcl hp hcr hr
        · exact resolve_binary_of_right_stopped (hsame.trans hcl) hq hcr hr
      · refine .of_record (.left _ rest' r') (resolve_binary_of_done hcl hp hcr hr) ?_
        rw [← h.output_eq rest']
        exact resolve_binary_of_done (hsame.trans hcl) hq hcr hr
  | right op l rest d ih =>
    have hsame := h.isConstruct_around rest
    rcases input_cases checked l with hcl | ⟨hcl, e, hl⟩ | ⟨hcl, l', hl⟩
    · apply ResolvedAlike.of_stopped
      · exact resolve_binary_of_left_construct hcl
      · exact resolve_binary_of_left_construct hcl
    · apply ResolvedAlike.of_stopped
      · exact resolve_binary_of_left_stopped hcl hl
      · exact resolve_binary_of_left_stopped hcl hl
    · rcases input_cases checked (rest.around p) with hcr | ⟨hcr, e, hp⟩ | ⟨hcr, n, hp⟩
      · apply ResolvedAlike.of_stopped
        · exact resolve_binary_of_right_construct hcl hl hcr
        · exact resolve_binary_of_right_construct hcl hl (hsame.trans hcr)
      · apply ResolvedAlike.of_stopped
        · exact resolve_binary_of_right_stopped hcl hl hcr hp
        · exact resolve_binary_of_right_stopped hcl hl (hsame.trans hcr) (ih.failure.trans hp)
      · -- both inputs are resolved, and the operator sees the same width and columns
        obtain ⟨rest', rfl, hq⟩ := ih.complete n hp
        refine .of_record (.right _ l' rest') (resolve_binary_of_done hcl hl hcr hp) ?_
        rw [← h.output_eq rest']
        exact resolve_binary_of_done hcl hl (hsame.trans hcr) hq

end TwigAlgebra.Plan
