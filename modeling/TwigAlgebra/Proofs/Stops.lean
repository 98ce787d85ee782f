import TwigAlgebra.Proofs.PlanResolution

/-!
# Where resolution stops

Resolution goes through a plan in post-order, and an operator whose inputs are resolved either is
resolved itself or is refused: because its pattern is no tree, because the scans to be folded have
no width, because a parameter cannot be settled, because its rule does not apply, or because it
declares another width.  The first operator that is refused is where resolution stops, unless a
construction is an input, which is found out before that input is resolved.

## Main definitions

* `Plan.Refused` — why an operator is refused over resolved inputs.
* `Plan.FirstStop` — the operators before this one are resolved, and this one is refused.

## Main results

* `Plan.input_cases` — an input is a construction, or it is not resolved, or it is.
* `Plan.exists_firstStop` — resolution stops at the first operator that is refused.
-/

namespace TwigAlgebra

namespace Plan

variable {checked : Bool} {op : Unary} {p p' n : Plan} {d : Option Schema} {e : PlanError}

/-! ### One operator, case by case -/

theorem resolve_unary_of_construct (hc : p.isConstruct = true) :
    (unary op p d).resolve checked = .stopped (unary op p d) constructionBelow := by
  rw [resolve, if_pos hc]

theorem resolve_unary_of_stopped (hc : p.isConstruct = false)
    (hp : (p.resolve checked).failure = some e) :
    (unary op p d).resolve checked = .stopped (unary op (p.resolve checked).value d) e := by
  simp only [resolve, hc, hp, Bool.false_eq_true, if_false]

theorem resolve_unary_of_unfolded (hc : p.isConstruct = false)
    (hp : p.resolve checked = .done p') (hf : foldedWidth op p' = none) :
    (unary op p d).resolve checked = .stopped (unary op p' d) .lostHandle := by
  simp only [resolve, hc, hp, Attempt.failure_done, Attempt.value_done, hf, Bool.false_eq_true,
    if_false]

theorem resolve_unary_of_done {folded : Nat} (hc : p.isConstruct = false)
    (hp : p.resolve checked = .done p') (hf : foldedWidth op p' = some folded) :
    (unary op p d).resolve checked
      = record checked op.name d (unary (op.resolve folded p'.output).1 p')
          (op.resolve folded p'.output).2 := by
  simp only [resolve, hc, hp, Attempt.failure_done, Attempt.value_done, hf, Bool.false_eq_true,
    if_false]

section Binary

variable {op : Binary} {l l' r r' : Plan}

theorem resolve_binary_of_left_construct (hc : l.isConstruct = true) :
    (binary op l r d).resolve checked = .stopped (binary op l r d) constructionBelow := by
  rw [resolve, if_pos hc]

theorem resolve_binary_of_left_stopped (hc : l.isConstruct = false)
    (hl : (l.resolve checked).failure = some e) :
    (binary op l r d).resolve checked = .stopped (binary op (l.resolve checked).value r d) e := by
  simp only [resolve, hc, hl, Bool.false_eq_true, if_false]

theorem resolve_binary_of_right_construct (hcl : l.isConstruct = false)
    (hl : l.resolve checked = .done l') (hcr : r.isConstruct = true) :
    (binary op l r d).resolve checked = .stopped (binary op l' r d) constructionBelow := by
  simp only [resolve, hcl, hl, hcr, Attempt.failure_done, Attempt.value_done, Bool.false_eq_true,
    if_false, if_true]

theorem resolve_binary_of_right_stopped (hcl : l.isConstruct = false)
    (hl : l.resolve checked = .done l') (hcr : r.isConstruct = false)
    (hr : (r.resolve checked).failure = some e) :
    (binary op l r d).resolve checked = .stopped (binary op l' (r.resolve checked).value d) e := by
  simp only [resolve, hcl, hl, hcr, hr, Attempt.failure_done, Attempt.value_done,
    Bool.false_eq_true, if_false]

theorem resolve_binary_of_done (hcl : l.isConstruct = false)
    (hl : l.resolve checked = .done l') (hcr : r.isConstruct = false)
    (hr : r.resolve checked = .done r') :
    (binary op l r d).resolve checked
      = record checked op.name d (binary (op.resolve l'.output r'.output).1 l' r')
          (op.resolve l'.output r'.output).2 := by
  simp only [resolve, hcl, hl, hcr, hr, Attempt.failure_done, Attempt.value_done,
    Bool.false_eq_true, if_false]

end Binary

/-- The input of an operator is a construction, or it is not resolved, or it is. -/
theorem input_cases (checked : Bool) (p : Plan) :
    p.isConstruct = true ∨
      (p.isConstruct = false ∧ ∃ e, (p.resolve checked).failure = some e) ∨
      (p.isConstruct = false ∧ ∃ p', p.resolve checked = .done p') := by
  cases hc : p.isConstruct with
  | true => exact Or.inl rfl
  | false =>
    cases hp : (p.resolve checked).failure with
    | some e => exact Or.inr (Or.inl ⟨rfl, e, rfl⟩)
    | none => exact Or.inr (Or.inr ⟨rfl, _, Attempt.eq_done_of_complete hp⟩)

/-! ### Refusal -/

/-- Why the top operator of a plan is refused although its inputs are resolved. -/
inductive Refused (checked : Bool) : Plan → PlanError → Prop
  /-- The pattern of the scan has no list of variables. -/
  | lost {s : Scan} {d : Option Schema} (h : s.schema = none) :
    Refused checked (scan s d) .lostHandle
  /-- The scans that are to be folded have no widths. -/
  | unfolded {op : Unary} {p p' : Plan} {d : Option Schema} (hp : p.resolve checked = .done p')
    (hf : foldedWidth op p' = none) : Refused checked (unary op p d) .lostHandle
  /-- A parameter cannot be settled. -/
  | unarySettle {op : Unary} {p p' : Plan} {d : Option Schema} {e : PlanError}
    (hp : p.resolve checked = .done p') (h : (op.settle p'.output).failure = some e) :
    Refused checked (unary op p d) e
  /-- The rule of the operator does not apply. -/
  | rule {op : Unary} {p p' : Plan} {d : Option Schema} {folded : Nat} {e : PlanError}
    (hp : p.resolve checked = .done p') (hf : foldedWidth op p' = some folded)
    (hsettle : (op.settle p'.output).failure = none)
    (h : (op.settle p'.output).value.rule op.name folded p'.output = .error e) :
    Refused checked (unary op p d) e
  /-- A parameter cannot be settled. -/
  | binarySettle {op : Binary} {l l' r r' : Plan} {d : Option Schema} {e : PlanError}
    (hl : l.resolve checked = .done l') (hr : r.resolve checked = .done r')
    (h : (op.settle l'.output r'.output).failure = some e) : Refused checked (binary op l r d) e
  /-- The operator declares another width than it has. -/
  | declared {n : Plan} {declared computed : Schema} (hchecked : checked = true)
    (hn : n.schema = some declared) (hw : declared.width ≠ computed.width) :
    Refused checked n (.widthMismatch n.name declared.width computed.width)

/-- Recording a schema fails if there is none, or if another width is declared. -/
theorem failure_record_eq_some_iff {name : String} {build : Option Schema → Plan}
    {x : Except PlanError Schema} : (record checked name d build x).failure = some e ↔
      x = .error e ∨ checked = true ∧ ∃ declared computed, d = some declared ∧ x = .ok computed ∧
        declared.width ≠ computed.width ∧ e = .widthMismatch name declared.width computed.width := by
  cases x with
  | error e' => simp [record]
  | ok computed =>
    cases d with
    | none => simp [record]
    | some declared =>
      rw [record]
      split
      · next h =>
        refine ⟨fun h' => Or.inr ⟨h.1, _, _, rfl, rfl, h.2, (Option.some.inj h').symm⟩, ?_⟩
        rintro (h' | ⟨-, _, _, ⟨⟩, ⟨⟩, -, rfl⟩)
        · cases h'
        · rfl
      · next h =>
        refine iff_of_false (Option.some_ne_none e).symm ?_
        rintro (h' | ⟨hchecked, _, _, ⟨⟩, ⟨⟩, hw, -⟩)
        · cases h'
        · exact h ⟨hchecked, hw⟩

/-- The operators before `n` in post-order are resolved, and `n` is refused. -/
structure FirstStop (checked : Bool) (p : Plan) (e : PlanError) (n : Plan) : Prop where
  /-- Everything before it is resolved. -/
  first : ∃ before after, p.postorder = before ++ n :: after ∧
    ∀ m ∈ before, (m.resolve checked).failure = none
  /-- It is not resolved itself. -/
  failure : (n.resolve checked).failure = some e
  /-- Its inputs are resolved. -/
  refused : Refused checked n e

/-- A stop in the first operators of a plan is a stop in the plan. -/
theorem FirstStop.of_append {q : Plan} {l l' : List Plan} (h : FirstStop checked q e n)
    (hp : p.postorder = l ++ q.postorder ++ l')
    (hl : ∀ m ∈ l, (m.resolve checked).failure = none) : FirstStop checked p e n := by
  obtain ⟨before, after, hq, hbefore⟩ := h.first
  refine ⟨⟨l ++ before, after ++ l', ?_, List.forall_mem_append.mpr ⟨hl, hbefore⟩⟩, h.failure,
    h.refused⟩
  simp only [hp, hq, List.append_assoc, List.cons_append]

/-- An operator whose inputs are resolved is itself where resolution stops, if it is refused. -/
theorem Refused.firstStop (h : Refused checked n e)
    (hfailure : (n.resolve checked).failure = some e)
    (hbeneath : ∀ m ∈ n.beneath, (m.resolve checked).failure = none) : FirstStop checked n e n :=
  ⟨⟨n.beneath, [], n.postorder_eq, hbeneath⟩, hfailure, h⟩

/-- Resolution stops at the first operator that is refused, unless a construction is an input. -/
theorem exists_firstStop (h : (p.resolve checked).failure = some e) (he : e ≠ constructionBelow) :
    ∃ n, FirstStop checked p e n := by
  have hfailure := h
  induction p with
  | scan s d =>
    rw [resolve] at h
    cases hs : s.schema with
    | none =>
      rw [hs] at h
      cases h
      exact ⟨_, Refused.firstStop (.lost hs) hfailure (List.forall_mem_nil _)⟩
    | some out =>
      -- a scan is refused only for the width that it declares
      rw [hs] at h
      rcases failure_record_eq_some_iff.mp h with hx | ⟨hchecked, _, _, hd, -, hw, rfl⟩
      · cases hx
      · exact ⟨_, Refused.firstStop (.declared (n := scan s d) hchecked hd hw) hfailure
          (List.forall_mem_nil _)⟩
  | unary op p d ih =>
    rcases input_cases checked p with hc | ⟨hc, e', hp⟩ | ⟨hc, p', hp⟩
    · rw [resolve_unary_of_construct hc] at h
      cases h
      exact absurd rfl he
    · rw [resolve_unary_of_stopped hc hp] at h
      cases h
      obtain ⟨n, hn⟩ := ih hp hp
      exact ⟨n, hn.of_append (l := []) rfl (List.forall_mem_nil _)⟩
    · have hbeneath : ∀ m ∈ (unary op p d).beneath, (m.resolve checked).failure = none :=
        beneath_unary op p d ▸ forall_mem_complete hp
      -- the input is resolved, so the operator is where resolution stops
      suffices hrefused : Refused checked (unary op p d) e from
        ⟨_, hrefused.firstStop hfailure hbeneath⟩
      cases hf : foldedWidth op p' with
      | none =>
        rw [resolve_unary_of_unfolded hc hp hf] at h
        cases h
        exact .unfolded hp hf
      | some folded =>
        rw [resolve_unary_of_done hc hp hf, Unary.resolve_eq, failure_record_eq_some_iff,
          Attempt.outcome_eq_error_iff] at h
        -- settling, the rule, and the width that is declared
        rcases h with (hsettle | ⟨hsettle, hrule⟩) | ⟨hchecked, _, _, hd, -, hw, rfl⟩
        · exact .unarySettle hp hsettle
        · exact .rule hp hf hsettle hrule
        · exact .declared (n := unary op p d) hchecked hd hw
  | binary op l r d ihl ihr =>
    rcases input_cases checked l with hcl | ⟨hcl, e', hl⟩ | ⟨hcl, l', hl⟩
    · rw [resolve_binary_of_left_construct hcl] at h
      cases h
      exact absurd rfl he
    · rw [resolve_binary_of_left_stopped hcl hl] at h
      cases h
      obtain ⟨n, hn⟩ := ihl hl hl
      -- the operators on the left come first, and none of the others matters
      have hsplit : (binary op l r d).postorder
          = [] ++ l.postorder ++ (r.postorder ++ [binary op l r d]) := by
        rw [postorder_binary, List.nil_append, List.append_assoc]
      exact ⟨n, hn.of_append hsplit (List.forall_mem_nil _)⟩
    · rcases input_cases checked r with hcr | ⟨hcr, e', hr⟩ | ⟨hcr, r', hr⟩
      · rw [resolve_binary_of_right_construct hcl hl hcr] at h
        cases h
        exact absurd rfl he
      · rw [resolve_binary_of_right_stopped hcl hl hcr hr] at h
        cases h
        obtain ⟨n, hn⟩ := ihr hr hr
        exact ⟨n, hn.of_append (postorder_binary op l r d) (forall_mem_complete hl)⟩
      · have hbeneath : ∀ m ∈ (binary op l r d).beneath, (m.resolve checked).failure = none := by
          rw [beneath_binary]
          exact List.forall_mem_append.mpr ⟨forall_mem_complete hl, forall_mem_complete hr⟩
        suffices hrefused : Refused checked (binary op l r d) e from
          ⟨_, hrefused.firstStop hfailure hbeneath⟩
        rw [resolve_binary_of_done hcl hl hcr hr, Binary.resolve_eq, failure_record_eq_some_iff,
          Attempt.outcome_eq_error_iff] at h
        rcases h with (hsettle | ⟨-, hrule⟩) | ⟨hchecked, _, _, hd, -, hw, rfl⟩
        · exact .binarySettle hl hr hsettle
        · cases hrule
        · exact .declared (n := binary op l r d) hchecked hd hw

end Plan

end TwigAlgebra
