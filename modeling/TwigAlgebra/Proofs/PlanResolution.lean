import Mathlib.Data.List.Forall2
import TwigAlgebra.Proofs.Operators

/-!
# Resolving plans

What one operator contributes to the resolution of a plan.  The inputs are resolved first, and
their columns, one input after the other, are the columns that the operator's references mean.

## Main definitions

* `Plan.input` — the columns of the inputs of the top operator.
* `Plan.slots` — the slots of the top operator.
* `Plan.beneath` — the subplans below the top operator.
* `Plan.Agrees` — a declared schema lets the computed one take its place.
* `Plan.Recast` — the same operator with other references.

## Main results

* `Plan.resolve_scan_eq_done_iff`, `Plan.resolve_unary_eq_done_iff`,
  `Plan.resolve_binary_eq_done_iff` — when a plan is resolved, and to what.
* `Plan.forall₂_postorder_of_resolve` — a resolved plan has the operators of the plan before, in the
  same order, each resolved.
* `Plan.recast_of_resolve`, `Plan.forall₂_recast_of_resolve` — resolution changes the references of
  the operators, and nothing else.
-/

namespace TwigAlgebra

/-- The columns of one schema. -/
@[simp] theorem Schema.concat_singleton (s : Schema) : concat [s] = s := by
  obtain ⟨columns⟩ := s
  rw [concat, List.flatMap_singleton]

namespace Plan

/-- The columns of the inputs of the top operator, one input after the other. -/
def input (n : Plan) : Schema := Schema.concat (n.inputs.map output)

/-- The slots of the top operator. -/
def slots : Plan → List Slot
  | scan .. => []
  | unary op _ _ => op.slots
  | binary op _ _ _ => op.slots

/-- The subplans strictly below the top operator, in post-order. -/
def beneath (n : Plan) : List Plan := n.inputs.flatMap postorder

@[simp] theorem input_scan (s : Scan) (d : Option Schema) : (scan s d).input = .empty := rfl

@[simp] theorem input_unary (op : Unary) (p : Plan) (d : Option Schema) :
    (unary op p d).input = p.output := by
  simp [input, inputs]

@[simp] theorem input_binary (op : Binary) (l r : Plan) (d : Option Schema) :
    (binary op l r d).input = Schema.concat [l.output, r.output] := rfl

@[simp] theorem beneath_scan (s : Scan) (d : Option Schema) : (scan s d).beneath = [] := rfl

@[simp] theorem beneath_unary (op : Unary) (p : Plan) (d : Option Schema) :
    (unary op p d).beneath = p.postorder := by
  simp [beneath, inputs]

@[simp] theorem beneath_binary (op : Binary) (l r : Plan) (d : Option Schema) :
    (binary op l r d).beneath = l.postorder ++ r.postorder := by
  simp [beneath, inputs]

/-- The top operator comes after everything below it. -/
theorem postorder_eq (n : Plan) : n.postorder = n.beneath ++ [n] := by
  cases n <;> simp

/-- The operators of a subplan stand in the plan in the same order. -/
theorem postorder_sublist {p n : Plan} (hn : n ∈ p.postorder) : n.postorder.Sublist p.postorder := by
  induction p with
  | scan s d =>
    rw [List.mem_singleton.mp hn]
  | unary op p d ih =>
    rcases List.mem_append.mp hn with hn | hn
    · exact (ih hn).trans (List.sublist_append_left _ _)
    · rw [List.mem_singleton.mp hn]
  | binary op left right d ihl ihr =>
    rcases List.mem_append.mp hn with hn | hn
    · refine List.Sublist.trans ?_ (List.sublist_append_left _ _)
      rcases List.mem_append.mp hn with hn | hn
      · exact (ihl hn).trans (List.sublist_append_left _ _)
      · exact (ihr hn).trans (List.sublist_append_right _ _)
    · rw [List.mem_singleton.mp hn]

/-- The inputs of the top operator are subplans. -/
theorem mem_postorder_of_mem_inputs {n q : Plan} (hq : q ∈ n.inputs) : q ∈ n.postorder := by
  rw [postorder_eq]
  exact List.mem_append_left _ (List.mem_flatMap_of_mem hq (mem_postorder_self q))

theorem map_ref_slots (n : Plan) : n.slots.map Slot.ref = n.columns := by
  cases n with
  | scan s d => rfl
  | unary op p d => exact op.map_ref_slots
  | binary op l r d => exact op.map_ref_slots

/-- The schema of a plan that has one is its output. -/
theorem output_eq {p : Plan} {out : Schema} (h : p.schema = some out) : p.output = out := by
  rw [output, h]
  rfl

/-! ### Recording a schema -/

/-- The computed schema may take the place of the declared one: if declared schemas are checked, a
declared one has the same width. -/
def Agrees (checked : Bool) (declared : Option Schema) (computed : Schema) : Prop :=
  checked = true → ∀ d ∈ declared, d.width = computed.width

theorem record_ok_eq_done_iff {checked : Bool} {name : String} {declared : Option Schema}
    {build : Option Schema → Plan} {computed : Schema} {r : Plan} :
    record checked name declared build (.ok computed) = .done r
      ↔ Agrees checked declared computed ∧ r = build (some computed) := by
  cases declared with
  | none => simp [record, Agrees, Attempt.eq_done_iff, eq_comm]
  | some d =>
    cases checked with
    | false => simp [record, Agrees, Attempt.eq_done_iff, eq_comm]
    | true =>
      by_cases hw : d.width = computed.width
      · simp [record, Agrees, hw, Attempt.eq_done_iff, eq_comm]
      · simp [record, Agrees, hw, Attempt.eq_done_iff]

theorem record_eq_done_iff {checked : Bool} {name : String} {declared : Option Schema}
    {build : Option Schema → Plan} {x : Except PlanError Schema} {r : Plan} :
    record checked name declared build x = .done r
      ↔ ∃ out, x = .ok out ∧ Agrees checked declared out ∧ r = build (some out) := by
  cases x with
  | error e => simp [record, Attempt.eq_done_iff]
  | ok out => simp [record_ok_eq_done_iff]

/-! ### Resolved plans, operator by operator -/

variable {checked : Bool} {d : Option Schema} {r : Plan}

theorem resolve_scan_eq_done_iff {s : Scan} :
    (scan s d).resolve checked = .done r
      ↔ ∃ out, s.schema = some out ∧ Agrees checked d out ∧ r = scan s (some out) := by
  cases h : s.schema with
  | none => simp [resolve, h, Attempt.eq_done_iff]
  | some out => simp [resolve, h, record_ok_eq_done_iff]

theorem resolve_unary_eq_done_iff {op : Unary} {p : Plan} :
    (unary op p d).resolve checked = .done r
      ↔ p.isConstruct = false ∧ ∃ p' folded out, p.resolve checked = .done p' ∧
        foldedWidth op p' = some folded ∧ (op.settle p'.output).failure = none ∧
        (op.settle p'.output).value.rule op.name folded p'.output = .ok out ∧
        Agrees checked d out ∧ r = unary (op.settle p'.output).value p' (some out) := by
  rw [resolve]
  -- the input, the width to be folded, the references, the rule, and the record, in this order
  cases hc : p.isConstruct with
  | true => simp [Attempt.eq_done_iff]
  | false =>
    cases hp : (p.resolve checked).failure with
    | some e => simp [hp, Attempt.eq_done_iff]
    | none =>
      have hdone := Attempt.eq_done_of_complete hp
      cases hf : foldedWidth op (p.resolve checked).value with
      | none =>
        -- the run of scans to be folded has no width
        simp only [hp, hf, Bool.false_eq_true, if_false]
        refine iff_of_false (by simp [Attempt.eq_done_iff]) ?_
        rintro ⟨-, p', folded, out, hp', hf', -⟩
        rw [hp', Attempt.value_done] at hf
        rw [hf] at hf'
        cases hf'
      | some folded =>
        simp only [hp, hf, Bool.false_eq_true, if_false, Unary.resolve_eq, record_eq_done_iff,
          Attempt.outcome_eq_ok_iff, true_and]
        constructor
        · rintro ⟨out, ⟨hs, hrule⟩, hagrees, hr⟩
          exact ⟨_, folded, out, hdone, hf, hs, hrule, hagrees, hr⟩
        · rintro ⟨p', folded', out, hp', hf', hs, hrule, hagrees, hr⟩
          have hval : (p.resolve checked).value = p' := by rw [hp', Attempt.value_done]
          rw [hval] at hf ⊢
          cases hf.symm.trans hf'
          exact ⟨out, ⟨hs, hrule⟩, hagrees, hr⟩

theorem resolve_binary_eq_done_iff {op : Binary} {left right : Plan} :
    (binary op left right d).resolve checked = .done r
      ↔ left.isConstruct = false ∧ right.isConstruct = false ∧ ∃ l' r',
        left.resolve checked = .done l' ∧ right.resolve checked = .done r' ∧
        (op.settle l'.output r'.output).failure = none ∧
        Agrees checked d ((op.settle l'.output r'.output).value.rule l'.output r'.output) ∧
        r = binary (op.settle l'.output r'.output).value l' r'
          (some ((op.settle l'.output r'.output).value.rule l'.output r'.output)) := by
  rw [resolve]
  -- left before right, and each is refused as a construction before it is resolved
  cases hcl : left.isConstruct with
  | true => simp [Attempt.eq_done_iff]
  | false =>
    cases hl : (left.resolve checked).failure with
    | some e => simp [hl, Attempt.eq_done_iff]
    | none =>
      cases hcr : right.isConstruct with
      | true => simp [hl, Attempt.eq_done_iff]
      | false =>
        cases hr : (right.resolve checked).failure with
        | some e => simp [hl, hr, Attempt.eq_done_iff]
        | none =>
          simp only [hl, hr, Bool.false_eq_true, if_false, Binary.resolve_eq, record_eq_done_iff,
            Attempt.outcome_eq_ok_iff, Except.ok.injEq, true_and]
          constructor
          · rintro ⟨out, ⟨hs, rfl⟩, hagrees, hr'⟩
            exact ⟨_, _, Attempt.eq_done_of_complete hl, Attempt.eq_done_of_complete hr, hs,
              hagrees, hr'⟩
          · rintro ⟨l', r', hl', hr', hs, hagrees, heq⟩
            rw [hl', hr', Attempt.value_done, Attempt.value_done]
            exact ⟨_, ⟨hs, rfl⟩, hagrees, heq⟩

/-- A resolved plan carries the schema of its output. -/
theorem schema_of_resolve {p : Plan} (h : p.resolve checked = .done r) :
    r.schema = some r.output := by
  cases p with
  | scan s d =>
    obtain ⟨out, -, -, rfl⟩ := resolve_scan_eq_done_iff.mp h
    rfl
  | unary op p d =>
    obtain ⟨-, p', folded, out, -, -, -, -, -, rfl⟩ := resolve_unary_eq_done_iff.mp h
    rfl
  | binary op left right d =>
    obtain ⟨-, -, l', r', -, -, -, -, rfl⟩ := resolve_binary_eq_done_iff.mp h
    rfl

variable {p n m : Plan}

/-- A resolved plan has the operators of the plan before, in the same order, each resolved with all
that is below it. -/
theorem forall₂_postorder_of_resolve (h : p.resolve checked = .done r) :
    List.Forall₂ (fun n m => n.resolve checked = .done m) p.postorder r.postorder := by
  induction p generalizing r with
  | scan s d =>
    obtain ⟨out, -, -, rfl⟩ := resolve_scan_eq_done_iff.mp h
    exact .cons h .nil
  | unary op p d ih =>
    obtain ⟨-, p', folded, out, hp, -, -, -, -, rfl⟩ := resolve_unary_eq_done_iff.mp h
    exact List.rel_append (ih hp) (.cons h .nil)
  | binary op left right d ihl ihr =>
    obtain ⟨-, -, l', r', hl, hr, -, -, rfl⟩ := resolve_binary_eq_done_iff.mp h
    exact List.rel_append (List.rel_append (ihl hl) (ihr hr)) (.cons h .nil)

/-- Every operator of a resolved plan is the resolution of one of the plan before. -/
theorem exists_resolve_of_mem (h : p.resolve checked = .done r) (hm : m ∈ r.postorder) :
    ∃ n ∈ p.postorder, n.resolve checked = .done m :=
  (forall₂_postorder_of_resolve h).exists_of_mem_right hm

/-- All operators of a plan that is resolved are resolved. -/
theorem forall_mem_complete (h : p.resolve checked = .done r) :
    ∀ n ∈ p.postorder, (n.resolve checked).failure = none := by
  intro n hn
  obtain ⟨m, -, hm⟩ := (forall₂_postorder_of_resolve h).flip.exists_of_mem_right hn
  exact (Attempt.eq_done_iff.mp hm).2

/-! ### References of a resolved operator -/

/-- The top operators are the same, but for their references. -/
inductive Recast (f : Nat → ColumnRef → ColumnRef) : Plan → Plan → Prop
  /-- Scans have no references. -/
  | scan (s : Scan) (d d' : Option Schema) : Recast f (scan s d) (scan s d')
  /-- The references of an operator with one input are replaced. -/
  | unary (op : Unary) (p p' : Plan) (d d' : Option Schema) :
      Recast f (unary op p d) (unary (op.mapRefs f) p' d')
  /-- The references of an operator with two inputs are replaced. -/
  | binary (op : Binary) (l r l' r' : Plan) (d d' : Option Schema) :
      Recast f (binary op l r d) (binary (op.mapRefs f) l' r' d')

theorem Recast.slots_eq {f : Nat → ColumnRef → ColumnRef} (h : Recast f n m) :
    m.slots = n.slots.map (Slot.map f) := by
  cases h with
  | scan s d d' => rfl
  | unary op p p' d d' => exact Unary.slots_mapRefs f op
  | binary op l r l' r' d d' => exact Binary.slots_mapRefs f op

/-- Resolution replaces the references of an operator by their targets, and none has a fault. -/
theorem recast_of_resolve (h : n.resolve checked = .done m) :
    Recast m.input.positions.target n m ∧
      ∀ s ∈ n.slots, m.input.positions.fault n.name s = none := by
  cases n with
  | scan s d =>
    obtain ⟨out, -, -, rfl⟩ := resolve_scan_eq_done_iff.mp h
    exact ⟨.scan s d _, nofun⟩
  | unary op p d =>
    obtain ⟨-, p', folded, out, -, -, hsettle, -, -, rfl⟩ := resolve_unary_eq_done_iff.mp h
    obtain ⟨hvalue, hslots⟩ := (op.settles p'.output).complete hsettle
    rw [input_unary, hvalue]
    exact ⟨.unary op p p' d _, hslots⟩
  | binary op left right d =>
    obtain ⟨-, -, l', r', -, -, hsettle, -, rfl⟩ := resolve_binary_eq_done_iff.mp h
    obtain ⟨hvalue, hslots⟩ := (op.settles l'.output r'.output).complete hsettle
    rw [input_binary, hvalue]
    exact ⟨.binary op left right l' r' d _, hslots⟩

/-- A resolved plan has the operators of the plan before, in the same order; resolution replaces
their references by their targets, and nothing else. -/
theorem forall₂_recast_of_resolve (h : p.resolve checked = .done r) :
    List.Forall₂ (fun n m => Recast m.input.positions.target n m) p.postorder r.postorder :=
  (forall₂_postorder_of_resolve h).imp fun _ _ hnm => (recast_of_resolve hnm).1

end Plan

theorem Query.resolve_eq_done_iff {checked : Bool} {q r : Query} :
    q.resolve checked = .done r
      ↔ q.root.resolve checked = .done r.root ∧ r.stage = .resolved := by
  obtain ⟨root, stage⟩ := r
  rw [Query.resolve]
  cases h : (q.root.resolve checked).failure with
  | some e => simp [Attempt.eq_done_iff, h]
  | none =>
    simp only [Attempt.eq_done_iff, Attempt.value_done, Attempt.failure_done, h, and_true,
      Query.mk.injEq]
    exact and_congr_right fun _ => eq_comm

end TwigAlgebra
