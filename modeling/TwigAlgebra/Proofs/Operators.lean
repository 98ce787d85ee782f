import TwigAlgebra.Proofs.References
import TwigAlgebra.Resolution

/-!
# Resolving one operator

An operator is resolved in two steps: its parameters are settled, that is resolved and checked
list by list, and then its rule gives the columns of its output.  This module says once what either
step can do.

## Main definitions

* `Unary.slots`, `Binary.slots` — the slots of an operator, in the order in which they are resolved.
* `Unary.mapRefs`, `Binary.mapRefs` — an operator with other references in its slots.
* `Attempt.Settles` — an attempt replaces the references of some slots by their targets.
* `Unary.settle`, `Binary.settle` — settling the parameters of an operator.
* `Unary.rule`, `Binary.rule` — the columns of the output.
* `Schema.Addresses` — a path leads through nested columns.

## Main results

* `Unary.resolve_eq`, `Binary.resolve_eq` — an operator is resolved by settling and by its rule.
* `Unary.settles`, `Binary.settles` — settling replaces every reference by its target, or stops at
  a slot with a fault.
* `Unary.within_of_settle`, `Binary.within_of_settle` — settled references are in range.
-/

namespace TwigAlgebra

/-! ### Slots of operators -/

/-- The slots of a grouping. -/
def Grouping.slots (g : Grouping) : List Slot :=
  g.groupBy.map Slot.single ++ (g.reduceBy.map Slot.single ++ (g.nest.map Slot.single
    ++ (Unary.aggregated g.aggregation).map Slot.single))

/-- The slots of a nested join. -/
def NestedJoin.slots (j : NestedJoin) : List Slot :=
  j.condition.slots ++ ([Slot.single j.docIdColumn] ++ (j.nodeIdColumns.map Slot.single
    ++ (Unary.aggregated j.aggregation).map Slot.single))

/-- A nested aggregation with another reference. -/
def NestedAggregation.mapRefs (f : Nat → ColumnRef → ColumnRef) (a : NestedAggregation) :
    NestedAggregation :=
  { a with column := f 0 a.column }

/-- A grouping with other references. -/
def Grouping.mapRefs (f : Nat → ColumnRef → ColumnRef) (g : Grouping) : Grouping where
  groupBy := g.groupBy.map (f 0)
  reduceBy := g.reduceBy.map (f 0)
  nest := g.nest.map (f 0)
  aggregation := g.aggregation.map (NestedAggregation.mapRefs f)

/-- A nested join with other references. -/
def NestedJoin.mapRefs (f : Nat → ColumnRef → ColumnRef) (j : NestedJoin) : NestedJoin where
  condition := j.condition.mapRefs f
  docIdColumn := f 0 j.docIdColumn
  nodeIdColumns := j.nodeIdColumns.map (f 0)
  aggregation := j.aggregation.map (NestedAggregation.mapRefs f)

namespace Unary

/-- The slots of an operator with one input. -/
def slots : Unary → List Slot
  | select p => p.slots
  | project cs => cs.map Slot.single
  | distinct cs => cs.map Slot.single
  | group g => g.slots
  | aggregate a => Slot.along 0 a.path
  | flatten c => [Slot.single c]
  | construct t => t.slots

/-- The operator with other references. -/
def mapRefs (f : Nat → ColumnRef → ColumnRef) : Unary → Unary
  | select p => select (p.mapRefs f)
  | project cs => project (cs.map (f 0))
  | distinct cs => distinct (cs.map (f 0))
  | group g => group (g.mapRefs f)
  | aggregate a => aggregate { a with path := ColumnRef.mapAlong f 0 a.path }
  | flatten c => flatten (f 0 c)
  | construct t => construct (t.mapRefs f)

end Unary

namespace Binary

/-- The slots of an operator with two inputs. -/
def slots : Binary → List Slot
  | product => []
  | join p => p.slots
  | outerJoin p => p.slots
  | nestedJoin j => j.slots

/-- The operator with other references. -/
def mapRefs (f : Nat → ColumnRef → ColumnRef) : Binary → Binary
  | product => product
  | join p => join (p.mapRefs f)
  | outerJoin p => outerJoin (p.mapRefs f)
  | nestedJoin j => nestedJoin (j.mapRefs f)

end Binary

@[simp] theorem Slot.map_ref_map_single (cs : List ColumnRef) :
    (cs.map Slot.single).map Slot.ref = cs := by
  rw [List.map_map]
  exact List.map_id cs

@[simp] theorem Slot.map_map_single (f : Nat → ColumnRef → ColumnRef) (cs : List ColumnRef) :
    (cs.map Slot.single).map (Slot.map f) = (cs.map (f 0)).map Slot.single := by
  rw [List.map_map, List.map_map]
  rfl

theorem Predicate.slots_mapRefs (f : Nat → ColumnRef → ColumnRef) (p : Predicate) :
    (p.mapRefs f).slots = p.slots.map (Slot.map f) := by
  rw [slots, slots, columns_mapRefs, Slot.map_map_single]

theorem Template.slots_mapRefs (f : Nat → ColumnRef → ColumnRef) (t : Template) :
    (t.mapRefs f).slots = t.slots.map (Slot.map f) := by
  simp only [slots, paths_mapRefs, List.flatMap_map, List.map_flatMap, ColumnRef.along_mapAlong]

theorem Unary.aggregated_mapRefs (f : Nat → ColumnRef → ColumnRef) (a : Option NestedAggregation) :
    aggregated (a.map (NestedAggregation.mapRefs f)) = (aggregated a).map (f 0) := by
  cases a <;> rfl

theorem Unary.slots_mapRefs (f : Nat → ColumnRef → ColumnRef) (op : Unary) :
    (op.mapRefs f).slots = op.slots.map (Slot.map f) := by
  cases op with
  | select p => exact p.slots_mapRefs f
  | project cs => exact (Slot.map_map_single f cs).symm
  | distinct cs => exact (Slot.map_map_single f cs).symm
  | group g =>
    simp only [mapRefs, slots, Grouping.slots, Grouping.mapRefs, List.map_append,
      Slot.map_map_single, aggregated_mapRefs]
  | aggregate a => exact ColumnRef.along_mapAlong f 0 a.path
  | flatten c => rfl
  | construct t => exact t.slots_mapRefs f

theorem Binary.slots_mapRefs (f : Nat → ColumnRef → ColumnRef) (op : Binary) :
    (op.mapRefs f).slots = op.slots.map (Slot.map f) := by
  cases op with
  | product => rfl
  | join p => exact p.slots_mapRefs f
  | outerJoin p => exact p.slots_mapRefs f
  | nestedJoin j =>
    simp only [mapRefs, slots, NestedJoin.slots, NestedJoin.mapRefs, List.map_append,
      List.map_cons, List.map_nil, Predicate.slots_mapRefs, Slot.map_map_single,
      Unary.aggregated_mapRefs, Slot.map_single]

/-- The slots hold the columns among the parameters. -/
theorem Unary.map_ref_slots (op : Unary) : op.slots.map Slot.ref = op.columns := by
  cases op with
  | select p => exact Slot.map_ref_map_single p.columns
  | project cs => exact Slot.map_ref_map_single cs
  | distinct cs => exact Slot.map_ref_map_single cs
  | group g => simp only [slots, Grouping.slots, columns, List.map_append, Slot.map_ref_map_single,
      List.append_assoc]
  | aggregate a => exact Slot.map_ref_along 0 a.path
  | flatten c => rfl
  | construct t =>
    simp only [slots, Template.slots, columns, List.map_flatMap, Slot.map_ref_along]
    simp

/-- The slots hold the columns among the parameters. -/
theorem Binary.map_ref_slots (op : Binary) : op.slots.map Slot.ref = op.columns := by
  cases op with
  | product => rfl
  | join p => exact Slot.map_ref_map_single p.columns
  | outerJoin p => exact Slot.map_ref_map_single p.columns
  | nestedJoin j =>
    simp only [slots, NestedJoin.slots, columns, Predicate.slots, List.map_append, List.map_cons,
      Slot.map_ref_map_single, Slot.single, List.append_assoc, List.cons_append,
      List.nil_append]

/-! ### Settling -/

/-- The attempt replaces the references in the slots by their targets, so that `final` results.  If
it stops for want of a column, one of the slots has that fault; it may stop for other reasons. -/
structure Attempt.Settles {α : Type} (ps : Positions) (reader : String) (slots : List Slot)
    (final : α) (r : Attempt α) : Prop where
  /-- A complete attempt met no fault. -/
  complete : r.failure = none → r.value = final ∧ ∀ s ∈ slots, ps.fault reader s = none
  /-- An attempt that stopped for want of a column met the fault of a slot. -/
  stopped : ∀ e, r.failure = some e → e.kind = "UnboundVariable" →
    ∃ s ∈ slots, ps.fault reader s = some e

namespace Attempt

variable {α β : Type} {ps : Positions} {reader : String} {slots slots₁ slots₂ : List Slot}
variable {final mid : α} {r : Attempt α}

theorem settles_of_failure (hfail : r.failure = slots.findSome? (ps.fault reader))
    (hvalue : r.failure = none → r.value = final) : r.Settles ps reader slots final where
  complete h := by
    refine ⟨hvalue h, ?_⟩
    rwa [hfail, List.findSome?_eq_none_iff] at h
  stopped e h _ := by
    rw [hfail] at h
    exact List.exists_of_findSome?_eq_some h

theorem settles_done (final : α) : (done final).Settles ps reader [] final where
  complete _ := ⟨rfl, nofun⟩
  stopped _ h := by cases h

theorem Settles.map (h : r.Settles ps reader slots final) (f : α → β) :
    (r.map f).Settles ps reader slots (f final) where
  complete hr := by
    obtain ⟨hvalue, hslots⟩ := h.complete hr
    exact ⟨congrArg f hvalue, hslots⟩
  stopped := h.stopped

/-- A check may stop an attempt, but not for want of a column. -/
theorem Settles.check {test : α → Except PlanError Unit} (h : r.Settles ps reader slots final)
    (htest : (∀ s ∈ slots, ps.fault reader s = none) →
      ∀ e, test final = .error e → e.kind ≠ "UnboundVariable") :
    (r.check test).Settles ps reader slots final where
  complete hr := by
    rw [failure_check_eq_none_iff] at hr
    rw [value_check]
    exact h.complete hr.1
  stopped e he hkind := by
    rcases failure_check_eq_some_iff.mp he with he | ⟨hr, he⟩
    · exact h.stopped e he hkind
    · obtain ⟨hvalue, hslots⟩ := h.complete hr
      rw [hvalue] at he
      exact absurd hkind (htest hslots e he)

theorem Settles.andThen {next : α → Attempt α} (h : r.Settles ps reader slots₁ mid)
    (hnext : (∀ s ∈ slots₁, ps.fault reader s = none) →
      (next mid).Settles ps reader slots₂ final) :
    (r.andThen next).Settles ps reader (slots₁ ++ slots₂) final where
  complete hr := by
    rw [failure_andThen_eq_none_iff] at hr
    obtain ⟨hvalue, hslots⟩ := h.complete hr.1
    rw [andThen_of_complete hr.1, hvalue]
    rw [hvalue] at hr
    -- both parts complete: their slots are free of faults one after the other
    obtain ⟨hvalue', hslots'⟩ := (hnext hslots).complete hr.2
    refine ⟨hvalue', fun s hs => ?_⟩
    rcases List.mem_append.mp hs with hs | hs
    · exact hslots s hs
    · exact hslots' s hs
  stopped e he hkind := by
    -- a stop in the first part, or in the second after the first was complete
    rcases failure_andThen_eq_some_iff.mp he with he | ⟨hr, he⟩
    · obtain ⟨s, hs, hfault⟩ := h.stopped e he hkind
      exact ⟨s, List.mem_append_left _ hs, hfault⟩
    · obtain ⟨hvalue, hslots⟩ := h.complete hr
      rw [hvalue] at he
      obtain ⟨s, hs, hfault⟩ := (hnext hslots).stopped e he hkind
      exact ⟨s, List.mem_append_right _ hs, hfault⟩

end Attempt

/-! ### Range checks -/

/-- The reference is a position below `width`. -/
def ColumnRef.Within (width : Nat) (c : ColumnRef) : Prop := ∃ i < width, c = .resolved i

/-- Every reference of the path is a position of the level that those before it lead to, and all
but the last are positions of nested columns. -/
def Schema.Addresses : Schema → List ColumnRef → Prop
  | _, [] => True
  | s, c :: cs => ∃ i < s.width, c = .resolved i ∧
      (cs ≠ [] → ∃ inner, s.nested? i = some inner ∧ inner.Addresses cs)

namespace ColumnRef

theorem inRange_eq_ok_iff {operator : String} {width : Nat} {c : ColumnRef} :
    c.inRange operator width = .ok () ↔ c.Within width := by
  cases c with
  | symbolic key => simp [inRange, Within]
  | resolved i => by_cases h : i < width <;> simp [inRange, Within, h]

/-- A position out of range is no missing column. -/
theorem kind_of_inRange_resolved {operator : String} {width i : Nat} {e : PlanError}
    (h : (resolved i).inRange operator width = .error e) : e.kind ≠ "UnboundVariable" := by
  rw [inRange] at h
  split at h
  · cases h
  · cases h
    simp [PlanError.kind]

theorem allInRange_eq_ok_iff {operator : String} {width : Nat} {cs : List ColumnRef} :
    allInRange operator width cs = .ok () ↔ ∀ c ∈ cs, c.Within width := by
  rw [allInRange, List.forM_eq_ok_iff]
  exact forall₂_congr fun _ _ => inRange_eq_ok_iff

theorem kind_of_allInRange {operator : String} {width : Nat} {cs : List ColumnRef} {e : PlanError}
    (hcs : ∀ c ∈ cs, ∃ i, c = .resolved i) (h : allInRange operator width cs = .error e) :
    e.kind ≠ "UnboundVariable" := by
  obtain ⟨c, hc, hbad⟩ := List.exists_of_forM_eq_error h
  obtain ⟨i, rfl⟩ := hcs c hc
  exact kind_of_inRange_resolved hbad

end ColumnRef

namespace Schema

@[simp] theorem addresses_nil (s : Schema) : s.Addresses [] := trivial

@[simp] theorem not_addresses_symbolic (s : Schema) (key : ColumnKey) (cs : List ColumnRef) :
    ¬ s.Addresses (.symbolic key :: cs) := by
  rintro ⟨i, -, h, -⟩
  cases h

theorem addresses_resolved_iff {s : Schema} {i : Nat} {cs : List ColumnRef} :
    s.Addresses (.resolved i :: cs) ↔ i < s.width ∧
      (cs ≠ [] → ∃ inner, s.nested? i = some inner ∧ inner.Addresses cs) := by
  constructor
  · rintro ⟨j, hj, heq, hcs⟩
    cases heq
    exact ⟨hj, hcs⟩
  · rintro ⟨hi, hcs⟩
    exact ⟨i, hi, rfl, hcs⟩

theorem checkPath_resolved (operator : String) (depth i : Nat) (cs : List ColumnRef) (s : Schema) :
    s.checkPath operator depth (.resolved i :: cs) =
      if i < s.width then
        if cs = [] then .ok ()
        else match s.nested? i with
          | some inner => inner.checkPath operator (depth + 1) cs
          | none => .error (.unsupported operator (.scalarStep depth i))
      else .error (.outOfRange operator i s.width) := by
  rw [checkPath.eq_def]
  by_cases hi : i < s.width
  · cases cs with
    | nil => simp [ColumnRef.inRange, hi, bind, Except.bind]
    | cons c cs =>
      cases hinner : s.nested? i <;>
        simp only [ColumnRef.inRange, hi, hinner, if_true, bind, Except.bind, reduceCtorEq, if_false]
  · simp [ColumnRef.inRange, hi, bind, Except.bind]

/-- The check of a path accepts exactly the paths that lead through nested columns. -/
theorem checkPath_eq_ok_iff {operator : String} {depth : Nat} {path : List ColumnRef}
    {s : Schema} : s.checkPath operator depth path = .ok () ↔ s.Addresses path := by
  induction path generalizing depth s with
  | nil => exact iff_of_true rfl trivial
  | cons c cs ih =>
    cases c with
    | symbolic key => exact iff_of_false nofun (not_addresses_symbolic s key cs)
    | resolved i =>
      rw [checkPath_resolved, addresses_resolved_iff]
      by_cases hi : i < s.width
      · by_cases hcs : cs = []
        · simp [hi, hcs]
        · cases hinner : s.nested? i <;> simp [hi, hcs, ih]
      · simp [hi]

theorem kind_of_checkPath {operator : String} {depth : Nat} {path : List ColumnRef} {s : Schema}
    {e : PlanError} (hpath : ∀ c ∈ path, ∃ i, c = .resolved i)
    (h : s.checkPath operator depth path = .error e) : e.kind ≠ "UnboundVariable" := by
  induction path generalizing depth s with
  | nil => cases h
  | cons c cs ih =>
    obtain ⟨i, rfl⟩ := hpath c List.mem_cons_self
    rw [checkPath_resolved] at h
    split at h
    · split at h
      · cases h
      · split at h
        · exact ih (fun c' hc' => hpath c' (List.mem_cons_of_mem _ hc')) h
        · cases h
          simp [PlanError.kind]
    · cases h
      simp [PlanError.kind]

end Schema

/-! ### Settling parameters -/

section Parameters

variable (ps : Positions) (reader : String) (width : Nat)

theorem Positions.settles_resolveOne (c : ColumnRef) :
    (ps.resolveOne reader c).Settles ps reader [Slot.single c] (ps.target 0 c) := by
  refine Attempt.settles_of_failure ?_ value_resolveOne
  rw [failure_resolveOne, List.findSome?_singleton]

theorem Positions.settles_resolveAll (cs : List ColumnRef) :
    (ps.resolveAll reader cs).Settles ps reader (cs.map Slot.single) (cs.map (ps.target 0)) :=
  Attempt.settles_of_failure (failure_resolveAll ps reader cs) value_resolveAll

/-- Targets of slots without fault are positions. -/
theorem Positions.resolved_of_mem_map_target {cs : List ColumnRef}
    (h : ∀ s ∈ cs.map Slot.single, ps.fault reader s = .none) :
    ∀ c ∈ cs.map (ps.target 0), ∃ i, c = .resolved i := by
  intro c hc
  obtain ⟨c', hc', rfl⟩ := List.mem_map.mp hc
  exact exists_target_eq_resolved (h _ (List.mem_map_of_mem hc'))

theorem Positions.resolved_of_mem_mapAlong {ps : Positions} {reader : String} {depth : Nat}
    {path : List ColumnRef} (h : ∀ s ∈ Slot.along depth path, ps.fault reader s = .none) :
    ∀ c ∈ ColumnRef.mapAlong ps.target depth path, ∃ i, c = .resolved i := by
  induction path generalizing depth with
  | nil => exact nofun
  | cons c cs ih =>
    intro c' hc'
    rcases List.mem_cons.mp hc' with rfl | hc'
    · exact exists_target_eq_resolved (h _ List.mem_cons_self)
    · exact ih (fun s hs => h s (List.mem_cons_of_mem _ hs)) c' hc'

theorem Positions.settles_resolveInRange (cs : List ColumnRef) :
    (ps.resolveInRange reader width cs).Settles ps reader (cs.map Slot.single)
      (cs.map (ps.target 0)) :=
  (ps.settles_resolveAll reader cs).check fun hslots _ he =>
    ColumnRef.kind_of_allInRange (ps.resolved_of_mem_map_target reader hslots) he

theorem Positions.settles_resolveOneInRange (c : ColumnRef) :
    (ps.resolveOneInRange reader width c).Settles ps reader [Slot.single c] (ps.target 0 c) := by
  refine (ps.settles_resolveOne reader c).check fun hslots e he => ?_
  obtain ⟨i, hi⟩ := exists_target_eq_resolved (hslots _ List.mem_cons_self)
  rw [show ps.target 0 c = .resolved i from hi] at he
  exact ColumnRef.kind_of_inRange_resolved he

theorem Predicate.settles_resolveInRange (p : Predicate) :
    (p.resolveInRange ps reader width).Settles ps reader p.slots (p.mapRefs ps.target) := by
  have hresolve : (p.resolve ps reader).Settles ps reader p.slots (p.mapRefs ps.target) :=
    Attempt.settles_of_failure (p.failure_resolve ps reader) value_resolve
  refine hresolve.check fun hslots _ he => ColumnRef.kind_of_allInRange ?_ he
  rw [columns_mapRefs]
  exact ps.resolved_of_mem_map_target reader hslots

theorem NestedAggregation.settles_resolve (a : Option NestedAggregation) :
    (NestedAggregation.resolve ps reader width a).Settles ps reader
      ((Unary.aggregated a).map Slot.single) (a.map (NestedAggregation.mapRefs ps.target)) := by
  cases a with
  | none => exact Attempt.settles_done none
  | some a =>
    exact (ps.settles_resolveOneInRange reader width a.column).map fun c =>
      some { a with column := c }

theorem Grouping.settles_resolve (g : Grouping) :
    (g.resolve ps reader width).Settles ps reader g.slots (g.mapRefs ps.target) := by
  unfold Grouping.resolve
  refine ((ps.settles_resolveInRange reader width g.groupBy).map _).andThen fun _ => ?_
  refine ((ps.settles_resolveInRange reader width g.reduceBy).map _).andThen fun _ => ?_
  refine ((ps.settles_resolveInRange reader width g.nest).map _).andThen fun _ => ?_
  exact (NestedAggregation.settles_resolve ps reader width g.aggregation).map _

theorem NestedJoin.settles_resolve (leftWidth : Nat) (j : NestedJoin) :
    (j.resolve ps reader leftWidth width).Settles ps reader j.slots (j.mapRefs ps.target) := by
  unfold NestedJoin.resolve
  refine ((j.condition.settles_resolveInRange ps reader width).map _).andThen fun _ => ?_
  refine ((ps.settles_resolveOne reader j.docIdColumn).map _).andThen fun hdoc => ?_
  refine Attempt.Settles.andThen
    (((ps.settles_resolveAll reader j.nodeIdColumns).map _).check fun hnodes _ he => ?_) fun _ => ?_
  · -- both the document identifier and the node identifiers are positions by now
    refine ColumnRef.kind_of_allInRange (fun c hc => ?_) he
    rcases List.mem_cons.mp hc with rfl | hc
    · exact Positions.exists_target_eq_resolved (hdoc _ List.mem_cons_self)
    · exact ps.resolved_of_mem_map_target reader hnodes c hc
  · exact (NestedAggregation.settles_resolve ps reader width j.aggregation).map _

end Parameters

/-! ### Settled parameters are in range -/

section Ranges

variable {ps : Positions} {reader : String} {width leftWidth : Nat}

theorem Positions.within_of_resolveInRange {cs : List ColumnRef}
    (h : (ps.resolveInRange reader width cs).failure = .none) :
    ∀ c ∈ (ps.resolveInRange reader width cs).value, c.Within width := by
  rw [resolveInRange, Attempt.failure_check_eq_none_iff] at h
  rw [resolveInRange, Attempt.value_check]
  exact ColumnRef.allInRange_eq_ok_iff.mp h.2

theorem Positions.within_of_resolveOneInRange {c : ColumnRef}
    (h : (ps.resolveOneInRange reader width c).failure = .none) :
    (ps.resolveOneInRange reader width c).value.Within width := by
  rw [resolveOneInRange, Attempt.failure_check_eq_none_iff] at h
  rw [resolveOneInRange, Attempt.value_check]
  exact ColumnRef.inRange_eq_ok_iff.mp h.2

theorem Predicate.within_of_resolveInRange {p : Predicate}
    (h : (p.resolveInRange ps reader width).failure = none) :
    ∀ c ∈ (p.resolveInRange ps reader width).value.columns, c.Within width := by
  rw [resolveInRange, Attempt.failure_check_eq_none_iff] at h
  rw [resolveInRange, Attempt.value_check]
  exact ColumnRef.allInRange_eq_ok_iff.mp h.2

theorem NestedAggregation.within_of_resolve {a : Option NestedAggregation}
    (h : (NestedAggregation.resolve ps reader width a).failure = none) :
    ∀ c ∈ Unary.aggregated (NestedAggregation.resolve ps reader width a).value,
      c.Within width := by
  cases a with
  | none => exact nofun
  | some a =>
    intro c hc
    rw [List.mem_singleton.mp hc]
    exact Positions.within_of_resolveOneInRange h

theorem Grouping.within_of_resolve {g : Grouping} (h : (g.resolve ps reader width).failure = none) :
    ∀ c ∈ (Unary.group (g.resolve ps reader width).value).columns, c.Within width := by
  rw [((g.settles_resolve ps reader width).complete h).1]
  simp only [Grouping.resolve, Attempt.failure_andThen_eq_none_iff, Attempt.failure_map,
    Attempt.value_map] at h
  obtain ⟨hgroup, hreduce, hnest, haggr⟩ := h
  intro c hc
  simp only [Unary.columns, mapRefs, Unary.aggregated_mapRefs, List.mem_append] at hc
  -- the keys, the reduced columns, the nested columns, and those of the aggregations
  rcases hc with ((hc | hc) | hc) | hc
  · rw [← ((ps.settles_resolveInRange reader width _).complete hgroup).1] at hc
    exact Positions.within_of_resolveInRange hgroup c hc
  · rw [← ((ps.settles_resolveInRange reader width _).complete hreduce).1] at hc
    exact Positions.within_of_resolveInRange hreduce c hc
  · rw [← ((ps.settles_resolveInRange reader width _).complete hnest).1] at hc
    exact Positions.within_of_resolveInRange hnest c hc
  · rw [← Unary.aggregated_mapRefs,
      ← ((NestedAggregation.settles_resolve ps reader width _).complete haggr).1] at hc
    exact NestedAggregation.within_of_resolve haggr c hc

/-- The identifiers that both sides of a nested join share are columns of its left input; its other
references are columns of either. -/
theorem NestedJoin.within_of_resolve {j : NestedJoin}
    (h : (j.resolve ps reader leftWidth width).failure = none) :
    (∀ c ∈ (j.resolve ps reader leftWidth width).value.condition.columns, c.Within width) ∧
      (∀ c ∈ (j.resolve ps reader leftWidth width).value.docIdColumn ::
        (j.resolve ps reader leftWidth width).value.nodeIdColumns, c.Within leftWidth) ∧
      ∀ c ∈ Unary.aggregated (j.resolve ps reader leftWidth width).value.aggregation,
        c.Within width := by
  rw [((j.settles_resolve ps reader width leftWidth).complete h).1]
  simp only [NestedJoin.resolve, Attempt.failure_andThen_eq_none_iff, Attempt.failure_map,
    Attempt.value_map, Attempt.failure_check_eq_none_iff] at h
  obtain ⟨hcond, hdoc, ⟨hnodes, hshared⟩, haggr⟩ := h
  refine ⟨?_, ?_, ?_⟩
  · have hwithin := Predicate.within_of_resolveInRange hcond
    rwa [((j.condition.settles_resolveInRange ps reader width).complete hcond).1] at hwithin
  · rw [ColumnRef.allInRange_eq_ok_iff, Positions.value_resolveOne hdoc,
      Positions.value_resolveAll hnodes] at hshared
    exact hshared
  · have hwithin := NestedAggregation.within_of_resolve haggr
    simp only [Attempt.value_check, Attempt.value_map] at haggr hwithin
    rwa [((NestedAggregation.settles_resolve ps reader width _).complete haggr).1] at hwithin

end Ranges

/-! ### Settling and the rule of an operator -/

/-- The operator over an input with the given columns, with its parameters settled. -/
def Unary.settle (op : Unary) (input : Schema) : Attempt Unary :=
  let ps := input.positions
  match op with
  | select p => (p.resolveInRange ps op.name input.width).map select
  | project cs => (ps.resolveInRange op.name input.width cs).map project
  | distinct cs => (ps.resolveInRange op.name input.width cs).map distinct
  | group g => (g.resolve ps op.name input.width).map group
  | aggregate a =>
    ((ps.resolvePath op.name a.path).check fun path => input.checkPath op.name 0 path).map
      fun path => aggregate { a with path }
  | flatten c => (ps.resolveOneInRange op.name input.width c).map flatten
  | construct t =>
    ((t.resolve ps).check fun t =>
      ColumnRef.allInRange op.name input.width (t.paths.filterMap List.head?)).map construct

/-- The columns of the output of an operator that is settled, over an input of which a grouping
folds the last `folded` columns. -/
def Unary.rule (name : String) (folded : Nat) (input : Schema) : Unary → Except PlanError Schema
  | select _ => .ok input
  | project cs => .ok (input.select cs)
  | distinct _ => .ok input
  | group _ => input.fold name folded
  | aggregate a => .ok (input.push (.carrying (.var a.result) a.function.resultType))
  | flatten c => input.unnest name c
  | construct _ => .ok input

theorem Unary.resolve_eq (op : Unary) (folded : Nat) (input : Schema) :
    op.resolve folded input
      = ((op.settle input).value, (op.settle input).outcome (rule op.name folded input)) := by
  cases op <;> rfl

/-- The operator over inputs with the given columns, with its parameters settled. -/
def Binary.settle (op : Binary) (left right : Schema) : Attempt Binary :=
  let input := Schema.concat [left, right]
  let ps := input.positions
  match op with
  | product => .done product
  | join p => (p.resolveInRange ps op.name input.width).map join
  | outerJoin p => (p.resolveInRange ps op.name input.width).map outerJoin
  | nestedJoin j => (j.resolve ps op.name left.width input.width).map nestedJoin

/-- The columns of the output of an operator that is settled. -/
def Binary.rule (left right : Schema) : Binary → Schema
  | nestedJoin _ => left.push (.nesting right.columns)
  | _ => Schema.concat [left, right]

theorem Binary.resolve_eq (op : Binary) (left right : Schema) :
    op.resolve left right
      = ((op.settle left right).value,
        (op.settle left right).outcome fun op => .ok (op.rule left right)) := by
  cases op <;> rfl

/-- The first references of some paths are those at level zero. -/
theorem Slot.mem_head?_of_mem_along {s : Slot} {depth : Nat} {path : List ColumnRef}
    (hs : s ∈ along depth path) (hdepth : s.depth ≤ depth) : path.head? = some s.ref := by
  cases path with
  | nil => cases hs
  | cons c cs =>
    rcases List.mem_cons.mp hs with rfl | hs
    · rfl
    · -- further slots have higher levels
      have hlater : ∀ (n : Nat) (cs : List ColumnRef), ∀ s ∈ along n cs, n ≤ s.depth := by
        intro n cs
        induction cs generalizing n with
        | nil => exact nofun
        | cons c cs ih =>
          intro s hs
          rcases List.mem_cons.mp hs with rfl | hs
          · exact Nat.le_refl n
          · exact Nat.le_of_succ_le (ih (n + 1) s hs)
      exact absurd (hlater _ _ s hs) (by omega)

/-- Settling an operator replaces every reference by its target and leaves the rest alone. -/
theorem Unary.settles (op : Unary) (input : Schema) :
    (op.settle input).Settles input.positions op.name op.slots
      (op.mapRefs input.positions.target) := by
  cases op with
  | select p => exact (p.settles_resolveInRange _ _ _).map _
  | project cs => exact (Positions.settles_resolveInRange _ _ _ cs).map _
  | distinct cs => exact (Positions.settles_resolveInRange _ _ _ cs).map _
  | group g => exact (g.settles_resolve _ _ _).map _
  | aggregate a =>
    have hpath : (input.positions.resolvePath (aggregate a).name a.path).Settles input.positions
        (aggregate a).name (Slot.along 0 a.path)
        (ColumnRef.mapAlong input.positions.target 0 a.path) :=
      Attempt.settles_of_failure (Positions.failure_resolvePath _ _ _) Positions.value_resolvePath
    refine (hpath.check fun hslots e he => ?_).map fun path => aggregate { a with path }
    -- all of the path is resolved, so that the check finds no column missing
    exact Schema.kind_of_checkPath (Positions.resolved_of_mem_mapAlong hslots) he
  | flatten c => exact (Positions.settles_resolveOneInRange _ _ _ c).map _
  | construct t =>
    have htemplate : (t.resolve input.positions).Settles input.positions Content.reader t.slots
        (t.mapRefs input.positions.target) :=
      Attempt.settles_of_failure (t.failure_resolve _) Template.value_resolve
    refine (htemplate.check fun hslots e he => ?_).map construct
    refine ColumnRef.kind_of_allInRange (fun c hc => ?_) he
    -- the first reference of a path is among the references of the template
    obtain ⟨path, hpath, hhead⟩ := List.mem_filterMap.mp hc
    rw [Template.paths_mapRefs] at hpath
    obtain ⟨path, hmem, rfl⟩ := List.mem_map.mp hpath
    have hfault : ∀ s ∈ Slot.along 0 path, input.positions.fault Content.reader s = none :=
      fun s hs => hslots s (List.mem_flatMap.mpr ⟨path, hmem, hs⟩)
    exact Positions.resolved_of_mem_mapAlong hfault c (List.mem_of_head? hhead)

theorem Binary.settles (op : Binary) (left right : Schema) :
    (op.settle left right).Settles (Schema.concat [left, right]).positions op.name op.slots
      (op.mapRefs (Schema.concat [left, right]).positions.target) := by
  cases op with
  | product => exact Attempt.settles_done product
  | join p => exact (p.settles_resolveInRange _ _ _).map _
  | outerJoin p => exact (p.settles_resolveInRange _ _ _).map _
  | nestedJoin j => exact (j.settles_resolve _ _ _ _).map _

/-- What the parameters of a settled operator fulfil over its input: references outside of paths,
and the first ones of paths, are positions of the input, and the path of an aggregation leads
through nested columns. -/
def Unary.Fits (input : Schema) (op : Unary) : Prop :=
  (∀ s ∈ op.slots, s.depth = 0 → s.ref.Within input.width) ∧
    ∀ a, op = aggregate a → input.Addresses a.path

/-- What the parameters of a settled operator fulfil over its inputs: references are positions of
the two together, and the identifiers shared by a nested join are positions of the left one. -/
def Binary.Fits (left right : Schema) (op : Binary) : Prop :=
  (∀ s ∈ op.slots, s.depth = 0 → s.ref.Within (Schema.concat [left, right]).width) ∧
    ∀ j, op = nestedJoin j → ∀ c ∈ j.docIdColumn :: j.nodeIdColumns, c.Within left.width

/-- References that are all in range are so in their slots. -/
theorem Unary.within_of_columns {op : Unary} {width : Nat} (h : ∀ c ∈ op.columns, c.Within width) :
    ∀ s ∈ op.slots, s.depth = 0 → s.ref.Within width := by
  intro s hs _
  refine h s.ref ?_
  rw [← map_ref_slots]
  exact List.mem_map_of_mem hs

/-- References that are all in range are so in their slots. -/
theorem Binary.within_of_columns {op : Binary} {width : Nat}
    (h : ∀ c ∈ op.columns, c.Within width) :
    ∀ s ∈ op.slots, s.depth = 0 → s.ref.Within width := by
  intro s hs _
  refine h s.ref ?_
  rw [← map_ref_slots]
  exact List.mem_map_of_mem hs

theorem Unary.fits_of_settle {op : Unary} {input : Schema} (h : (op.settle input).failure = none) :
    (op.settle input).value.Fits input := by
  cases op with
  | select p => exact ⟨within_of_columns (Predicate.within_of_resolveInRange h), nofun⟩
  | project cs => exact ⟨within_of_columns (Positions.within_of_resolveInRange h), nofun⟩
  | distinct cs => exact ⟨within_of_columns (Positions.within_of_resolveInRange h), nofun⟩
  | group g => exact ⟨within_of_columns (Grouping.within_of_resolve h), nofun⟩
  | aggregate a =>
    have hpath : input.Addresses (input.positions.resolvePath (aggregate a).name a.path).value := by
      rw [settle, Attempt.failure_map, Attempt.failure_check_eq_none_iff] at h
      exact Schema.checkPath_eq_ok_iff.mp h.2
    rw [settle, Attempt.value_map, Attempt.value_check]
    refine ⟨fun s hs hdepth => ?_, ?_⟩
    · -- only the first reference of the path is at level zero
      have hhead := Slot.mem_head?_of_mem_along hs (Nat.le_of_eq hdepth)
      obtain ⟨cs, hcs⟩ := List.head?_eq_some_iff.mp hhead
      obtain ⟨i, hi, href, -⟩ : input.Addresses (s.ref :: cs) := hcs ▸ hpath
      exact ⟨i, hi, href⟩
    · rintro a' heq
      cases heq
      exact hpath
  | flatten c =>
    refine ⟨within_of_columns fun c' hc' => ?_, nofun⟩
    rw [List.mem_singleton.mp hc']
    exact Positions.within_of_resolveOneInRange h
  | construct t =>
    refine ⟨fun s hs hdepth => ?_, nofun⟩
    rw [settle, Attempt.failure_map, Attempt.failure_check_eq_none_iff] at h
    rw [settle, Attempt.value_map, Attempt.value_check] at hs
    obtain ⟨path, hpath, hs⟩ := List.mem_flatMap.mp hs
    have hhead := Slot.mem_head?_of_mem_along hs (Nat.le_of_eq hdepth)
    exact ColumnRef.allInRange_eq_ok_iff.mp h.2 s.ref (List.mem_filterMap.mpr ⟨path, hpath, hhead⟩)

theorem Binary.fits_of_settle {op : Binary} {left right : Schema}
    (h : (op.settle left right).failure = none) :
    (op.settle left right).value.Fits left right := by
  cases op with
  | product => exact ⟨nofun, nofun⟩
  | join p => exact ⟨within_of_columns (Predicate.within_of_resolveInRange h), nofun⟩
  | outerJoin p => exact ⟨within_of_columns (Predicate.within_of_resolveInRange h), nofun⟩
  | nestedJoin j =>
    obtain ⟨hcond, hshared, haggr⟩ := NestedJoin.within_of_resolve h
    refine ⟨within_of_columns fun c hc => ?_, ?_⟩
    · -- a column of the left input is one of the two together
      rcases List.mem_append.mp hc with hc | hc
      · rcases List.mem_append.mp hc with hc | hc
        · exact hcond c hc
        · obtain ⟨i, hi, rfl⟩ := hshared c hc
          refine ⟨i, ?_, rfl⟩
          rw [Schema.width_concat_cons]
          omega
      · exact haggr c hc
    · rintro j' heq
      cases heq
      exact hshared

end TwigAlgebra
