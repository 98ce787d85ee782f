import TwigAlgebra.Proofs.FirstPath
import TwigAlgebra.Proofs.Operators

/-!
# When parameters can be settled

A reference outside of paths can be settled over the columns of an input if they carry its key at
some level, or if its position is one of theirs: the first position that carries a key is always
in range.  So nothing else is asked of the parameters of most operators.  The exceptions are
nested joins, whose shared identifiers are columns of the left input, templates, and aggregations
over longer paths.

Whatever parameters cannot be settled, it is because of one of their references.

## Main definitions

* `ColumnRef.Reaches` — a reference can be settled over some columns.
* `Unary.IsShallow`, `Binary.IsShallow` — operators all of whose references are outside of paths and
  mean columns of the whole input.
* `PlanError.OfReference` — the errors of references.

## Main results

* `Schema.FirstPath.exists_index` — a first path begins with a position in range.
* `Unary.failure_settle_eq_none_iff`, `Binary.failure_settle_eq_none_iff` — such operators are
  settled if, and only if, all of their references can be.
* `Unary.stopsByReference_settle`, `Binary.stopsByReference_settle` — settling stops with an error
  of a reference.
-/

namespace TwigAlgebra

/-- The first index of a path is a position of the tuple. -/
theorem Schema.LeadsTo.exists_index {s : Schema} {key : ColumnKey} {path : List Nat}
    (h : s.LeadsTo key path) : ∃ i rest, path = i :: rest ∧ i < s.width := by
  cases path with
  | nil => cases h
  | cons i rest =>
    obtain ⟨cs, c, hcs, hi, -⟩ := h
    cases hcs
    exact ⟨i, rest, rfl, (List.getElem?_eq_some_iff.mp hi).1⟩

theorem Schema.FirstPath.exists_index {s : Schema} {key : ColumnKey} {path : List Nat}
    (h : s.FirstPath key path) : ∃ i rest, path = i :: rest ∧ i < s.width ∧ s.Leftmost key i := by
  obtain ⟨i, rest, rfl, hi⟩ := h.1.exists_index
  exact ⟨i, rest, rfl, hi, h.leftmost⟩

/-- A key that is carried has a first path. -/
theorem Schema.exists_firstPath {s : Schema} {key : ColumnKey} (hkey : key ∈ s.keys) :
    ∃ path, s.FirstPath key path := by
  obtain ⟨path, hpath⟩ := mem_keys_iff.mp hkey
  cases hget : s.positions.get? key with
  | none => exact absurd hpath (get?_positions_eq_none_iff.mp hget path)
  | some first => exact ⟨first, get?_positions_eq_some_iff.mp hget⟩

namespace ColumnRef

/-- The reference can be settled over the columns: they carry its key, at some level, or its
position is one of theirs. -/
def Reaches (s : Schema) : ColumnRef → Prop
  | symbolic key => key ∈ s.keys
  | resolved i => i < s.width

instance (s : Schema) : DecidablePred (Reaches s)
  | symbolic key => inferInstanceAs (Decidable (key ∈ s.keys))
  | resolved i => inferInstanceAs (Decidable (i < s.width))

/-- A reference that can be settled becomes a position in range. -/
theorem reaches_iff (reader : String) {s : Schema} {c : ColumnRef} :
    c.Reaches s ↔ s.positions.fault reader (Slot.single c) = none ∧
      (s.positions.target 0 c).Within s.width := by
  cases c with
  | resolved i => simp [Reaches, Slot.single, Positions.target, Within]
  | symbolic key =>
    constructor
    · -- a key that can be reached has a first path, whose first index is in range
      intro hkey
      obtain ⟨path, hpath⟩ := Schema.exists_firstPath hkey
      obtain ⟨i, rest, rfl, hi, -⟩ := hpath.exists_index
      have hget := Schema.get?_positions_eq_some_iff.mpr hpath
      refine ⟨?_, i, hi, ?_⟩
      · rw [Positions.fault, Slot.single, Positions.resolveAt, hget]
        rfl
      · rw [Positions.target, hget]
        rfl
    · rintro ⟨hfault, -⟩
      obtain ⟨path, -, hget, -⟩ := Positions.target_symbolic_of_fault_eq_none hfault
      exact Schema.mem_keys_iff.mpr ⟨path, (Schema.get?_positions_eq_some_iff.mp hget).1⟩

end ColumnRef

/-! ### Short paths -/

theorem Slot.along_eq_of_short {path : List ColumnRef} (hpath : path.length ≤ 1) :
    along 0 path = path.map single := by
  match path, hpath with
  | [], _ => rfl
  | [_], _ => rfl

theorem ColumnRef.mapAlong_eq_of_short {f : Nat → ColumnRef → ColumnRef} {path : List ColumnRef}
    (hpath : path.length ≤ 1) : mapAlong f 0 path = path.map (f 0) := by
  match path, hpath with
  | [], _ => rfl
  | [_], _ => rfl

/-- A path of one reference leads nowhere further, so that this need only be in range. -/
theorem Schema.addresses_iff_of_short {s : Schema} {path : List ColumnRef}
    (hpath : path.length ≤ 1) : s.Addresses path ↔ ∀ c ∈ path, c.Within s.width := by
  match path, hpath with
  | [], _ => exact iff_of_true trivial nofun
  | [c], _ =>
    rw [List.forall_mem_singleton, Addresses]
    exact exists_congr fun i => and_congr_right fun _ => and_iff_left fun hne => absurd rfl hne

/-! ### Parameters -/

section Parameters

variable {s : Schema} {reader : String}

theorem ColumnRef.forall_reaches_iff (reader : String) {cs : List ColumnRef} :
    (∀ c ∈ cs, c.Reaches s) ↔ (cs.map Slot.single).findSome? (s.positions.fault reader) = none ∧
      ∀ c ∈ cs.map (s.positions.target 0), c.Within s.width := by
  simp only [reaches_iff reader, List.findSome?_eq_none_iff, List.forall_mem_map,
    forall_and]

theorem Positions.failure_resolveInRange_eq_none_iff {cs : List ColumnRef} :
    (s.positions.resolveInRange reader s.width cs).failure = .none ↔ ∀ c ∈ cs, c.Reaches s := by
  rw [resolveInRange, Attempt.failure_check_eq_none_iff, ColumnRef.allInRange_eq_ok_iff,
    ColumnRef.forall_reaches_iff reader, ← failure_resolveAll]
  exact and_congr_right fun hfail => by rw [value_resolveAll hfail]

theorem Positions.failure_resolveOneInRange_eq_none_iff {c : ColumnRef} :
    (s.positions.resolveOneInRange reader s.width c).failure = .none ↔ c.Reaches s := by
  rw [resolveOneInRange, Attempt.failure_check_eq_none_iff, ColumnRef.inRange_eq_ok_iff,
    ColumnRef.reaches_iff reader, ← failure_resolveOne]
  exact and_congr_right fun hfail => by rw [value_resolveOne hfail]

theorem Predicate.failure_resolveInRange_eq_none_iff {p : Predicate} :
    (p.resolveInRange s.positions reader s.width).failure = none ↔
      ∀ c ∈ p.columns, c.Reaches s := by
  rw [resolveInRange, Attempt.failure_check_eq_none_iff, ColumnRef.allInRange_eq_ok_iff,
    ColumnRef.forall_reaches_iff reader, ← slots, ← failure_resolve]
  exact and_congr_right fun hfail => by rw [value_resolve hfail, columns_mapRefs]

theorem NestedAggregation.failure_resolve_eq_none_iff {a : Option NestedAggregation} :
    (NestedAggregation.resolve s.positions reader s.width a).failure = none ↔
      ∀ c ∈ Unary.aggregated a, c.Reaches s := by
  cases a with
  | none => exact iff_of_true rfl nofun
  | some a =>
    refine Positions.failure_resolveOneInRange_eq_none_iff.trans ?_
    exact List.forall_mem_singleton.symm

theorem Grouping.failure_resolve_eq_none_iff {g : Grouping} :
    (g.resolve s.positions reader s.width).failure = none ↔
      ∀ c ∈ (Unary.group g).columns, c.Reaches s := by
  simp only [Grouping.resolve, Attempt.failure_andThen_eq_none_iff, Attempt.failure_map,
    Attempt.value_map, Positions.failure_resolveInRange_eq_none_iff,
    NestedAggregation.failure_resolve_eq_none_iff, Unary.columns, List.forall_mem_append, and_assoc]

end Parameters

/-! ### Operators -/

namespace Unary

/-- All references of the operator are outside of paths, or first ones of paths. -/
def IsShallow : Unary → Prop
  | aggregate a => a.path.length ≤ 1
  | construct _ => False
  | _ => True

/-- Operators without longer paths are settled if, and only if, all of their references can be. -/
theorem failure_settle_eq_none_iff {op : Unary} {input : Schema} (hop : op.IsShallow) :
    (op.settle input).failure = none ↔ ∀ c ∈ op.columns, c.Reaches input := by
  cases op with
  | select p => exact Predicate.failure_resolveInRange_eq_none_iff
  | project cs => exact Positions.failure_resolveInRange_eq_none_iff
  | distinct cs => exact Positions.failure_resolveInRange_eq_none_iff
  | group g => exact Grouping.failure_resolve_eq_none_iff
  | flatten c =>
    refine Positions.failure_resolveOneInRange_eq_none_iff.trans ?_
    exact List.forall_mem_singleton.symm
  | construct t => exact hop.elim
  | aggregate a =>
    -- a path of one step has no level below the first
    have hlength : a.path.length ≤ 1 := hop
    rw [settle, Attempt.failure_map, Attempt.failure_check_eq_none_iff, Schema.checkPath_eq_ok_iff,
      columns, ColumnRef.forall_reaches_iff (aggregate a).name,
      ← Slot.along_eq_of_short hlength, ← Positions.failure_resolvePath]
    refine and_congr_right fun hfail => ?_
    rw [Positions.value_resolvePath hfail, ColumnRef.mapAlong_eq_of_short hlength]
    exact Schema.addresses_iff_of_short (by rwa [List.length_map])

end Unary

/-- All references of the operator mean columns of the whole input. -/
def Binary.IsShallow : Binary → Prop
  | nestedJoin _ => False
  | _ => True

/-- Products and joins are settled if, and only if, all of their references can be. -/
theorem Binary.failure_settle_eq_none_iff {op : Binary} {left right : Schema} (hop : op.IsShallow) :
    (op.settle left right).failure = none ↔
      ∀ c ∈ op.columns, c.Reaches (Schema.concat [left, right]) := by
  cases op with
  | product => exact iff_of_true rfl nofun
  | join p => exact Predicate.failure_resolveInRange_eq_none_iff
  | outerJoin p => exact Predicate.failure_resolveInRange_eq_none_iff
  | nestedJoin j => exact hop.elim

/-! ### Errors -/

/-- The error of a reference: no column carries its key, or none deep enough, or its position is
out of range, or its path goes on below a scalar. -/
inductive PlanError.OfReference : PlanError → Prop
  /-- No column carries the key. -/
  | unbound (key : ColumnKey) (reader : String) : OfReference (.unbound key reader)
  /-- No path to the key is long enough. -/
  | tooShallow (key : ColumnKey) (reader : String) (depth : Nat) :
    OfReference (.tooShallow key reader depth)
  /-- The position is out of range. -/
  | outOfRange (operator : String) (column width : Nat) :
    OfReference (.outOfRange operator column width)
  /-- The path goes on below a scalar. -/
  | scalarStep (operator : String) (depth position : Nat) :
    OfReference (.unsupported operator (.scalarStep depth position))

namespace Attempt

variable {α β : Type} {r : Attempt α}

/-- If the attempt stopped, it was because of a reference. -/
def StopsByReference (r : Attempt α) : Prop := ∀ e, r.failure = some e → e.OfReference

theorem stopsByReference_done (a : α) : (done a).StopsByReference := nofun

theorem stopsByReference_of_failure {ps : Positions} {reader : String} {slots : List Slot}
    (hfail : r.failure = slots.findSome? (ps.fault reader)) : r.StopsByReference := by
  intro e he
  rw [hfail] at he
  obtain ⟨s, -, hs⟩ := List.exists_of_findSome?_eq_some he
  obtain ⟨key, -, ⟨-, rfl⟩ | ⟨path, -, -, rfl⟩⟩ := Positions.fault_eq_some_iff.mp hs
  · exact .unbound key reader
  · exact .tooShallow key reader s.depth

theorem StopsByReference.map (h : r.StopsByReference) (f : α → β) : (r.map f).StopsByReference := h

theorem StopsByReference.andThen {next : α → Attempt α} (h : r.StopsByReference)
    (hnext : ∀ a, (next a).StopsByReference) : (r.andThen next).StopsByReference := by
  intro e he
  rcases failure_andThen_eq_some_iff.mp he with hr | ⟨-, hr⟩
  · exact h e hr
  · exact hnext _ e hr

theorem StopsByReference.check {test : α → Except PlanError Unit} (h : r.StopsByReference)
    (htest : ∀ a e, test a = .error e → e.OfReference) : (r.check test).StopsByReference := by
  intro e he
  rcases failure_check_eq_some_iff.mp he with hr | ⟨-, hr⟩
  · exact h e hr
  · exact htest _ e hr

end Attempt

section Checks

variable {operator : String} {width : Nat} {e : PlanError}

theorem ColumnRef.ofReference_of_inRange {c : ColumnRef} (h : c.inRange operator width = .error e) :
    e.OfReference := by
  cases c with
  | symbolic key =>
    cases h
    exact .unbound key operator
  | resolved i =>
    rw [inRange] at h
    split at h
    · cases h
    · cases h
      exact .outOfRange operator i width

theorem ColumnRef.ofReference_of_allInRange {cs : List ColumnRef}
    (h : allInRange operator width cs = .error e) : e.OfReference := by
  obtain ⟨c, -, hbad⟩ := List.exists_of_forM_eq_error h
  exact ofReference_of_inRange hbad

theorem Schema.ofReference_of_checkPath {depth : Nat} {path : List ColumnRef} {s : Schema}
    (h : s.checkPath operator depth path = .error e) : e.OfReference := by
  induction path generalizing depth s with
  | nil => cases h
  | cons c cs ih =>
    cases c with
    | symbolic key =>
      cases h
      exact .unbound key operator
    | resolved i =>
      rw [checkPath_resolved] at h
      -- the position is in range or not, the last of its path or not, of a nested column or not
      split at h
      · split at h
        · cases h
        · split at h
          · exact ih h
          · cases h
            exact .scalarStep operator depth i
      · cases h
        exact .outOfRange operator i s.width

end Checks

section Stopping

open Attempt

variable (ps : Positions) (reader : String) (width : Nat)

theorem Positions.stopsByReference_resolveOne (c : ColumnRef) :
    (ps.resolveOne reader c).StopsByReference := by
  have hfail : (ps.resolveOne reader c).failure = [Slot.single c].findSome? (ps.fault reader) := by
    rw [failure_resolveOne, List.findSome?_singleton]
  exact stopsByReference_of_failure hfail

theorem Positions.stopsByReference_resolveAll (cs : List ColumnRef) :
    (ps.resolveAll reader cs).StopsByReference :=
  stopsByReference_of_failure (ps.failure_resolveAll reader cs)

theorem Positions.stopsByReference_resolveInRange (cs : List ColumnRef) :
    (ps.resolveInRange reader width cs).StopsByReference :=
  (ps.stopsByReference_resolveAll reader cs).check fun _ _ => ColumnRef.ofReference_of_allInRange

theorem Positions.stopsByReference_resolveOneInRange (c : ColumnRef) :
    (ps.resolveOneInRange reader width c).StopsByReference :=
  (ps.stopsByReference_resolveOne reader c).check fun _ _ => ColumnRef.ofReference_of_inRange

theorem Predicate.stopsByReference_resolveInRange (p : Predicate) :
    (p.resolveInRange ps reader width).StopsByReference :=
  (stopsByReference_of_failure (p.failure_resolve ps reader)).check fun _ _ =>
    ColumnRef.ofReference_of_allInRange

theorem NestedAggregation.stopsByReference_resolve (a : Option NestedAggregation) :
    (NestedAggregation.resolve ps reader width a).StopsByReference := by
  cases a with
  | none => exact stopsByReference_done none
  | some a => exact (ps.stopsByReference_resolveOneInRange reader width a.column).map _

theorem Grouping.stopsByReference_resolve (g : Grouping) :
    (g.resolve ps reader width).StopsByReference := by
  unfold Grouping.resolve
  refine ((ps.stopsByReference_resolveInRange reader width g.groupBy).map _).andThen fun g => ?_
  refine ((ps.stopsByReference_resolveInRange reader width g.reduceBy).map _).andThen fun g => ?_
  refine ((ps.stopsByReference_resolveInRange reader width g.nest).map _).andThen fun g => ?_
  exact (NestedAggregation.stopsByReference_resolve ps reader width g.aggregation).map _

theorem NestedJoin.stopsByReference_resolve (leftWidth : Nat) (j : NestedJoin) :
    (j.resolve ps reader leftWidth width).StopsByReference := by
  unfold NestedJoin.resolve
  refine ((j.condition.stopsByReference_resolveInRange ps reader width).map _).andThen fun j => ?_
  refine ((ps.stopsByReference_resolveOne reader j.docIdColumn).map _).andThen fun j => ?_
  refine (((ps.stopsByReference_resolveAll reader j.nodeIdColumns).map _).check fun _ _ =>
    ColumnRef.ofReference_of_allInRange).andThen fun j => ?_
  exact (NestedAggregation.stopsByReference_resolve ps reader width j.aggregation).map _

/-- Settling the parameters of an operator stops because of a reference. -/
theorem Unary.stopsByReference_settle (op : Unary) (input : Schema) :
    (op.settle input).StopsByReference := by
  cases op with
  | select p => exact (p.stopsByReference_resolveInRange _ _ _).map _
  | project cs => exact (Positions.stopsByReference_resolveInRange _ _ _ cs).map _
  | distinct cs => exact (Positions.stopsByReference_resolveInRange _ _ _ cs).map _
  | group g => exact (g.stopsByReference_resolve _ _ _).map _
  | aggregate a =>
    have hpath := stopsByReference_of_failure
      (input.positions.failure_resolvePath (aggregate a).name a.path)
    exact (hpath.check fun _ _ => Schema.ofReference_of_checkPath).map _
  | flatten c => exact (Positions.stopsByReference_resolveOneInRange _ _ _ c).map _
  | construct t =>
    have hpaths := stopsByReference_of_failure (t.failure_resolve input.positions)
    exact (hpaths.check fun _ _ => ColumnRef.ofReference_of_allInRange).map _

/-- Settling the parameters of an operator stops because of a reference. -/
theorem Binary.stopsByReference_settle (op : Binary) (left right : Schema) :
    (op.settle left right).StopsByReference := by
  cases op with
  | product => exact stopsByReference_done product
  | join p => exact (p.stopsByReference_resolveInRange _ _ _).map _
  | outerJoin p => exact (p.stopsByReference_resolveInRange _ _ _).map _
  | nestedJoin j => exact (j.stopsByReference_resolve _ _ _ _).map _

end Stopping

end TwigAlgebra
