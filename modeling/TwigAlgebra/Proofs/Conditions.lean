import TwigAlgebra.Proofs.Conservation
import TwigAlgebra.Proofs.Settling
import TwigAlgebra.Proofs.Stability

/-!
# What conditions compare

The condition of a selection, a join or an outer join compares columns of the tuples that the
operator gets.  A key in it is settled to the first of these columns that carries the key: a
scalar, or a column of nested tuples with the key inside.  In the latter case the condition
compares the nested tuples as a whole, and nothing tells the two cases apart.  A key that no
column carries is refused.

Which of the two it is depends on the plan.  In a plan that is accepted and has no projections
every key has one column, so that a key of a scalar means this scalar.

## Main definitions

* `Plan.condition?` — the condition of a selection, a join or an outer join.
* `ColumnRef.Finds` — what a reference outside of paths is settled to.

## Main results

* `Schema.Leftmost.scalar_or_nested` — the first column that carries a key.
* `Plan.forall₂_finds_of_resolve` — what the references of a condition are settled to.
* `Plan.failure_of_unbound` — a condition with a key that is not carried is refused.
* `Query.resolve_conditions` — the same for all operators of a plan.
-/

namespace TwigAlgebra

/-! ### The column that is found -/

/-- Over an input a reference to a position stays, and a reference to a key finds the first column
that carries it: a scalar, or nested tuples that have it inside. -/
inductive ColumnRef.Finds (input : Schema) : ColumnRef → ColumnRef → Prop
  /-- A position in range stays. -/
  | position {i : Nat} (hi : i < input.width) : Finds input (.resolved i) (.resolved i)
  /-- The scalar that carries the key itself. -/
  | scalar {key : ColumnKey} {i : Nat} {t : ScalarType} (hfirst : input.Leftmost key i)
    (hi : input.column? i = some (.scalar (some key) t)) : Finds input (.symbolic key) (.resolved i)
  /-- The column of nested tuples that have the key inside. -/
  | nested {key : ColumnKey} {i : Nat} {cs : List Column} (hfirst : input.Leftmost key i)
    (hi : input.column? i = some (.nested none cs)) (hkey : key ∈ Column.keysAll cs) :
    Finds input (.symbolic key) (.resolved i)

/-- The first of some plain columns that carries a key is a scalar, or has it inside. -/
theorem Schema.Leftmost.scalar_or_nested {s : Schema} {key : ColumnKey} {i : Nat}
    (h : s.Leftmost key i) (hplain : Column.PlainAll s.columns) :
    (∃ t, s.column? i = some (.scalar (some key) t)) ∨
      ∃ cs, s.column? i = some (.nested none cs) ∧ key ∈ Column.keysAll cs := by
  obtain ⟨⟨rest, cs, c, hcs, hi, hrest⟩, -⟩ := h
  cases hcs
  have hc := Column.plainAll_iff.mp hplain c (List.mem_of_getElem? hi)
  have hkey := hrest.mem_keys
  cases c with
  | scalar o t =>
    obtain rfl : o = some key := Option.mem_toList.mp hkey
    exact Or.inl ⟨t, hi⟩
  | nested o inside =>
    obtain ⟨rfl, -⟩ := hc
    exact Or.inr ⟨inside, hi, hkey⟩

namespace ColumnRef

variable {s : Schema} {c c' : ColumnRef} {key : ColumnKey}

/-- A reference that can be settled is settled to what it finds. -/
theorem Reaches.finds (h : c.Reaches s) (hplain : Column.PlainAll s.columns) :
    Finds s c (s.positions.target 0 c) := by
  cases c with
  | resolved i => exact .position h
  | symbolic key =>
    obtain ⟨path, hpath⟩ := Schema.exists_firstPath h
    -- outside of paths only the first index of the key's path counts
    obtain ⟨i, rest, rfl, -, hfirst⟩ := hpath.exists_index
    have htarget : s.positions.target 0 (.symbolic key) = .resolved i := by
      rw [Positions.target, Schema.get?_positions_eq_some_iff.mpr hpath]
      rfl
    rw [htarget]
    rcases hfirst.scalar_or_nested hplain with ⟨t, hi⟩ | ⟨cs, hi, hkey⟩
    · exact .scalar hfirst hi
    · exact .nested hfirst hi hkey

/-- A key that occurs once and is that of a scalar finds this scalar. -/
theorem Finds.eq_of_scalar (h : Finds s (.symbolic key) c') (hnodup : s.keys.Nodup) {i : Nat}
    {t : ScalarType} (hi : s.column? i = some (.scalar (some key) t)) : c' = .resolved i := by
  have hown : key ∈ (Column.scalar (some key) t).keys := List.mem_singleton_self key
  cases h with
  | scalar hfirst hj =>
    exact congrArg resolved (Column.eq_of_mem_keys hnodup hj hi (List.mem_singleton_self key) hown)
  | nested hfirst hj hkey => exact congrArg resolved (Column.eq_of_mem_keys hnodup hj hi hkey hown)

end ColumnRef

theorem Schema.get?_positions_eq_none_iff_notMem {s : Schema} {key : ColumnKey} :
    s.positions.get? key = none ↔ key ∉ s.keys := by
  rw [get?_positions_eq_none_iff, mem_keys_iff, not_exists]

/-- A condition with a key that is not carried is refused for the sake of such a key. -/
theorem Predicate.failure_resolveInRange_of_unbound {s : Schema} {p : Predicate} {key : ColumnKey}
    (reader : String) (hkey : .symbolic key ∈ p.columns) (hfar : key ∉ s.keys) :
    ∃ key', .symbolic key' ∈ p.columns ∧ key' ∉ s.keys ∧
      (p.resolveInRange s.positions reader s.width).failure = some (.unbound key' reader) := by
  have hfault : s.positions.fault reader (Slot.single (.symbolic key)) =
      some (.unbound key reader) := by
    have hget := Schema.get?_positions_eq_none_iff_notMem.mpr hfar
    exact Positions.fault_eq_some_iff.mpr ⟨key, rfl, Or.inl ⟨hget, rfl⟩⟩
  -- the key at hand is at fault, so something is found
  have hstops : p.slots.findSome? (s.positions.fault reader) ≠ none := by
    intro hfine
    rw [List.findSome?_eq_none_iff] at hfine
    rw [hfine _ (List.mem_map_of_mem hkey)] at hfault
    cases hfault
  -- the fault that is found is the one of the first such key
  obtain ⟨e, he⟩ := Option.ne_none_iff_exists'.mp hstops
  obtain ⟨slot, hslot, hcause⟩ := List.exists_of_findSome?_eq_some he
  obtain ⟨ref, href, rfl⟩ := List.mem_map.mp hslot
  obtain ⟨key', rfl, ⟨hget, rfl⟩ | ⟨path, hget, hlength, -⟩⟩ :=
    Positions.fault_eq_some_iff.mp hcause
  · refine ⟨key', href, Schema.get?_positions_eq_none_iff_notMem.mp hget, ?_⟩
    rw [← failure_resolve] at he
    exact Attempt.failure_check_eq_some_iff.mpr (Or.inl he)
  · -- a path has a first index
    obtain ⟨i, rest, rfl, -⟩ := (Schema.get?_positions_eq_some_iff.mp hget).exists_index
    cases hlength

namespace Plan

variable {checked : Bool} {p r n m : Plan} {c : Predicate} {key : ColumnKey}

/-- The condition of a selection, a join or an outer join. -/
def condition? : Plan → Option Predicate
  | unary (.select c) _ _ => some c
  | binary (.join c) _ _ _ => some c
  | binary (.outerJoin c) _ _ _ => some c
  | _ => none

/-- The references of the condition of `n`, if it has one, are settled in `m` to what they find
over the inputs of `m`. -/
def ConditionSettled (n m : Plan) : Prop :=
  ∀ c, n.condition? = some c → ∃ c', m.condition? = some c' ∧
    List.Forall₂ (ColumnRef.Finds m.input) c.columns c'.columns

/-- A condition finds the scalar that carries a key, if there is one. -/
def FindsScalars (m : Plan) : Prop :=
  ∀ c, m.condition? = some c → ∀ key i t ref, m.input.column? i = some (.scalar (some key) t) →
    ColumnRef.Finds m.input (.symbolic key) ref → ref = .resolved i

/-- The inputs of the operator are resolved, and none of their columns carries a key of its
condition. -/
structure Misses (checked : Bool) (n : Plan) (key : ColumnKey) : Prop where
  /-- The condition refers to the key. -/
  condition : ∃ c, n.condition? = some c ∧ .symbolic key ∈ c.columns
  /-- The inputs are resolved, and their columns do not carry it. -/
  inputs : ∃ inputs : List Plan, n.inputs.map (resolve checked) = inputs.map .done ∧
    key ∉ (Schema.concat (inputs.map output)).keys
  /-- None of the inputs is a construction. -/
  plain : ∀ p ∈ n.inputs, p.isConstruct = false

/-! ### Conditions that are settled -/

/-- The columns of the inputs of a resolved operator are plain. -/
theorem plainAll_input_of_resolve (h : n.resolve checked = .done m) :
    Column.PlainAll m.input.columns := by
  rw [Column.plainAll_iff]
  intro c hc
  rw [input, Schema.columns_concat] at hc
  obtain ⟨out, hout, hc⟩ := List.mem_flatMap.mp hc
  obtain ⟨q, hq, rfl⟩ := List.mem_map.mp hout
  exact Column.plainAll_iff.mp (plainAll_of_resolve h q (mem_postorder_of_mem_inputs hq)) c hc

/-- A condition of a resolved operator refers to columns of its inputs only. -/
theorem reaches_of_resolve (h : n.resolve checked = .done m) (hc : n.condition? = some c) :
    ∀ ref ∈ c.columns, ref.Reaches m.input := by
  cases n with
  | scan s d => cases hc
  | unary op p d =>
    obtain ⟨-, p', folded, out, -, -, hsettle, -, -, rfl⟩ := resolve_unary_eq_done_iff.mp h
    rw [input_unary]
    -- only selections have a condition here
    cases op with
    | select c' =>
      cases hc
      exact Predicate.failure_resolveInRange_eq_none_iff.mp hsettle
    | _ => cases hc
  | binary op left right d =>
    obtain ⟨-, -, l', r', -, -, hsettle, -, rfl⟩ := resolve_binary_eq_done_iff.mp h
    rw [input_binary]
    -- only joins have a condition, and it is resolved against both inputs
    cases op with
    | join c' | outerJoin c' =>
      cases hc
      exact Predicate.failure_resolveInRange_eq_none_iff.mp hsettle
    | _ => cases hc

/-- A condition keeps its form. -/
theorem Recast.condition?_eq {f : Nat → ColumnRef → ColumnRef} (h : Recast f n m) :
    m.condition? = n.condition?.map (Predicate.mapRefs f) := by
  cases h with
  | scan s d d' => rfl
  | unary op p p' d d' => cases op <;> rfl
  | binary op l r l' r' d d' => cases op <;> rfl

/-- The references of a condition are settled to what they find. -/
theorem conditionSettled_of_resolve (h : n.resolve checked = .done m) : ConditionSettled n m := by
  intro c hc
  have hrecast := (recast_of_resolve h).1
  refine ⟨_, hrecast.condition?_eq.trans (congrArg (Option.map _) hc), ?_⟩
  rw [Predicate.columns_mapRefs, List.forall₂_map_right_iff, List.forall₂_same]
  intro ref href
  exact (reaches_of_resolve h hc ref href).finds (plainAll_input_of_resolve h)

/-! ### Distinct keys -/

/-- An operator with a condition passes on the columns that it gets. -/
theorem Yields.eq_input {out : List Column} (h : n.Yields out) (hc : n.condition? = some c) :
    out = n.input.columns := by
  cases n with
  | scan s d => cases hc
  | unary op p d =>
    rw [input_unary]
    cases op with
    | select c' => exact h
    | _ => cases hc
  | binary op l r d =>
    rw [input_binary, Schema.columns_concat, List.flatMap_cons, List.flatMap_singleton]
    cases op with
    | join c' | outerJoin c' => exact h
    | _ => cases hc

/-- In a sound plan without projections a condition finds the scalars. -/
theorem findsScalars_of_resolve (hp : p.Sound) (hfree : ∀ n ∈ p.postorder, n.isProjection = false)
    (h : p.resolve checked = .done r) (hm : m ∈ r.postorder) : m.FindsScalars := by
  intro c hc key i t ref hi hfinds
  -- the columns that the operator gets are those that it passes on, and their keys are distinct
  have hconserves := conserves_of_resolve h (projectionFree_of_resolve h hfree) m hm
  have hnodup := hconserves.nodup_keys (plainAll_of_resolve h m hm) hp h hm
  rw [Schema.keys, (yields_of_resolve h m hm).eq_input hc] at hnodup
  exact hfinds.eq_of_scalar hnodup hi

/-! ### Conditions that are refused -/

/-- An operator whose condition misses a key is refused, and the error names such a key. -/
theorem Misses.failure (h : Misses checked n key) :
    ∃ key', Misses checked n key' ∧ (n.resolve checked).failure = some (.unbound key' n.name) := by
  obtain ⟨⟨c, hc, hkey⟩, ⟨inputs, hinputs, hfar⟩, hplain⟩ := h
  obtain ⟨key', hkey', hfar', hfailure⟩ :=
    Predicate.failure_resolveInRange_of_unbound n.name hkey hfar
  refine ⟨key', ⟨⟨c, hc, hkey'⟩, ⟨inputs, hinputs, hfar'⟩, hplain⟩, ?_⟩
  cases n with
  | scan s d => cases hc
  | unary op p d =>
    cases op with
    | select c' =>
      cases hc
      obtain ⟨p', rfl, hp⟩ := List.map_eq_singleton_iff.mp hinputs.symm
      -- the inputs are resolved, so the operator gets to its condition
      rw [List.map_singleton, Schema.concat_singleton] at hfailure
      have hcp := hplain p (List.mem_singleton_self p)
      rw [resolve_unary_of_done hcp hp.symm rfl, Unary.resolve_eq, failure_record_eq_some_iff,
        Attempt.outcome_eq_error_iff]
      exact Or.inl (Or.inl hfailure)
    | _ => cases hc
  | binary op l r d =>
    obtain ⟨l', rest, rfl, hl, hrest⟩ := List.map_eq_cons_iff.mp hinputs.symm
    obtain ⟨r', rfl, hr⟩ := List.map_eq_singleton_iff.mp hrest
    have hcl := hplain l List.mem_cons_self
    have hcr := hplain r (List.mem_cons_of_mem _ (List.mem_singleton_self r))
    rw [resolve_binary_of_done hcl hl.symm hcr hr.symm, Binary.resolve_eq,
      failure_record_eq_some_iff, Attempt.outcome_eq_error_iff]
    refine Or.inl (Or.inl ?_)
    cases op with
    | join c' | outerJoin c' =>
      cases hc
      exact hfailure
    | _ => cases hc

end Plan

/-! ### The whole plan -/

namespace Query

open Plan

/-- If a plan is resolved, the references of the conditions of its selections, joins and outer
joins are settled to what they find over the inputs of the operator: a key means the first of
these columns that carries it, a scalar or a column of nested tuples with the key inside.  If the
plan was accepted and has no projections, it means the scalar whenever a scalar carries it.  An
operator whose condition has a key that its resolved inputs do not carry is refused, the error
names such a key, and the plan is not resolved. -/
theorem resolve_conditions (checked : Bool) (q : Query) :
    (∀ r, q.resolve checked = .done r →
      List.Forall₂ ConditionSettled q.root.postorder r.root.postorder ∧
      (q.root.validate = .ok () → (∀ n ∈ q.root.postorder, n.isProjection = false) →
        ∀ m ∈ r.root.postorder, m.FindsScalars)) ∧
    ∀ n ∈ q.root.postorder, ∀ key, Misses checked n key →
      (∃ key', Misses checked n key' ∧ (n.resolve checked).failure = some (.unbound key' n.name)) ∧
        (q.resolve checked).failure ≠ none := by
  constructor
  · intro r h
    obtain ⟨hroot, -⟩ := resolve_eq_done_iff.mp h
    refine ⟨(forall₂_postorder_of_resolve hroot).imp fun _ _ => conditionSettled_of_resolve, ?_⟩
    intro hvalid hfree m hm
    exact findsScalars_of_resolve (validate_eq_ok_iff.mp hvalid) hfree hroot hm
  · intro n hn key hmisses
    obtain ⟨key', hmisses', hfailure⟩ := hmisses.failure
    refine ⟨⟨key', hmisses', hfailure⟩, fun hdone => ?_⟩
    obtain ⟨hroot, -⟩ := resolve_eq_done_iff.mp (Attempt.eq_done_of_complete hdone)
    rw [forall_mem_complete hroot n hn] at hfailure
    cases hfailure

/-- Books with their reviews nested, of which those are kept that equal one of their reviews. -/
def equalReviews : Query :=
  let documents (i : UInt32) : Plan := .scan ⟨⟨i⟩, none, true, ⟨"shelf", []⟩⟩ none
  let shared : Condition := ⟨.symbolic (.docId ⟨0⟩), .column (.symbolic (.docId ⟨1⟩)), .equal⟩
  let join : NestedJoin := ⟨⟨[[shared]]⟩, .symbolic (.docId ⟨0⟩), [], none⟩
  let nested : Plan := .binary (.nestedJoin join) (documents 0) (documents 1) none
  let same : Condition := ⟨.symbolic (.document ⟨0⟩), .column (.symbolic (.document ⟨1⟩)), .equal⟩
  .symbolic (.unary (.select ⟨[[same]]⟩) nested none)

/-- The plan is accepted and resolved, and the review in its condition becomes the position of all
the reviews. -/
theorem not_scalar_equalReviews :
    equalReviews.root.validate = .ok () ∧
      (∃ c, equalReviews.root.condition? = some c ∧
        c.columns = [.symbolic (.document ⟨0⟩), .symbolic (.document ⟨1⟩)]) ∧
      ∃ r c, equalReviews.resolve true = .done r ∧ r.root.condition? = some c ∧
        c.columns = [.resolved 1, .resolved 2] ∧
        ∀ key t, r.root.input.column? 2 ≠ some (.scalar (some key) t) := by
  have hdone : (equalReviews.resolve true).failure = none := by decide
  have hnested : (equalReviews.resolve true).value.root.input.column? 2 =
      some (.nested none [.carrying (.docId ⟨1⟩) .id, .carrying (.document ⟨1⟩) .xml]) := by decide
  refine ⟨by decide, ⟨_, rfl, rfl⟩, _, _, Attempt.eq_done_of_complete hdone, rfl, by decide, ?_⟩
  intro key t hscalar
  rw [hnested] at hscalar
  cases hscalar

/-- Books that are compared with a review, where there are no reviews. -/
def missingReview : Query :=
  let books : Plan := .scan ⟨⟨0⟩, none, true, ⟨"shelf", []⟩⟩ none
  let same : Condition := ⟨.symbolic (.document ⟨0⟩), .column (.symbolic (.document ⟨1⟩)), .equal⟩
  .symbolic (.unary (.select ⟨[[same]]⟩) books none)

/-- The theorem at a plan whose condition compares a scalar with nested tuples, and at one whose
condition misses a key. -/
theorem resolve_conditions_equalReviews :
    ((equalReviews.resolve true).failure = none ∧ equalReviews.root.validate = .ok () ∧
      (∀ n ∈ equalReviews.root.postorder, n.isProjection = false) ∧
      List.Forall₂ ConditionSettled equalReviews.root.postorder
        (equalReviews.resolve true).value.root.postorder ∧
      ∀ m ∈ (equalReviews.resolve true).value.root.postorder, m.FindsScalars) ∧
    Misses true missingReview.root (.document ⟨1⟩) ∧
      (∃ key, Misses true missingReview.root key ∧
        (missingReview.root.resolve true).failure = some (.unbound key "Selection")) ∧
      (missingReview.resolve true).failure ≠ none := by
  have hdone : (equalReviews.resolve true).failure = none := by decide
  have hvalid : equalReviews.root.validate = .ok () := by decide
  have hfree : ∀ n ∈ equalReviews.root.postorder, n.isProjection = false := by decide
  have hmisses : Misses true missingReview.root (.document ⟨1⟩) :=
    ⟨⟨_, rfl, by decide⟩, ⟨[_], rfl, by decide⟩, by decide⟩
  obtain ⟨hsettled, hscalars⟩ :=
    (resolve_conditions true equalReviews).1 _ (Attempt.eq_done_of_complete hdone)
  exact ⟨⟨hdone, hvalid, hfree, hsettled, hscalars hvalid hfree⟩, hmisses,
    (resolve_conditions true missingReview).2 _ (mem_postorder_self _) _ hmisses⟩

end Query

end TwigAlgebra
