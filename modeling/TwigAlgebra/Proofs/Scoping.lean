import TwigAlgebra.Proofs.Holders
import TwigAlgebra.Proofs.Stops

/-!
# The scope of references

The columns that a reference may mean are those of the inputs of its operator, one input after the
other.  A reference to a key is settled to the position of the first of them that carries it, or,
in a path, to an index of the first path that leads to it, and the key was introduced below the
operator.  Resolution stops for want of a column at the first operator that refers to a key which
its inputs do not carry, or not deep enough.

## Main definitions

* `Slot.Settled` — what a slot becomes over an input.
* `Slot.Unbound` — why a slot cannot be settled over an input.
* `Plan.Scoped` — every slot of an operator is settled, and its keys were introduced below.
* `Plan.StopsAt` — the first operator of a plan that cannot be resolved, for want of a column.

## Main results

* `Plan.scoped_of_resolve` — an operator that is resolved is scoped.
* `Plan.exists_stopsAt` — resolution for want of a column stops at an unbound slot.
* `Query.resolve_scope` — both for a plan with its stage.
-/

namespace TwigAlgebra

/-! ### Slots over an input -/

namespace Slot

/-- What a slot becomes over an input: a position stays, and a key becomes the index at the slot's
level of the first path to the key. -/
inductive Settled (input : Schema) : Slot → Slot → Prop
  /-- A position stays as it is. -/
  | position (depth i : Nat) : Settled input ⟨depth, .resolved i⟩ ⟨depth, .resolved i⟩
  /-- A key becomes an index of its first path; outside of paths, and for the first reference of a
  path, this is the first position that carries the key. -/
  | key {depth i : Nat} {key : ColumnKey} {path : List Nat} (hpath : input.FirstPath key path)
      (hi : path[depth]? = some i) (hleftmost : depth = 0 → input.Leftmost key i) :
      Settled input ⟨depth, .symbolic key⟩ ⟨depth, .resolved i⟩

/-- Why a slot cannot be settled over an input. -/
inductive Unbound (input : Schema) (reader : String) : Slot → PlanError → Prop
  /-- No column carries the key. -/
  | nowhere {depth : Nat} {key : ColumnKey} (h : ∀ path, ¬ input.LeadsTo key path) :
      Unbound input reader ⟨depth, .symbolic key⟩ (.unbound key reader)
  /-- The first path to the key has no index at the slot's level. -/
  | shallow {depth : Nat} {key : ColumnKey} {path : List Nat} (hpath : input.FirstPath key path)
      (hlength : path.length ≤ depth) :
      Unbound input reader ⟨depth, .symbolic key⟩ (.tooShallow key reader depth)

variable {input : Schema} {reader : String} {s : Slot}

theorem settled_of_fault_eq_none (h : input.positions.fault reader s = none) :
    Settled input s (s.map input.positions.target) := by
  obtain ⟨depth, c⟩ := s
  cases c with
  | resolved i => exact .position depth i
  | symbolic key =>
    obtain ⟨path, i, hget, hi, htarget⟩ := Positions.target_symbolic_of_fault_eq_none h
    have hpath := Schema.get?_positions_eq_some_iff.mp hget
    rw [map, htarget]
    -- at level zero the first index of the path is the least one with the key
    refine .key hpath hi fun hdepth => ?_
    cases path with
    | nil => cases hi
    | cons j rest =>
      subst hdepth
      cases hi
      exact hpath.leftmost

/-- A key that is settled has a path. -/
theorem Settled.exists_path {t : Slot} (h : Settled input s t) {key : ColumnKey}
    (hkey : s.ref = .symbolic key) : ∃ path, input.FirstPath key path := by
  cases h with
  | position depth i => cases hkey
  | key hpath hi hleftmost =>
    cases hkey
    exact ⟨_, hpath⟩

theorem unbound_of_fault_eq_some {e : PlanError} (h : input.positions.fault reader s = some e) :
    Unbound input reader s e := by
  obtain ⟨depth, c⟩ := s
  obtain ⟨key, rfl, ⟨hget, rfl⟩ | ⟨path, hget, hlength, rfl⟩⟩ := Positions.fault_eq_some_iff.mp h
  · exact .nowhere (Schema.get?_positions_eq_none_iff.mp hget)
  · exact .shallow (Schema.get?_positions_eq_some_iff.mp hget) hlength

end Slot

namespace Plan

variable {checked : Bool} {p r n m : Plan} {d : Option Schema} {e : PlanError}

/-! ### Operators that are resolved -/

/-- `n` is settled in `m` over the inputs of `m`, and every key that it refers to was introduced
below. -/
structure Scoped (n m : Plan) : Prop where
  /-- The operator stays the same but for its references. -/
  recast : ∃ f, Recast f n m
  /-- Every slot is settled. -/
  settled : List.Forall₂ (Slot.Settled m.input) n.slots m.slots
  /-- Every key was introduced by a scan or an aggregation strictly below. -/
  introduced : ∀ key ∈ n.keys, ∃ h ∈ m.holders, h.IntroducesKey key

/-- Only scans and aggregations introduce keys. -/
theorem IntroducesKey.isHolder {key : ColumnKey} (h : n.IntroducesKey key) : n.isHolder = true := by
  obtain ⟨cs, hintro, -⟩ := h
  cases n with
  | scan s d => rfl
  | unary op p d =>
    cases op with
    | aggregate a => rfl
    | _ => exact hintro.elim
  | binary op l r d => exact hintro.elim

/-- A key that the inputs of an operator carry was introduced below the operator. -/
theorem exists_holder (h : n.resolve checked = .done m) {key : ColumnKey} {path : List Nat}
    (hpath : m.input.LeadsTo key path) : ∃ k ∈ m.holders, k.IntroducesKey key := by
  have hkey := Schema.mem_keys_iff.mpr ⟨path, hpath⟩
  obtain ⟨out, hout, hkey⟩ := Schema.mem_keys_concat_iff.mp hkey
  obtain ⟨q, hq, rfl⟩ := List.mem_map.mp hout
  -- the input is an operator of the resolved plan itself, so that its keys were introduced in it
  obtain ⟨k, hk, hintro⟩ := exists_introducesKey h q (mem_postorder_of_mem_inputs hq) key hkey
  refine ⟨k, List.mem_flatMap_of_mem hq (List.mem_filter.mpr ⟨hk, hintro.isHolder⟩), hintro⟩

/-- An operator that is resolved is scoped. -/
theorem scoped_of_resolve (h : n.resolve checked = .done m) : Scoped n m := by
  obtain ⟨hrecast, hfaults⟩ := recast_of_resolve h
  have hsettled : ∀ s ∈ n.slots, Slot.Settled m.input s (s.map m.input.positions.target) :=
    fun s hs => Slot.settled_of_fault_eq_none (hfaults s hs)
  refine ⟨⟨_, hrecast⟩, ?_, fun key hkey => ?_⟩
  · rw [hrecast.slots_eq, List.forall₂_map_right_iff, List.forall₂_same]
    exact hsettled
  · -- a key was found in the input, so that some operator below brings it along
    rw [keys, ← map_ref_slots] at hkey
    obtain ⟨c, hc, hkey⟩ := List.mem_filterMap.mp hkey
    obtain ⟨s, hs, rfl⟩ := List.mem_map.mp hc
    have hsymbolic : s.ref = .symbolic key := by
      cases href : s.ref with
      | resolved i => simp [href] at hkey
      | symbolic key' => simpa [href] using hkey
    obtain ⟨path, hpath, -⟩ := (hsettled s hs).exists_path hsymbolic
    exact exists_holder h hpath

/-! ### Where resolution stops -/

/-- The rule of an operator that is settled does not stop for want of a column. -/
theorem kind_of_rule {op : Unary} {name : String} {folded : Nat} {input : Schema}
    (hfits : op.Fits input) (h : op.rule name folded input = .error e) :
    e.kind ≠ "UnboundVariable" := by
  cases op with
  | group g =>
    rw [Unary.rule, Schema.fold] at h
    split at h
    · cases h
    · cases h
      exact (by decide : "WidthMismatch" ≠ "UnboundVariable")
  | flatten c =>
    -- a settled flattening is of a column in range, so that only its kind can be wrong
    obtain ⟨i, -, hi⟩ := hfits.1 (Slot.single c) List.mem_cons_self rfl
    cases hi
    rw [Unary.rule, Schema.unnest] at h
    split at h
    · cases h
      exact (by decide : "UnsupportedOperator" ≠ "UnboundVariable")
    · cases h
  | _ => cases h

/-- The first operator of a plan that cannot be resolved is `n`, and this is for want of a column:
one of its slots is unbound over its resolved inputs. -/
structure StopsAt (checked : Bool) (p : Plan) (e : PlanError) (n : Plan) : Prop where
  /-- Everything before it in post-order is resolved. -/
  first : ∃ before after, p.postorder = before ++ n :: after ∧
    ∀ m ∈ before, (m.resolve checked).failure = none
  /-- It is not resolved itself. -/
  failure : (n.resolve checked).failure = some e
  /-- A slot is unbound over the outputs of its inputs. -/
  unbound : ∃ inputs : List Plan, n.inputs.map (resolve checked) = inputs.map .done ∧
    ∃ s ∈ n.slots, Slot.Unbound (Schema.concat (inputs.map output)) n.name s e

/-- When resolution stops for want of a column, it does so at an operator with an unbound slot. -/
theorem exists_stopsAt (h : (p.resolve checked).failure = some e)
    (hkind : e.kind = "UnboundVariable") : ∃ n, StopsAt checked p e n := by
  have he : e ≠ constructionBelow := by
    rintro rfl
    exact absurd hkind (by decide)
  obtain ⟨n, hn⟩ := exists_firstStop h he
  refine ⟨n, hn.first, hn.failure, ?_⟩
  -- only settling looks up columns: elsewhere the kind of the error is another
  cases hn.refused with
  | lost | unfolded => exact absurd hkind (by decide)
  | declared => exact absurd hkind (by decide : "WidthMismatch" ≠ "UnboundVariable")
  | rule hp hf hsettle hrule => exact absurd hkind (kind_of_rule (Unary.fits_of_settle hsettle) hrule)
  | @unarySettle op p p' d _ hp hsettle =>
    obtain ⟨s, hs, hfault⟩ := (op.settles p'.output).stopped e hsettle hkind
    refine ⟨[p'], congrArg (fun r => [r]) hp, s, hs, ?_⟩
    rw [List.map_singleton, Schema.concat_singleton]
    exact Slot.unbound_of_fault_eq_some hfault
  | @binarySettle op l l' r r' d _ hl hr hsettle =>
    obtain ⟨s, hs, hfault⟩ := (op.settles l'.output r'.output).stopped e hsettle hkind
    refine ⟨[l', r'], ?_, s, hs, Slot.unbound_of_fault_eq_some hfault⟩
    rw [inputs, List.map_cons, List.map_singleton, hl, hr]
    rfl

end Plan

/-! ### The whole plan -/

namespace Query

open Plan

/-- If a plan is resolved, then at every operator positions stay, every other reference outside of
paths becomes the first position of the inputs that carries its key, and the one at level `i` of a
path the index at level `i` of the first path to its key; and each key was introduced strictly below
the operator.  If resolution stops for want of a column, the failure names a key that the first
operator that is not resolved refers to, and its inputs do not carry the key, or its first path is
too short. -/
theorem resolve_scope (checked : Bool) (q : Query) :
    (∀ r, q.resolve checked = .done r →
      List.Forall₂ Scoped q.root.postorder r.root.postorder) ∧
    ∀ s e, q.resolve checked = .stopped s e → e.kind = "UnboundVariable" →
      ∃ n, StopsAt checked q.root e n := by
  constructor
  · intro r h
    obtain ⟨hroot, -⟩ := resolve_eq_done_iff.mp h
    exact (forall₂_postorder_of_resolve hroot).imp fun _ _ => scoped_of_resolve
  · intro s e h hkind
    refine exists_stopsAt ?_ hkind
    have hfailure := (Attempt.eq_stopped_iff.mp h).2
    rw [Query.resolve] at hfailure
    cases hroot : (q.root.resolve checked).failure with
    | none => simp [hroot] at hfailure
    | some e' => simpa [hroot] using hfailure

/-- An aggregation whose path asks for an index inside the document identifier. -/
def shallowCount : Query :=
  let scan : Plan := .scan ⟨⟨0⟩, none, true, ⟨"books", []⟩⟩ none
  let path : List ColumnRef := [.symbolic (.docId ⟨0⟩), .symbolic (.docId ⟨0⟩)]
  .symbolic (.unary (.aggregate ⟨path, .count, ⟨1⟩⟩) scan none)

/-- The theorem at a plan that is resolved, with a path into the matches of a nested join, and at one
whose path is too long. -/
theorem resolve_scope_matchCounts :
    ((matchCounts.resolve true).failure = none ∧
      List.Forall₂ Scoped matchCounts.root.postorder
        (matchCounts.resolve true).value.root.postorder) ∧
    (shallowCount.resolve true).failure = some (.tooShallow (.docId ⟨0⟩) "Aggregation" 1) ∧
      ∃ n, StopsAt true shallowCount.root (.tooShallow (.docId ⟨0⟩) "Aggregation" 1) n := by
  have hdone : (matchCounts.resolve true).failure = none := by decide
  have hstopped : (shallowCount.resolve true).failure
      = some (.tooShallow (.docId ⟨0⟩) "Aggregation" 1) := by decide
  refine ⟨⟨hdone, ?_⟩, hstopped, ?_⟩
  · exact (resolve_scope true matchCounts).1 _ (Attempt.eq_done_of_complete hdone)
  · exact (resolve_scope true shallowCount).2 _ _ (Attempt.eq_stopped_iff.mpr ⟨rfl, hstopped⟩) rfl

end Query

end TwigAlgebra
