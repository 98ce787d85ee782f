import TwigAlgebra.Proofs.Scoping
import TwigAlgebra.Proofs.Stability

/-!
# Paths of a construction

The references of a path are resolved one by one, each at its own nesting level, so that a path may
combine indices of different keys.  An aggregation then follows its path through the nested columns
of its input.  A construction looks at the first reference of each path only: the rest of a path
that names one key throughout leads to that key, but any other path may lead nowhere.

## Main definitions

* `Plan.PathSettled` — what resolution makes of a path of a template.

## Main results

* `Schema.LeadsTo.addresses` — the first indices of a path to a key lead through nested columns.
* `Query.resolve_construct` — what the paths of a resolved construction are.
* `Query.not_addresses_scalarPath` — a path of a resolved construction that goes on below a scalar.
-/

namespace TwigAlgebra

/-! ### Paths that name one key -/

/-- The first indices of a path to a key lead through nested columns. -/
theorem Schema.LeadsTo.addresses {s : Schema} {key : ColumnKey} {path : List Nat}
    (h : s.LeadsTo key path) (k : Nat) : s.Addresses ((path.take k).map .resolved) := by
  induction path generalizing s k with
  | nil => simp
  | cons i path ih =>
    cases k with
    | zero => simp
    | succ k =>
      obtain ⟨cs, d, hcs, hd, hrest⟩ := h
      cases hcs
      have hi : i < s.width := (List.getElem?_eq_some_iff.mp hd).1
      rw [List.take_succ_cons, List.map_cons, addresses_resolved_iff]
      refine ⟨hi, fun hne => ?_⟩
      -- the path goes on inside the column, which is nested therefore
      cases path with
      | nil => simp at hne
      | cons j path =>
        obtain ⟨inner, d', hinner, hd', hrest'⟩ := hrest
        refine ⟨⟨inner⟩, ?_, ih ⟨inner, d', rfl, hd', hrest'⟩ k⟩
        rw [nested?, column?, hd, Option.bind_some, hinner]
        rfl

/-- Whether a reference can be resolved does not depend on who asks. -/
theorem Positions.fault_eq_none_of_fault_eq_none {ps : Positions} {reader reader' : String}
    {s : Slot} (h : ps.fault reader s = .none) : ps.fault reader' s = .none := by
  cases hs : ps.fault reader' s with
  | none => rfl
  | some e =>
    obtain ⟨key, hkey, hcause⟩ := fault_eq_some_iff.mp hs
    have hfault : ∃ e', ps.fault reader s = some e' := by
      rcases hcause with ⟨hnone, -⟩ | ⟨path, hpath, hlen, -⟩
      · exact ⟨_, fault_eq_some_iff.mpr ⟨key, hkey, Or.inl ⟨hnone, rfl⟩⟩⟩
      · exact ⟨_, fault_eq_some_iff.mpr ⟨key, hkey, Or.inr ⟨path, hpath, hlen, rfl⟩⟩⟩
    obtain ⟨e', he'⟩ := hfault
    rw [h] at he'
    cases he'

/-- References that all name one key are resolved to the first indices of its path. -/
theorem Positions.mapAlong_target_of_key {ps : Positions} {reader : String} {key : ColumnKey}
    {path : List Nat} (hkey : ps.get? key = some path) {depth : Nat} {cs : List ColumnRef}
    (hcs : ∀ c ∈ cs, c = .symbolic key) (h : ∀ s ∈ Slot.along depth cs, ps.fault reader s = .none) :
    ColumnRef.mapAlong ps.target depth cs = ((path.drop depth).take cs.length).map .resolved := by
  induction cs generalizing depth with
  | nil => simp [ColumnRef.mapAlong]
  | cons c cs ih =>
    obtain rfl := hcs c List.mem_cons_self
    obtain ⟨path', i, hpath', hi, htarget⟩ :=
      target_symbolic_of_fault_eq_none (h ⟨depth, .symbolic key⟩ List.mem_cons_self)
    cases hkey.symm.trans hpath'
    obtain ⟨hlt, hget⟩ := List.getElem?_eq_some_iff.mp hi
    have hrest := ih (fun c hc => hcs c (List.mem_cons_of_mem _ hc))
      fun s hs => h s (List.mem_cons_of_mem _ hs)
    rw [ColumnRef.mapAlong, htarget, hrest, List.drop_eq_getElem_cons hlt, hget, List.length_cons,
      List.take_succ_cons, List.map_cons]

/-- A path that names one key throughout leads through nested columns once it is resolved. -/
theorem Schema.addresses_mapAlong_of_key {s : Schema} {reader : String} {key : ColumnKey}
    {cs : List ColumnRef} (hcs : ∀ c ∈ cs, c = .symbolic key)
    (h : ∀ t ∈ Slot.along 0 cs, s.positions.fault reader t = none) :
    s.Addresses (ColumnRef.mapAlong s.positions.target 0 cs) := by
  cases cs with
  | nil => exact addresses_nil s
  | cons c cs =>
    obtain rfl := hcs c List.mem_cons_self
    obtain ⟨path, i, hpath, -, -⟩ :=
      Positions.target_symbolic_of_fault_eq_none (h ⟨0, .symbolic key⟩ List.mem_cons_self)
    have hleads := (get?_positions_eq_some_iff.mp hpath).1
    rw [Positions.mapAlong_target_of_key hpath hcs h]
    exact hleads.addresses _

namespace Plan

variable {checked : Bool} {p p' r : Plan} {d : Option Schema}

/-! ### Aggregations along a path -/

/-- An aggregation is resolved if the references of its path are, and it leads through nested
columns. -/
theorem failure_resolve_aggregate_eq_none_iff (hc : p.isConstruct = false)
    (hp : p.resolve checked = .done p') (a : Aggregation) :
    ((unary (.aggregate a) p none).resolve checked).failure = none ↔
      (∀ s ∈ Slot.along 0 a.path,
        p'.output.positions.fault (Unary.aggregate a).name s = none) ∧
      p'.output.Addresses (ColumnRef.mapAlong p'.output.positions.target 0 a.path) := by
  -- the path is resolved first, and is then followed
  have hsettle : ((Unary.aggregate a).settle p'.output).failure = none ↔
      (p'.output.positions.resolvePath (Unary.aggregate a).name a.path).failure = none ∧
      p'.output.Addresses
        (p'.output.positions.resolvePath (Unary.aggregate a).name a.path).value := by
    rw [Unary.settle, Attempt.failure_map, Attempt.failure_check_eq_none_iff,
      Schema.checkPath_eq_ok_iff]
  -- a path that can be followed yields a schema, and nothing is declared
  have hplan : ((unary (.aggregate a) p none).resolve checked).failure = none ↔
      ((Unary.aggregate a).settle p'.output).failure = none := by
    have hfold : foldedWidth (.aggregate a) p' = some 0 := rfl
    have hrule : ∃ out, Unary.rule (Unary.aggregate a).name 0 p'.output
        ((Unary.aggregate a).settle p'.output).value = .ok out := ⟨_, rfl⟩
    obtain ⟨out, hout⟩ := hrule
    rw [resolve_unary_of_done hc hp hfold, Unary.resolve_eq, Attempt.outcome, hout]
    cases ((Unary.aggregate a).settle p'.output).failure <;> simp [record]
  rw [hplan, hsettle, ← List.findSome?_eq_none_iff, ← Positions.failure_resolvePath]
  refine and_congr_right fun hpath => ?_
  rw [Positions.value_resolvePath hpath]

/-! ### Constructions -/

/-- What resolution makes of a path of a template over the plan `p`, which is resolved to `p'`. -/
structure PathSettled (checked : Bool) (p p' : Plan) (path path' : List ColumnRef) : Prop where
  /-- Every reference is a position. -/
  resolved : ∀ c ∈ path', ∃ i, c = .resolved i
  /-- It is the one that was there, or the index at its level of the first path to the key that was
  there. -/
  settled : List.Forall₂ (Slot.Settled p'.output) (Slot.along 0 path) (Slot.along 0 path')
  /-- The first is one of the input. -/
  within : ∀ c ∈ path'.head?, c.Within p'.output.width
  /-- The path leads through nested columns if and only if an aggregation along it, over the same
  input, is resolved. -/
  addresses_iff : ∀ f v, p'.output.Addresses path' ↔
    ((unary (.aggregate ⟨path, f, v⟩) p none).resolve checked).failure = none
  /-- A path that names one key throughout leads through nested columns. -/
  addresses_of_key : ∀ key, (∀ c ∈ path, c = .symbolic key) → p'.output.Addresses path'

/-- The paths of a resolved construction, one by one. -/
theorem exists_construct_of_resolve {t : Template}
    (h : (unary (.construct t) p d).resolve checked = .done r) :
    ∃ t' p' d', r = unary (.construct t') p' d' ∧ p.resolve checked = .done p' ∧
      List.Forall₂ (PathSettled checked p p') t.paths t'.paths := by
  obtain ⟨hc, p', folded, out, hp, -, hsettle, -, -, rfl⟩ := resolve_unary_eq_done_iff.mp h
  obtain ⟨hvalue, hslots⟩ := ((Unary.construct t).settles p'.output).complete hsettle
  have hfits := (Unary.fits_of_settle hsettle).1
  rw [hvalue] at hfits ⊢
  refine ⟨t.mapRefs p'.output.positions.target, p', some out, rfl, hp, ?_⟩
  rw [Template.paths_mapRefs, List.forall₂_map_right_iff, List.forall₂_same]
  intro path hpath
  -- the slots of a path are among those of the template
  have hfault : ∀ s ∈ Slot.along 0 path, p'.output.positions.fault Content.reader s = none :=
    fun s hs => hslots s (List.mem_flatMap.mpr ⟨path, hpath, hs⟩)
  refine ⟨Positions.resolved_of_mem_mapAlong hfault, ?_, fun c hhead => ?_, fun f v => ?_,
    fun key hkey => Schema.addresses_mapAlong_of_key hkey hfault⟩
  · rw [ColumnRef.along_mapAlong, List.forall₂_map_right_iff, List.forall₂_same]
    exact fun s hs => Slot.settled_of_fault_eq_none (hfault s hs)
  · -- only the first reference is compared with the width
    have hmem : ColumnRef.mapAlong p'.output.positions.target 0 path
        ∈ (t.mapRefs p'.output.positions.target).paths := by
      rw [Template.paths_mapRefs]
      exact List.mem_map_of_mem hpath
    refine hfits ⟨0, c⟩ (List.mem_flatMap.mpr ⟨_, hmem, ?_⟩) rfl
    obtain ⟨cs, hcs⟩ := List.head?_eq_some_iff.mp hhead
    rw [hcs, Slot.along_cons]
    exact List.mem_cons_self
  · -- an aggregation along the same path sees the same references, under another name
    rw [failure_resolve_aggregate_eq_none_iff hc hp]
    refine (and_iff_right fun s hs => ?_).symm
    exact Positions.fault_eq_none_of_fault_eq_none (hfault s hs)

end Plan

namespace Query

/-- The references of a resolved construction are positions, and the first of each path is one of
the input.  A path leads through nested columns exactly if an aggregation along it would be accepted
in the place of the construction, and it does if it names one key throughout. -/
theorem resolve_construct {checked : Bool} {q r : Query} {t : Template} {p : Plan}
    {d : Option Schema} (hroot : q.root = .unary (.construct t) p d)
    (h : q.resolve checked = .done r) :
    ∃ t' p' d', r.root = .unary (.construct t') p' d' ∧ p.resolve checked = .done p' ∧
      List.Forall₂ (Plan.PathSettled checked p p') t.paths t'.paths := by
  have hplan := (resolve_eq_done_iff.mp h).1
  rw [hroot] at hplan
  exact Plan.exists_construct_of_resolve hplan

/-- The documents of one collection, each with the documents of another that have the same
identifier nested beside it. -/
def matchedReviews : Plan :=
  let scan (id : ScanId) (path : String) : Plan := .scan ⟨id, none, true, ⟨path, []⟩⟩ none
  let same : Condition :=
    ⟨.symbolic (.docId ⟨0⟩), .column (.symbolic (.docId ⟨1⟩)), .equal⟩
  .binary (.nestedJoin ⟨⟨[[same]]⟩, .symbolic (.docId ⟨0⟩), [], none⟩) (scan ⟨0⟩ "books")
    (scan ⟨1⟩ "reviews") none

/-- A construction of the values along one path. -/
def constructing (path : List ColumnRef) : Query :=
  .symbolic (.unary (.construct (.node (.path path) [])) matchedReviews none)

/-- The theorem at a path that names the nested documents. -/
theorem resolve_construct_matchedReviews :
    ((constructing [.symbolic (.document ⟨1⟩), .symbolic (.document ⟨1⟩)]).resolve true).failure
        = none ∧
      ∃ t' p' d', ((constructing [.symbolic (.document ⟨1⟩), .symbolic (.document ⟨1⟩)]).resolve
          true).value.root = .unary (.construct t') p' d' ∧
        matchedReviews.resolve true = .done p' ∧
        List.Forall₂ (Plan.PathSettled true matchedReviews p')
          [[.symbolic (.document ⟨1⟩), .symbolic (.document ⟨1⟩)]] t'.paths := by
  have h : ((constructing [.symbolic (.document ⟨1⟩), .symbolic (.document ⟨1⟩)]).resolve
      true).failure = none := by decide
  exact ⟨h, resolve_construct rfl (Attempt.eq_done_of_complete h)⟩

/-- The identifier of a document is a scalar, but the path goes on below it with the index of the
nested documents: each reference is resolved at its own level, and only the first is checked. -/
theorem not_addresses_scalarPath :
    ((constructing [.symbolic (.docId ⟨0⟩), .symbolic (.document ⟨1⟩)]).resolve true).failure
        = none ∧
      ∃ t' p' d', ((constructing [.symbolic (.docId ⟨0⟩), .symbolic (.document ⟨1⟩)]).resolve
          true).value.root = .unary (.construct t') p' d' ∧
        t'.paths = [[.resolved 0, .resolved 1]] ∧
        ¬ p'.output.Addresses [.resolved 0, .resolved 1] := by
  refine ⟨by decide, .node (.path [.resolved 0, .resolved 1]) [], (matchedReviews.resolve true).value,
    some (matchedReviews.resolve true).value.output, by decide, rfl, fun h => ?_⟩
  have hcheck : (matchedReviews.resolve true).value.output.checkPath Content.reader 0
      [.resolved 0, .resolved 1] = .ok () := Schema.checkPath_eq_ok_iff.mpr h
  exact absurd hcheck (by decide)

end Query

end TwigAlgebra
