import TwigAlgebra.Proofs.Lookup
import TwigAlgebra.Proofs.Settling
import TwigAlgebra.Proofs.Surroundings
import TwigAlgebra.Proofs.WellFormed

/-!
# Undoing nesting

A grouping nests the last columns of its input, and a nested join nests the columns of its right
input.  In both cases the nested column is the last one, and flattening it gives the columns back
as they were: those of the input of the grouping, and those of an outer join of the same inputs.
Nothing above can tell the difference.

In general the nested column has other columns on both sides.  What was inside it moves up to its
place, and what was to the right of it makes room, or moves to the left if nothing was inside.

## Main definitions

* `ColumnRef.Means` — a reference means the column at a position.
* `Schema.unnested` — what becomes of a path when a nested column is flattened.
* `Plan.Unnests` — flattening a column of one plan gives what another plan gives.

## Main results

* `Schema.get?_positions_unnest` — where keys are after flattening.
* `Plan.Unnests.of_nested` — flattening undoes the nesting of the last columns.
* `Plan.resolve_unnest` — this for groupings, for nested joins, and for nested columns anywhere.
-/

namespace TwigAlgebra

/-! ### References to a column -/

/-- The first path to a key begins with the first position that carries it. -/
theorem Schema.Leftmost.exists_firstPath {s : Schema} {key : ColumnKey} {i : Nat}
    (h : s.Leftmost key i) : ∃ rest, s.FirstPath key (i :: rest) := by
  obtain ⟨⟨rest, hrest⟩, hleast⟩ := h
  obtain ⟨path, hpath⟩ := Schema.exists_firstPath (mem_keys_iff.mpr ⟨_, hrest⟩)
  obtain ⟨j, rest', rfl, -, -, hj⟩ := hpath.exists_index
  have hij : i ≤ j := hleast j rest' hpath.1
  have hji : j ≤ i := hj i rest hrest
  obtain rfl : i = j := Nat.le_antisymm hij hji
  exact ⟨rest', hpath⟩

namespace ColumnRef

/-- The reference means the column at position `i`: it is this position, or it names a key that this
column is the first to carry, itself or inside. -/
def Means (s : Schema) (i : Nat) : ColumnRef → Prop
  | symbolic key => s.Leftmost key i
  | resolved j => j = i

variable {s : Schema} {i : Nat} {c : ColumnRef}

theorem Means.reaches (hc : c.Means s i) (hi : i < s.width) : c.Reaches s := by
  cases c with
  | resolved j =>
    show j < s.width
    rwa [show j = i from hc]
  | symbolic key =>
    obtain ⟨⟨rest, hrest⟩, -⟩ := hc
    exact Schema.mem_keys_iff.mpr ⟨_, hrest⟩

theorem Means.target_eq (hc : c.Means s i) : s.positions.target 0 c = .resolved i := by
  cases c with
  | resolved j => exact congrArg resolved hc
  | symbolic key =>
    obtain ⟨rest, hfirst⟩ := Schema.Leftmost.exists_firstPath hc
    rw [Positions.target, Schema.get?_positions_eq_some_iff.mpr hfirst]
    rfl

/-- A flattening by any reference to a column is settled to the position of the column. -/
theorem Means.settle_flatten (hc : c.Means s i) (hi : i < s.width) :
    (Unary.flatten c).settle s = .done (.flatten (.resolved i)) := by
  have hcomplete : (s.positions.resolveOneInRange (Unary.flatten c).name s.width c).failure
      = none :=
    Positions.failure_resolveOneInRange_eq_none_iff.mpr (hc.reaches hi)
  have hvalue := ((s.positions.settles_resolveOneInRange _ s.width c).complete hcomplete).1
  rw [hc.target_eq] at hvalue
  apply Attempt.eq_done_iff.mpr
  exact ⟨congrArg Unary.flatten hvalue, hcomplete⟩

theorem Means.resolve_flatten (hc : c.Means s i) (hi : i < s.width) (folded : Nat) :
    (Unary.flatten c).resolve folded s
      = (.flatten (.resolved i), s.unnest (Unary.flatten c).name (.resolved i)) := by
  rw [Unary.resolve_eq, hc.settle_flatten hi]
  rfl

end ColumnRef

/-! ### Flattening a column -/

namespace Schema

/-- What becomes of a path when the nested column at position `i` is replaced by the `width` columns
inside it: a path into this column loses its first step, and a path to the right of it is moved. -/
def unnested (i width : Nat) : List Nat → List Nat
  | [] => []
  | j :: rest =>
    if j < i then j :: rest
    else if j = i then moved i rest
    else (j + width - 1) :: rest

theorem unnested_of_lt {i j : Nat} (width : Nat) (h : j < i) (rest : List Nat) :
    unnested i width (j :: rest) = j :: rest :=
  if_pos h

theorem unnested_self (i width : Nat) (rest : List Nat) :
    unnested i width (i :: rest) = moved i rest := by
  rw [unnested, if_neg (Nat.lt_irrefl i), if_pos rfl]

theorem unnested_moved (i width : Nat) (path : List Nat) :
    unnested i width (moved (i + 1) path) = moved (i + width) path := by
  cases path with
  | nil => rfl
  | cons j rest =>
    have hright : ¬ i + 1 + j < i := by omega
    have hother : i + 1 + j ≠ i := by omega
    rw [moved_cons, moved_cons, unnested, if_neg hright, if_neg hother]
    congr 1
    omega

/-- Flattening takes the columns out of a nested one. -/
theorem unnest_append (name : String) (before inside after : List Column)
    (o : Option ColumnKey) :
    unnest name (.resolved before.length) ⟨before ++ .nested o inside :: after⟩
      = .ok ⟨before ++ inside ++ after⟩ := by
  have hnested : nested? ⟨before ++ .nested o inside :: after⟩ before.length = some ⟨inside⟩ := by
    simp [nested?, column?, Column.inner?]
  have htake : (before ++ .nested o inside :: after).take before.length = before :=
    List.take_left' rfl
  have hdrop : (before ++ .nested o inside :: after).drop (before.length + 1) = after := by
    rw [List.append_cons]
    exact List.drop_left' (by simp)
  rw [unnest, hnested]
  show Except.ok _ = _
  rw [htake, hdrop]

/-- After flattening a nested column that carries nothing itself, keys are where they were, or where
the columns around them have gone. -/
theorem get?_positions_unnest (before inside after : List Column) (key : ColumnKey) :
    (mk (before ++ inside ++ after)).positions.get? key
      = ((mk (before ++ .nested none inside :: after)).positions.get? key).map
          (unnested before.length inside.length) := by
  -- both searches go through the columns before, those inside and those after
  have hflat : (mk (before ++ inside ++ after)).positions.get? key
      = (Column.pathAmong key 0 before).or
          (((Column.pathAmong key 0 inside).map (moved before.length)).or
            ((Column.pathAmong key 0 after).map (moved (before.length + inside.length)))) := by
    rw [get?_positions, Column.pathAmong_append, Column.pathAmong_append, Option.or_assoc,
      List.length_append, Nat.zero_add, Nat.zero_add, Column.pathAmong_eq_map key before.length,
      Column.pathAmong_eq_map key (before.length + inside.length)]
  have hnested : (mk (before ++ .nested none inside :: after)).positions.get? key
      = (Column.pathAmong key 0 before).or
          (((Column.pathAmong key 0 inside).map (before.length :: ·)).or
            ((Column.pathAmong key 0 after).map (moved (before.length + 1)))) := by
    have hinside : (Column.nested none inside).pathTo key = Column.pathAmong key 0 inside := by
      rw [Column.pathTo, if_neg nofun]
    rw [get?_positions, Column.pathAmong_append, Nat.zero_add, Column.pathAmong, hinside,
      Column.pathAmong_eq_map key (before.length + 1)]
  -- of the columns before, every path begins with a smaller position
  have hbefore : (Column.pathAmong key 0 before).map (unnested before.length inside.length)
      = Column.pathAmong key 0 before := by
    cases hpath : Column.pathAmong key 0 before with
    | none => rfl
    | some path =>
      obtain ⟨j, rest, rfl, hj⟩ := Column.exists_of_pathAmong_eq_some hpath
      rw [Option.map_some, unnested_of_lt]
      omega
  have hinside : unnested before.length inside.length ∘ (before.length :: ·)
      = moved before.length :=
    funext fun rest => unnested_self before.length inside.length rest
  have hafter : unnested before.length inside.length ∘ moved (before.length + 1)
      = moved (before.length + inside.length) :=
    funext fun path => unnested_moved before.length inside.length path
  rw [hflat, hnested, Option.map_or, Option.map_or, hbefore, Option.map_map, Option.map_map,
    hinside, hafter]

/-- The columns around the one at a position. -/
theorem exists_columns_eq {s : Schema} {i : Nat} {column : Column} (h : s.column? i = some column) :
    ∃ before after, s.columns = before ++ column :: after ∧ before.length = i := by
  obtain ⟨hi, rfl⟩ := List.getElem?_eq_some_iff.mp h
  refine ⟨s.columns.take i, s.columns.drop (i + 1), ?_, ?_⟩
  · rw [List.getElem_cons_drop, List.take_append_drop]
  · rw [List.length_take]
    exact Nat.min_eq_left (Nat.le_of_lt hi)

end Schema

/-! ### Flattening what was nested -/

namespace Plan

/-- Flattening the column `c` of `q`, of which `q'` is the resolution, gives the schema of `p'`, the
resolution of `p`.  No operator above can tell the flattened plan from `p`. -/
structure Unnests (checked : Bool) (p p' q q' : Plan) (c : ColumnRef) : Prop where
  /-- The plan without nesting is resolved. -/
  flat : p.resolve checked = .done p'
  /-- The plan with the nested column is resolved. -/
  nested : q.resolve checked = .done q'
  /-- The flattening is resolved, and its schema is that of the plan without nesting. -/
  unnested : (unary (.flatten c) q none).resolve checked
    = .done (unary (.flatten (.resolved (q'.output.width - 1))) q' p'.schema)
  /-- Operators above are resolved to the same positions and get the same schemas, or fail for the
  same reason. -/
  above : ∀ a : Surroundings, ResolvedAlike checked p p' (unary (.flatten c) q none)
    (unary (.flatten (.resolved (q'.output.width - 1))) q' p'.schema) a

variable {checked : Bool} {p p' q q' : Plan} {c : ColumnRef}

/-- Flattening the last column gives the columns before it and those inside. -/
theorem resolve_flatten {before inside : List Column} (hq : q.resolve checked = .done q')
    (hcq : q.isConstruct = false) (hnested : q'.output.columns = before ++ [.nested none inside])
    (hc : c.Means q'.output (q'.output.width - 1)) :
    (unary (.flatten c) q none).resolve checked
      = .done (unary (.flatten (.resolved (q'.output.width - 1))) q' (some ⟨before ++ inside⟩)) := by
  have hlength : q'.output.width = before.length + 1 := by
    rw [Schema.width, hnested, List.length_append, List.length_singleton]
  have hlast : q'.output.width - 1 = before.length := by omega
  have hunnest : q'.output.unnest (Unary.flatten c).name (.resolved (q'.output.width - 1))
      = .ok ⟨before ++ inside⟩ := by
    rw [hlast, show q'.output = ⟨before ++ [.nested none inside]⟩ from congrArg Schema.mk hnested,
      Schema.unnest_append, List.append_nil]
  rw [resolve_unary_of_done hcq hq rfl, hc.resolve_flatten (by omega), hunnest]
  rfl

/-- Flattening the last column undoes its nesting. -/
theorem Unnests.of_nested {before inside : List Column} (hp : p.resolve checked = .done p')
    (hq : q.resolve checked = .done q') (hcp : p.isConstruct = false)
    (hcq : q.isConstruct = false) (hflat : p'.output.columns = before ++ inside)
    (hnested : q'.output.columns = before ++ [.nested none inside])
    (hholders : q'.postorder.filter isHolder = p'.postorder.filter isHolder)
    (hc : c.Means q'.output (q'.output.width - 1)) : Unnests checked p p' q q' c := by
  have hschema : p'.schema = some ⟨before ++ inside⟩ := by
    rw [schema_of_resolve hp, ← hflat]
  have hresolve := resolve_flatten hq hcq hnested hc
  rw [← hschema] at hresolve
  have hinterchange : Interchangeable checked p p' (unary (.flatten c) q none)
      (unary (.flatten (.resolved (q'.output.width - 1))) q' p'.schema) := by
    refine ⟨hp, hresolve, hcp.symm, rfl, ?_⟩
    -- a flattening introduces no variable
    rw [postorder_unary, List.filter_append, hholders]
    exact List.append_nil _
  exact ⟨hp, hq, hresolve, hinterchange.resolve_around⟩

/-- Flattening undoes groupings. -/
theorem unnests_group {g : Grouping} {d : Option Schema} {n : Plan}
    (h : (unary (.group g) p d).resolve checked = .done n)
    (hc : c.Means n.output (n.output.width - 1)) :
    ∃ p', Unnests checked p p' (unary (.group g) p d) n c := by
  obtain ⟨hcp, p', folded, out, hp, -, hsettle, hrule, -, rfl⟩ := resolve_unary_eq_done_iff.mp h
  obtain ⟨hvalue, -⟩ := ((Unary.group g).settles p'.output).complete hsettle
  rw [hvalue] at h hrule hc ⊢
  obtain ⟨kept, last, -, hin, hout⟩ := fold_eq_ok hrule
  refine ⟨p', .of_nested hp h hcp rfl hin hout ?_ hc⟩
  -- a grouping introduces no variable
  rw [postorder_unary, List.filter_append]
  exact List.append_nil _

/-- Flattening makes nested joins outer joins. -/
theorem unnests_nestedJoin {j : NestedJoin} {x : Predicate} {l r m n : Plan}
    {d d' : Option Schema} (hm : (binary (.outerJoin x) l r d).resolve checked = .done m)
    (hn : (binary (.nestedJoin j) l r d').resolve checked = .done n)
    (hc : c.Means n.output (n.output.width - 1)) :
    Unnests checked (binary (.outerJoin x) l r d) m (binary (.nestedJoin j) l r d') n c ∧
      ∃ l' r', l.resolve checked = .done l' ∧ r.resolve checked = .done r' ∧
        m.output.columns = l'.output.columns ++ r'.output.columns := by
  obtain ⟨-, -, l', r', hl, hr, hsettle, -, rfl⟩ := resolve_binary_eq_done_iff.mp hm
  -- both joins have the same inputs, so that these are resolved in the same way
  obtain ⟨-, -, l'', r'', hl', hr', hsettle', -, rfl⟩ := resolve_binary_eq_done_iff.mp hn
  cases hl.symm.trans hl'
  cases hr.symm.trans hr'
  obtain ⟨hvalue, -⟩ := ((Binary.outerJoin x).settles l'.output r'.output).complete hsettle
  obtain ⟨hvalue', -⟩ := ((Binary.nestedJoin j).settles l'.output r'.output).complete hsettle'
  rw [hvalue] at hm ⊢
  rw [hvalue'] at hn hc ⊢
  have hcolumns : (Schema.concat [l'.output, r'.output]).columns
      = l'.output.columns ++ r'.output.columns := by
    rw [Schema.columns_concat, List.flatMap_cons, List.flatMap_singleton]
  refine ⟨.of_nested hm hn rfl rfl hcolumns rfl ?_ hc, l', r', hl, hr, hcolumns⟩
  -- the scans and aggregations of both joins are those of the inputs
  simp only [postorder_binary, List.filter_append]
  rfl

/-- Flattening the last column of a grouping gives what the input of the grouping gives, and
flattening the last column of a nested join gives what an outer join of the same inputs gives, the
columns of the left input before those of the right; operators above are resolved alike in both
cases.  Flattening any nested column that carries nothing itself takes the paths into the column out
of it, and moves those to the right of it. -/
theorem resolve_unnest (checked : Bool) :
    (∀ g p d n c, (unary (.group g) p d).resolve checked = .done n →
      ColumnRef.Means n.output (n.output.width - 1) c →
      ∃ p', Unnests checked p p' (unary (.group g) p d) n c) ∧
    (∀ j x l r d d' m n c, (binary (.outerJoin x) l r d).resolve checked = .done m →
      (binary (.nestedJoin j) l r d').resolve checked = .done n →
      ColumnRef.Means n.output (n.output.width - 1) c →
      Unnests checked (binary (.outerJoin x) l r d) m (binary (.nestedJoin j) l r d') n c ∧
        ∃ l' r', l.resolve checked = .done l' ∧ r.resolve checked = .done r' ∧
          m.output.columns = l'.output.columns ++ r'.output.columns) ∧
    ∀ (s : Schema) i inside c folded, s.column? i = some (.nested none inside) → c.Means s i →
      ∃ out, (Unary.flatten c).resolve folded s = (.flatten (.resolved i), .ok out) ∧
        ∀ key, out.positions.get? key
          = (s.positions.get? key).map (Schema.unnested i inside.length) := by
  refine ⟨fun g p d n c => unnests_group, fun j x l r d d' m n c => unnests_nestedJoin, ?_⟩
  intro s i inside c folded hcolumn hc
  have hi : i < s.width := (List.getElem?_eq_some_iff.mp hcolumn).1
  obtain ⟨columns⟩ := s
  obtain ⟨before, after, rfl, rfl⟩ := Schema.exists_columns_eq hcolumn
  refine ⟨⟨before ++ inside ++ after⟩, ?_, Schema.get?_positions_unnest before inside after⟩
  rw [hc.resolve_flatten hi, Schema.unnest_append]

/-- Books with their identifiers, and reviews. -/
def booksAndReviews (op : Binary) : Plan :=
  .binary op (.scan ⟨⟨0⟩, none, true, ⟨"books", []⟩⟩ none)
    (.scan ⟨⟨1⟩, none, false, ⟨"reviews", []⟩⟩ none) none

/-- The reviews of each book. -/
def reviewsByBook : Plan :=
  .unary (.group ⟨[.symbolic (.docId ⟨0⟩)], [.symbolic (.document ⟨0⟩)],
    [.symbolic (.document ⟨1⟩)], none⟩) (booksAndReviews .product) none

/-- The reviews of each book, none of which need be about it. -/
def reviewsBesideBook : Plan :=
  booksAndReviews (.nestedJoin ⟨⟨[[]]⟩, .symbolic (.docId ⟨0⟩), [], none⟩)

/-- The theorem at reviews that are nested by a grouping and by a join, and at reviews that are
nested between the identifiers and the texts of the books. -/
theorem resolve_unnest_reviews :
    let outer := booksAndReviews (.outerJoin ⟨[[]]⟩)
    let reviews : List Column := [.carrying (.var ⟨0⟩) .id, .carrying (.document ⟨1⟩) .xml]
    let between : Schema :=
      ⟨[.carrying (.docId ⟨0⟩) .id, .nesting reviews, .carrying (.document ⟨0⟩) .xml]⟩
    (∃ p', Unnests true (booksAndReviews .product) p' reviewsByBook
      (reviewsByBook.resolve true).value (.symbolic (.document ⟨1⟩))) ∧
    Unnests true outer (outer.resolve true).value reviewsBesideBook
      (reviewsBesideBook.resolve true).value (.resolved 2) ∧
    ∃ out, (Unary.flatten (.resolved 1)).resolve 0 between = (.flatten (.resolved 1), .ok out) ∧
      ∀ key, out.positions.get? key = (between.positions.get? key).map (Schema.unnested 1 2) := by
  intro outer reviews between
  have hgroup : (reviewsByBook.resolve true).failure = none := by decide
  have houter : (outer.resolve true).failure = none := by decide
  have hjoin : (reviewsBesideBook.resolve true).failure = none := by decide
  have hreviews : (reviewsByBook.resolve true).value.output.positions.get? (.document ⟨1⟩)
      = some [2, 0] := by
    decide
  have hgrouped : (reviewsByBook.resolve true).value.output.Leftmost (.document ⟨1⟩) 2 :=
    (Schema.get?_positions_eq_some_iff.mp hreviews).leftmost
  have hjoined : 2 = (reviewsBesideBook.resolve true).value.output.width - 1 := by decide
  obtain ⟨hgrouping, hjoins, hcolumns⟩ := resolve_unnest true
  refine ⟨?_, ?_, ?_⟩
  · exact hgrouping _ _ _ _ _ (Attempt.eq_done_of_complete hgroup) hgrouped
  · have houter' := Attempt.eq_done_of_complete houter
    have hjoin' := Attempt.eq_done_of_complete hjoin
    exact (hjoins _ _ _ _ _ _ _ _ (.resolved 2) houter' hjoin' hjoined).1
  · exact hcolumns between 1 reviews (.resolved 1) 0 rfl rfl

end Plan

end TwigAlgebra
