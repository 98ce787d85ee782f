import TwigAlgebra.Proofs.Settling
import TwigAlgebra.Proofs.Stability
import TwigAlgebra.Proofs.TrailingScans

/-!
# Groupings that fold too much

A grouping folds as many columns as the scans at the end of its input emit, wherever these scans
are and whatever has happened to their columns since.  A projection may have dropped them, a
nested join or another grouping may have put them into one column: then there may be fewer columns
than are to be folded, and the grouping is refused with the two numbers.  Without declared schemas
there is no other mismatch of widths.

Nothing but this can make an input too narrow.  If no column has been dropped, the input has the
scalars that the scans emit, so that one of its columns must hold two of them.

## Main definitions

* `Plan.isGrouping`, `Plan.narrows` — groupings, and operators whose output may have fewer columns
  than their inputs have.
* `Plan.Overfolds` — a grouping is to fold more columns than its input has.

## Main results

* `Plan.overfolds_of_refused` — without declared schemas, mismatches of widths are those of
  groupings.
* `Plan.two_le_leafCount_of_folds` — a folded input without projections has a column of two
  scalars.
* `Query.resolve_overfolds` — where resolution stops with a mismatch of widths, and when it does
  not.
-/

namespace TwigAlgebra

/-- Columns of one scalar at most are at least as many as their scalars. -/
theorem Column.leafCountAll_le_length {cs : List Column} (h : ∀ c ∈ cs, c.leafCount ≤ 1) :
    leafCountAll cs ≤ cs.length := by
  induction cs with
  | nil => exact Nat.le_refl 0
  | cons c cs ih =>
    rw [List.forall_mem_cons] at h
    have hrest := ih h.2
    rw [leafCountAll_cons, List.length_cons]
    omega

namespace Plan

variable {checked : Bool} {p p' n m : Plan} {g : Grouping} {e : PlanError} {k : Nat}

/-- The operator groups tuples. -/
def isGrouping : Plan → Bool
  | unary (.group _) _ _ => true
  | _ => false

/-- The output of the operator may have fewer columns than its inputs have, though it flattens
nothing: it keeps listed columns, groups, or nests the matches of a join. -/
def narrows : Plan → Bool
  | unary (.project _) _ _ => true
  | unary (.group _) _ _ => true
  | binary (.nestedJoin _) _ _ _ => true
  | _ => false

/-- The grouping `g` over `p`, which is resolved to `p'`, is to fold more columns than there are.
This is so because a column was dropped below, or because a column of the input holds several
scalars. -/
structure Overfolds (checked : Bool) (g : Grouping) (p p' : Plan) (e : PlanError) : Prop where
  /-- The input is resolved. -/
  input : p.resolve checked = .done p'
  /-- The scans at its end have more columns together, and the error tells both numbers. -/
  mismatch : ∃ k, p.Folds k ∧ p'.output.width < k ∧
    e = .widthMismatch (Unary.group g).name k p'.output.width
  /-- There is a projection below, or a column with two scalars at least. -/
  cause : (∃ n ∈ p.postorder, n.isProjection = true) ∨ ∃ c ∈ p'.output.columns, 2 ≤ c.leafCount

/-! ### Why an input is too narrow -/

/-- Without projections below, the scalars of an input are at least as many as the columns to be
folded. -/
theorem le_leafCount_of_folds (hp : p.resolve checked = .done p') (hk : p.Folds k)
    (hfree : ∀ n ∈ p.postorder, n.isProjection = false) : k ≤ p'.output.leafCount := by
  obtain ⟨css, hcss, hleaves⟩ :=
    conserves_of_resolve hp (projectionFree_of_resolve hp hfree) p' (mem_postorder_self p')
  obtain ⟨kept, folded, htrails⟩ := exists_trails (filter_isHolder_ne_nil p')
  rw [htrails.split] at hcss
  obtain ⟨cssKept, cssFolded, -, hfolded, rfl⟩ := hcss.exists_append
  -- what is folded is the same number before and after resolution
  have hsame : k = cssFolded.flatten.length := by
    have hbefore := trailingWidth_eq_some_iff.mpr hk
    have hafter := trailingWidth_eq_some_iff.mpr (htrails.folds hfolded)
    rw [trailingWidth_of_resolve hp, hbefore] at hafter
    exact Option.some.inj hafter
  rw [Schema.leafCount, ← Column.length_leavesAll, hleaves, List.flatten_append, List.length_append]
  -- the kept holders may introduce leaves, too
  omega

/-- If an input without projections is too narrow, then one of its columns holds two scalars. -/
theorem two_le_leafCount_of_folds (hp : p.resolve checked = .done p') (hk : p.Folds k)
    (hfree : ∀ n ∈ p.postorder, n.isProjection = false) (hw : p'.output.width < k) :
    ∃ c ∈ p'.output.columns, 2 ≤ c.leafCount := by
  by_contra hnone
  push Not at hnone
  have hle := Column.leafCountAll_le_length fun c hc => Nat.le_of_lt_succ (hnone c hc)
  have hfolded := le_leafCount_of_folds hp hk hfree
  rw [Schema.leafCount] at hfolded
  rw [Schema.width] at hw
  omega

/-! ### Mismatches of widths -/

/-- A rule finds a mismatch of widths only when it is to fold more columns than there are. -/
theorem exists_group_of_rule {op : Unary} {f : Nat → ColumnRef → ColumnRef} {name : String}
    {input : Schema} (h : (op.mapRefs f).rule name k input = .error e)
    (hkind : e.kind = "WidthMismatch") :
    ∃ g, op = .group g ∧ input.width < k ∧ e = .widthMismatch name k input.width := by
  cases op with
  | group g =>
    rw [Unary.mapRefs, Unary.rule, Schema.fold] at h
    split at h
    · cases h
    · next hk =>
      cases h
      exact ⟨g, rfl, Nat.lt_of_not_le hk, rfl⟩
  | flatten c =>
    rw [Unary.mapRefs, Unary.rule, Schema.unnest.eq_def] at h
    split at h
    · -- a flattened column that does not exist, or that is no nested one
      cases h
      exact absurd hkind (by decide : "UnboundVariable" ≠ "WidthMismatch")
    · split at h
      · cases h
        exact absurd hkind (by decide : "UnsupportedOperator" ≠ "WidthMismatch")
      · cases h
  | _ => cases h

/-- References have no widths. -/
theorem kind_of_ofReference (h : e.OfReference) : e.kind ≠ "WidthMismatch" := by
  cases h with
  | unbound | tooShallow => exact (by decide : "UnboundVariable" ≠ "WidthMismatch")
  | outOfRange => exact (by decide : "ColumnOutOfRange" ≠ "WidthMismatch")
  | scalarStep => exact (by decide : "UnsupportedOperator" ≠ "WidthMismatch")

/-- An operator that declares no schema and is refused because of its width is a grouping that is
to fold more columns than its input has. -/
theorem overfolds_of_refused (h : Refused checked n e) (hn : n.schema = none)
    (hkind : e.kind = "WidthMismatch") :
    ∃ g p p', n = unary (.group g) p none ∧ Overfolds checked g p p' e := by
  cases h with
  | lost | unfolded => exact absurd hkind (by decide)
  | unarySettle hp hsettle =>
    exact absurd hkind (kind_of_ofReference (Unary.stopsByReference_settle _ _ _ hsettle))
  | binarySettle hl hr hsettle =>
    exact absurd hkind (kind_of_ofReference (Binary.stopsByReference_settle _ _ _ _ hsettle))
  | declared hchecked hdeclared hw =>
    rw [hn] at hdeclared
    cases hdeclared
  | @rule op p p' d k e hp hf hsettle hrule =>
    cases show d = none from hn
    rw [((op.settles p'.output).complete hsettle).1] at hrule
    obtain ⟨g, rfl, hw, rfl⟩ := exists_group_of_rule hrule hkind
    have hk : p.Folds k := by
      rw [← trailingWidth_eq_some_iff, ← trailingWidth_of_resolve hp]
      exact hf
    refine ⟨g, p, p', rfl, hp, ⟨k, hk, hw, rfl⟩, ?_⟩
    by_cases hproject : ∃ n ∈ p.postorder, n.isProjection = true
    · exact Or.inl hproject
    · push Not at hproject
      have hfree : ∀ n ∈ p.postorder, n.isProjection = false := fun n hn =>
        Bool.eq_false_iff.mpr (hproject n hn)
      exact Or.inr (two_le_leafCount_of_folds hp hk hfree hw)

/-! ### Operators that do not narrow -/

theorem Recast.narrows_eq {f : Nat → ColumnRef → ColumnRef} (h : Recast f n m) :
    m.narrows = n.narrows := by
  cases h with
  | scan s d d' => rfl
  | unary op p p' d d' => cases op <;> rfl
  | binary op l r l' r' d d' => cases op <;> rfl

/-- Operators that do not narrow make scalars of scalars. -/
theorem Yields.inner?_eq_none {out : List Column} (h : n.Yields out) (hn : n.narrows = false)
    (hin : ∀ q ∈ n.inputs, ∀ c ∈ q.output.columns, c.inner? = none) :
    ∀ c ∈ out, c.inner? = none := by
  cases n with
  | scan s d =>
    intro c hc
    obtain ⟨key, t, rfl⟩ := Introduces.exists_carrying (n := scan s d) h c hc
    rfl
  | unary op p d =>
    have hp := hin p (List.mem_singleton_self p)
    cases op with
    | project | group => cases hn
    | select | distinct | construct => cases h; exact hp
    | aggregate a =>
      cases h
      exact List.forall_mem_append.mpr ⟨hp, List.forall_mem_singleton.mpr rfl⟩
    | flatten c =>
      -- there is nothing to be flattened
      obtain ⟨before, origin, inside, after, -, hcols, -⟩ := h
      rw [hcols] at hp
      cases hp (.nested origin inside) (List.mem_append_right _ List.mem_cons_self)
  | binary op l r d =>
    have hl := hin l List.mem_cons_self
    have hr := hin r (List.mem_cons_of_mem _ (List.mem_singleton_self r))
    cases op with
    | nestedJoin j => cases hn
    | product | join | outerJoin =>
      cases h
      exact List.forall_mem_append.mpr ⟨hl, hr⟩

/-- Without operators that narrow, a resolved plan has scalars only. -/
theorem inner?_eq_none_of_resolve (hp : p.resolve checked = .done p')
    (hwide : ∀ n ∈ p.postorder, n.narrows = false) : ∀ c ∈ p'.output.columns, c.inner? = none := by
  have hfit : ∀ m ∈ p'.postorder, m.Yields m.output.columns ∧ m.narrows = false := by
    intro m hm
    obtain ⟨n, hn, hnm⟩ := exists_resolve_of_mem hp hm
    exact ⟨yields_of_resolve hp m hm, (recast_of_resolve hnm).1.narrows_eq.trans (hwide n hn)⟩
  have hstep : ∀ n : Plan, n.Yields n.output.columns ∧ n.narrows = false →
      (∀ q ∈ n.inputs, ∀ c ∈ q.output.columns, c.inner? = none) →
        ∀ c ∈ n.output.columns, c.inner? = none := by
    rintro n ⟨hyields, hn⟩ hin
    exact hyields.inner?_eq_none hn hin
  exact forall_mem_postorder hstep hfit p' (mem_postorder_self p')

/-- An input is narrowed below if it is to be folded more than it can be. -/
theorem Overfolds.exists_narrows (h : Overfolds checked g p p' e) :
    ∃ n ∈ p.postorder, n.narrows = true := by
  by_contra hnone
  push Not at hnone
  have hwide : ∀ n ∈ p.postorder, n.narrows = false := fun n hn =>
    Bool.eq_false_iff.mpr (hnone n hn)
  -- the cause is an operator that narrows: a projection, or a column with more than one leaf
  rcases h.cause with ⟨n, hn, hproject⟩ | ⟨c, hc, hleaves⟩
  · have hnarrow := hwide n hn
    cases n with
    | unary op q d =>
      cases op with
      | project cs => cases hnarrow
      | _ => cases hproject
    | _ => cases hproject
  · have hinner := inner?_eq_none_of_resolve h.input hwide c hc
    cases c with
    | scalar o t => exact absurd hleaves (by decide : ¬ 2 ≤ 1)
    | nested o cs => cases hinner

end Plan

/-! ### The whole plan -/

namespace Query

open Plan

/-- Let no operator declare a schema.  If resolution stops with a mismatch of widths, then at the
first operator that cannot be resolved, a grouping, and the scans at the end of its input have
more columns together than this input: the error tells both numbers.  Then a projection is below
it, or a column of its input has two scalars inside.  It does not stop so if there are neither
projections nor nested joins nor groupings below groupings. -/
theorem resolve_overfolds {checked : Bool} {q s : Query} {e : PlanError}
    (hfree : ∀ n ∈ q.root.postorder, n.schema = none) (h : q.resolve checked = .stopped s e)
    (hkind : e.kind = "WidthMismatch") :
    (∃ g p p', FirstStop checked q.root e (.unary (.group g) p none) ∧ Overfolds checked g p p' e) ∧
      ∃ n ∈ q.root.postorder, n.isGrouping = true ∧ ∃ m ∈ n.beneath, m.narrows = true := by
  obtain ⟨hfailure, -, -⟩ := resolve_eq_stopped_iff.mp h
  have he : e ≠ constructionBelow := by
    rintro rfl
    exact absurd hkind (by decide)
  obtain ⟨n, hn⟩ := exists_firstStop hfailure he
  obtain ⟨before, after, hsplit, -⟩ := hn.first
  have hmem : n ∈ q.root.postorder := hsplit ▸ List.mem_append_right _ List.mem_cons_self
  obtain ⟨g, p, p', rfl, hover⟩ := overfolds_of_refused hn.refused (hfree n hmem) hkind
  refine ⟨⟨g, p, p', hn, hover⟩, _, hmem, rfl, ?_⟩
  rw [beneath_unary]
  exact hover.exists_narrows

/-- All documents of three collections beside each other, of which only those of the first are
kept and then grouped. -/
def firstDocuments : Query :=
  let documents (i : UInt32) : Plan := .scan ⟨⟨i⟩, none, false, ⟨"shelf", []⟩⟩ none
  let both : Plan := .binary .product (documents 0) (documents 1) none
  let all : Plan := .binary .product both (documents 2) none
  let first : Plan := .unary (.project [.symbolic (.document ⟨0⟩)]) all none
  .symbolic (.unary (.group ⟨[.symbolic (.document ⟨0⟩)], [], [], none⟩) first none)

/-- The plan is accepted and declares no schema, and yet its widths do not match: two columns are
to be folded, and the projection has left one. -/
theorem not_matching_firstDocuments :
    firstDocuments.root.validate = .ok () ∧ (∀ n ∈ firstDocuments.root.postorder, n.schema = none) ∧
      ∃ s, firstDocuments.resolve true = .stopped s (.widthMismatch "GroupBy" 2 1) :=
  ⟨by decide, by decide, _, by rfl⟩

/-- The documents of four collections, grouped twice. -/
def regroupedDocuments : Query :=
  let documents (i : UInt32) : Plan := .scan ⟨⟨i⟩, none, false, ⟨"shelf", []⟩⟩ none
  let all : Plan := .binary .product (.binary .product (documents 0) (documents 1) none)
    (.binary .product (documents 2) (documents 3) none) none
  let group (p : Plan) : Plan := .unary (.group ⟨[.symbolic (.document ⟨0⟩)], [], [], none⟩) p none
  .symbolic (group (group all))

/-- The theorem at a plan whose second grouping is to fold three columns, which the first one has
put into one. -/
theorem resolve_overfolds_regroupedDocuments :
    (∀ n ∈ regroupedDocuments.root.postorder, n.schema = none) ∧
      ∃ s, regroupedDocuments.resolve true = .stopped s (.widthMismatch "GroupBy" 3 2) ∧
        (∃ g p p', FirstStop true regroupedDocuments.root (.widthMismatch "GroupBy" 3 2)
            (.unary (.group g) p none) ∧ Overfolds true g p p' (.widthMismatch "GroupBy" 3 2)) ∧
          ∃ n ∈ regroupedDocuments.root.postorder, n.isGrouping = true ∧
            ∃ m ∈ n.beneath, m.narrows = true := by
  have hfree : ∀ n ∈ regroupedDocuments.root.postorder, n.schema = none := by decide
  have hfailure : (regroupedDocuments.resolve true).failure =
      some (.widthMismatch "GroupBy" 3 2) := by decide
  have hstopped := Attempt.eq_stopped_iff.mpr ⟨rfl, hfailure⟩
  exact ⟨hfree, _, hstopped, resolve_overfolds hfree hstopped rfl⟩

end Query

end TwigAlgebra
