import Mathlib.Data.List.Forall2
import TwigAlgebra.Proofs.PlanResolution
import TwigAlgebra.Proofs.Traversal

/-!
# Resolved plans are well-formed

After a successful resolution no operator refers to a key, every reference outside of paths and the
first one of every path is a position of the operator's input, the path of an aggregation leads
through nested columns, and every operator carries the schema that its kind gives to the columns of
its inputs.  Constructions occur at the top only.

The columns that a kind of operator yields are described here without the functions that compute
them: a grouping splits its input in two parts, a projection has one column for each listed one, and
so on.

## Main definitions

* `Plan.Yields` — the columns of an operator's output, by its kind.
* `Plan.WellFormed` — what holds of every operator of a resolved plan.

## Main results

* `Plan.wellFormed_of_resolve` — every operator of a resolved plan is well-formed.
* `Query.resolve_wellFormed` — the same for a plan with its stage.
-/

namespace TwigAlgebra

/-! ### The columns of an output -/

/-- The columns that a scan emits: the document identifier if it is attached, then one column for
each variable of the pattern, in pre-order, or one for the whole document. -/
def Scan.Emits (s : Scan) (columns : List Column) : Prop :=
  ∃ body, columns = (if s.attachDocId then [.carrying (.docId s.id) .id] else []) ++ body ∧
    match s.pattern with
    | none => body = [.carrying (.document s.id) .xml]
    | some p => ∃ vs, p.Binds vs ∧
        body = vs.map fun v => .carrying (.var v.id) v.kind.scalarType

namespace Plan

/-- The operator is a scan that attaches no document identifier. -/
def isPlainScan : Plan → Bool
  | scan s _ => !s.attachDocId
  | _ => false

/-- The longest run of scans without document identifier at the end of the operators of a plan that
introduce variables, the first of which does not count; the last scan comes first. -/
def trailingScans (p : Plan) : List Plan :=
  ((p.postorder.filter isHolder).drop 1).reverse.takeWhile isPlainScan

/-- The scans at the end of a plan emit `k` columns together. -/
def Folds (p : Plan) (k : Nat) : Prop :=
  ∃ widths, List.Forall₂ (fun q w => ∃ s d, q = scan s d ∧ s.width = some w) p.trailingScans widths
    ∧ k = widths.sum

/-- The columns of the output of the top operator, by its kind, from its parameters and the columns
of its inputs. -/
def Yields (n : Plan) (out : List Column) : Prop :=
  match n with
  | scan s _ => s.Emits out
  | unary (.select _) p _ => out = p.output.columns
  | unary (.project cs) p _ =>
    List.Forall₂ (fun c column => ∃ i, c = .resolved i ∧ p.output.column? i = some column) cs out
  | unary (.distinct _) p _ => out = p.output.columns
  | unary (.group _) p _ => ∃ kept folded, p.Folds folded.length ∧
      p.output.columns = kept ++ folded ∧ out = kept ++ [.nested none folded]
  | unary (.aggregate a) p _ =>
    out = p.output.columns ++ [.carrying (.var a.result) a.function.resultType]
  | unary (.flatten c) p _ => ∃ before origin inside after, c = .resolved before.length ∧
      p.output.columns = before ++ .nested origin inside :: after ∧ out = before ++ inside ++ after
  | unary (.construct _) p _ => out = p.output.columns
  | binary .product l r _ => out = l.output.columns ++ r.output.columns
  | binary (.join _) l r _ => out = l.output.columns ++ r.output.columns
  | binary (.outerJoin _) l r _ => out = l.output.columns ++ r.output.columns
  | binary (.nestedJoin _) l r _ => out = l.output.columns ++ [.nested none r.output.columns]

/-- What holds of the top operator of a plan after resolution. -/
structure WellFormed (n : Plan) : Prop where
  /-- No parameter refers to a key. -/
  keys : n.keys = []
  /-- References outside of paths, and the first ones of paths, are positions of the input. -/
  inRange : ∀ s ∈ n.slots, s.depth = 0 → s.ref.Within n.input.width
  /-- The identifiers that both sides of a nested join share are positions of the left input. -/
  shared : ∀ j l r d, n = binary (.nestedJoin j) l r d →
    ∀ c ∈ j.docIdColumn :: j.nodeIdColumns, c.Within l.output.width
  /-- Every reference of an aggregation's path is a position of the level that those before it lead
  to, through nested columns. -/
  path : ∀ a p d, n = unary (.aggregate a) p d → p.output.Addresses a.path
  /-- The schema is the one that the operator's kind gives. -/
  schema : ∃ out, n.schema = some out ∧ n.Yields out.columns

/-! ### Rules give what their kinds yield -/

theorem emits_of_schema {s : Scan} {out : Schema} (h : s.schema = some out) :
    s.Emits out.columns := by
  obtain ⟨body, hbody, rfl⟩ := Option.map_eq_some_iff.mp h
  refine ⟨body, rfl, ?_⟩
  rw [Scan.bodyColumns] at hbody
  cases hp : s.pattern with
  | none =>
    rw [hp] at hbody
    exact (Option.some.inj hbody).symm
  | some p =>
    rw [hp] at hbody
    obtain ⟨vs, hvs, rfl⟩ := Option.map_eq_some_iff.mp hbody
    exact ⟨vs, Pattern.boundVars_eq_some_iff.mp hvs, rfl⟩

theorem scanRunWidth_eq_some {l : List Plan} {k : Nat} (h : scanRunWidth l = some k) :
    ∃ widths, List.Forall₂ (fun q w => ∃ s d, q = scan s d ∧ s.width = some w)
      (l.takeWhile isPlainScan) widths ∧ k = widths.sum := by
  induction l generalizing k with
  | nil =>
    cases h
    exact ⟨[], .nil, rfl⟩
  | cons q rest ih =>
    cases q with
    | scan s d =>
      cases hs : s.attachDocId with
      | true =>
        -- the identifier ends the run
        simp only [scanRunWidth, hs, if_true, pure, Option.some.injEq] at h
        exact ⟨[], by simp [isPlainScan, hs], h.symm⟩
      | false =>
        simp only [scanRunWidth, hs, Bool.false_eq_true, if_false, bind, pure,
          Option.bind_eq_some_iff, Option.some.injEq] at h
        obtain ⟨w, hw, k', hk', rfl⟩ := h
        obtain ⟨widths, hwidths, rfl⟩ := ih hk'
        refine ⟨w :: widths, ?_, by rw [List.sum_cons]⟩
        rw [List.takeWhile_cons_of_pos (by simp [isPlainScan, hs])]
        exact .cons ⟨s, d, rfl, hw⟩ hwidths
    | unary op p d =>
      cases h
      exact ⟨[], .nil, rfl⟩
    | binary op left right d =>
      cases h
      exact ⟨[], .nil, rfl⟩

theorem folds_of_trailingWidth {p : Plan} {k : Nat} (h : p.trailingWidth = some k) : p.Folds k :=
  scanRunWidth_eq_some h

/-- Selecting columns in range gives one column for each. -/
theorem forall₂_select {s : Schema} {cs : List ColumnRef} (h : ∀ c ∈ cs, c.Within s.width) :
    List.Forall₂ (fun c column => ∃ i, c = .resolved i ∧ s.column? i = some column) cs
      (s.select cs).columns := by
  induction cs with
  | nil => exact .nil
  | cons c cs ih =>
    obtain ⟨i, hi, rfl⟩ := h c List.mem_cons_self
    obtain ⟨column, hcolumn⟩ : ∃ column, s.column? i = some column :=
      ⟨_, List.getElem?_eq_getElem hi⟩
    have hselect : (s.select (.resolved i :: cs)).columns = column :: (s.select cs).columns := by
      simp [Schema.select, hcolumn]
    rw [hselect]
    exact .cons ⟨i, rfl, hcolumn⟩ (ih fun c' hc' => h c' (List.mem_cons_of_mem _ hc'))

theorem fold_eq_ok {name : String} {k : Nat} {s out : Schema} (h : s.fold name k = .ok out) :
    ∃ kept folded, folded.length = k ∧ s.columns = kept ++ folded ∧
      out.columns = kept ++ [.nested none folded] := by
  rw [Schema.fold] at h
  split at h
  case isTrue hk =>
    cases h
    refine ⟨s.columns.take (s.width - k), s.columns.drop (s.width - k), ?_,
      (List.take_append_drop _ _).symm, rfl⟩
    rw [List.length_drop]
    exact Nat.sub_sub_self hk
  case isFalse => cases h

theorem unnest_eq_ok {name : String} {c : ColumnRef} {s out : Schema}
    (h : s.unnest name c = .ok out) :
    ∃ before origin inside after, c = .resolved before.length ∧
      s.columns = before ++ .nested origin inside :: after ∧
      out.columns = before ++ inside ++ after := by
  cases c with
  | symbolic key => cases h
  | resolved i =>
    rw [Schema.unnest] at h
    cases hinner : s.nested? i with
    | none => simp [hinner] at h
    | some inner =>
      simp only [hinner, Except.ok.injEq] at h
      obtain ⟨column, hcolumn, hcs⟩ := Option.bind_eq_some_iff.mp hinner
      cases column with
      | scalar o t => cases hcs
      | nested o cs =>
        cases hcs
        obtain ⟨hi, hget⟩ := List.getElem?_eq_some_iff.mp hcolumn
        -- the column at the position, with those before and after it
        refine ⟨s.columns.take i, o, cs, s.columns.drop (i + 1), ?_, ?_, h.symm ▸ rfl⟩
        · rw [List.length_take, Nat.min_eq_left (Nat.le_of_lt hi)]
        · rw [← hget, List.getElem_cons_drop, List.take_append_drop]

theorem yields_of_rule {op : Unary} {p : Plan} {name : String} {folded : Nat} {out : Schema}
    {d : Option Schema} (hfits : op.Fits p.output) (hfold : foldedWidth op p = some folded)
    (h : op.rule name folded p.output = .ok out) : (unary op p d).Yields out.columns := by
  cases op with
  | select c => cases h; rfl
  | project cs =>
    cases h
    refine forall₂_select fun c hc => ?_
    exact hfits.1 (Slot.single c) (List.mem_map_of_mem hc) rfl
  | distinct cs => cases h; rfl
  | group g =>
    obtain ⟨kept, last, hlast, hin, hout⟩ := fold_eq_ok h
    refine ⟨kept, last, ?_, hin, hout⟩
    rw [hlast]
    exact folds_of_trailingWidth hfold
  | aggregate a => cases h; rfl
  | flatten c => exact unnest_eq_ok h
  | construct t => cases h; rfl

theorem yields_of_binary_rule (op : Binary) (l r : Plan) (d : Option Schema) :
    (binary op l r d).Yields (op.rule l.output r.output).columns := by
  cases op <;> simp [Yields, Binary.rule, Schema.push, Column.nesting]

/-! ### Well-formed plans -/

theorem foldedWidth_mapRefs (f : Nat → ColumnRef → ColumnRef) (op : Unary) (p : Plan) :
    foldedWidth (op.mapRefs f) p = foldedWidth op p := by
  cases op <;> rfl

variable {checked : Bool} {p r n m : Plan}

/-- An operator that is resolved refers to no key. -/
theorem keys_of_resolve (h : n.resolve checked = .done m) : m.keys = [] := by
  obtain ⟨hrecast, hfaults⟩ := recast_of_resolve h
  rw [keys, ← map_ref_slots, hrecast.slots_eq, ColumnRef.keys, List.filterMap_eq_nil_iff]
  intro c hc
  obtain ⟨s', hs', rfl⟩ := List.mem_map.mp hc
  obtain ⟨s, hs, rfl⟩ := List.mem_map.mp hs'
  obtain ⟨i, hi⟩ := Positions.exists_target_eq_resolved (hfaults s hs)
  rw [Slot.map, hi]
  rfl

/-- Another operator of the same kind is a construction, too. -/
theorem Recast.isConstruct_eq {f : Nat → ColumnRef → ColumnRef} (h : Recast f n m) :
    m.isConstruct = n.isConstruct := by
  cases h with
  | unary op p p' d d' => cases op <;> rfl
  | _ => rfl

/-- No input of a resolved operator is a construction. -/
theorem isConstruct_of_mem_inputs (h : n.resolve checked = .done m) :
    ∀ q ∈ m.inputs, q.isConstruct = false := by
  cases n with
  | scan s d =>
    obtain ⟨out, -, -, rfl⟩ := resolve_scan_eq_done_iff.mp h
    exact nofun
  | unary op p d =>
    obtain ⟨hc, p', folded, out, hp, -, -, -, -, rfl⟩ := resolve_unary_eq_done_iff.mp h
    refine List.forall_mem_singleton.mpr ?_
    rw [(recast_of_resolve hp).1.isConstruct_eq, hc]
  | binary op left right d =>
    obtain ⟨hcl, hcr, l', r', hl, hr, -, -, rfl⟩ := resolve_binary_eq_done_iff.mp h
    refine List.forall_mem_cons.mpr ⟨?_, List.forall_mem_singleton.mpr ?_⟩
    · rw [(recast_of_resolve hl).1.isConstruct_eq, hcl]
    · rw [(recast_of_resolve hr).1.isConstruct_eq, hcr]

/-- What is below the top operator is an input of an operator. -/
theorem exists_mem_inputs {q : Plan} (hq : q ∈ p.beneath) : ∃ n ∈ p.postorder, q ∈ n.inputs := by
  induction p with
  | scan s d => cases hq
  | unary op p d ih =>
    rw [beneath_unary, postorder_eq, List.mem_append, List.mem_singleton] at hq
    rcases hq with hq | rfl
    · obtain ⟨n, hn, hqn⟩ := ih hq
      exact ⟨n, List.mem_append_left _ hn, hqn⟩
    · exact ⟨_, mem_postorder_self _, List.mem_singleton_self q⟩
  | binary op left right d ihl ihr =>
    rw [beneath_binary, postorder_eq left, postorder_eq right, List.mem_append, List.mem_append,
      List.mem_append, List.mem_singleton, List.mem_singleton] at hq
    rcases hq with (hq | rfl) | hq | rfl
    · obtain ⟨n, hn, hqn⟩ := ihl hq
      exact ⟨n, List.mem_append_left _ (List.mem_append_left _ hn), hqn⟩
    · exact ⟨_, mem_postorder_self _, List.mem_cons_self⟩
    · obtain ⟨n, hn, hqn⟩ := ihr hq
      exact ⟨n, List.mem_append_left _ (List.mem_append_right _ hn), hqn⟩
    · exact ⟨_, mem_postorder_self _, List.mem_cons_of_mem _ (List.mem_singleton_self q)⟩

/-- An operator that is resolved is well-formed. -/
theorem wellFormed_top (h : n.resolve checked = .done m) : m.WellFormed := by
  have hkeys := keys_of_resolve h
  cases n with
  | scan s d =>
    obtain ⟨out, hout, -, rfl⟩ := resolve_scan_eq_done_iff.mp h
    exact ⟨hkeys, nofun, nofun, nofun, out, rfl, emits_of_schema hout⟩
  | unary op p d =>
    obtain ⟨-, p', folded, out, hp, hfold, hsettle, hrule, -, rfl⟩ :=
      resolve_unary_eq_done_iff.mp h
    have hfits := Unary.fits_of_settle hsettle
    refine ⟨hkeys, ?_, nofun, ?_, out, rfl, ?_⟩
    · rw [input_unary]
      exact hfits.1
    · intro a q d' heq
      injection heq with hop hq _
      rw [← hq]
      exact hfits.2 a hop
    · -- the width to be folded is known before the references are replaced
      refine yields_of_rule hfits ?_ hrule
      rw [((op.settles p'.output).complete hsettle).1, foldedWidth_mapRefs, hfold]
  | binary op left right d =>
    obtain ⟨-, -, l', r', -, -, hsettle, -, rfl⟩ := resolve_binary_eq_done_iff.mp h
    have hfits := Binary.fits_of_settle hsettle
    refine ⟨hkeys, ?_, ?_, nofun, _, rfl, yields_of_binary_rule _ l' r' _⟩
    · rw [input_binary]
      exact hfits.1
    · intro j lq rq d' heq
      injection heq with hop hlq _ _
      rw [← hlq]
      exact hfits.2 j hop

/-- Every operator of a resolved plan is well-formed. -/
theorem wellFormed_of_resolve (h : p.resolve checked = .done r) :
    ∀ m ∈ r.postorder, m.WellFormed := by
  intro m hm
  obtain ⟨n, -, hn⟩ := exists_resolve_of_mem h hm
  exact wellFormed_top hn

/-- Constructions occur at the top of a resolved plan only. -/
theorem isConstruct_of_mem_beneath (h : p.resolve checked = .done r) :
    ∀ q ∈ r.beneath, q.isConstruct = false := by
  intro q hq
  obtain ⟨m, hm, hqm⟩ := exists_mem_inputs hq
  obtain ⟨n, -, hn⟩ := exists_resolve_of_mem h hm
  exact isConstruct_of_mem_inputs hn q hqm

end Plan

/-! ### The whole plan -/

namespace Query

/-- After a successful resolution the plan is at its last stage and has the operators that it had
before, in the same order, with nothing but their references replaced by their targets.
Constructions occur at the top only, and every operator is well-formed. -/
theorem resolve_wellFormed {checked : Bool} {q r : Query} (h : q.resolve checked = .done r) :
    r.stage = .resolved ∧
      List.Forall₂ (fun n m => Plan.Recast m.input.positions.target n m) q.root.postorder
        r.root.postorder ∧
      (∀ n ∈ r.root.beneath, n.isConstruct = false) ∧
      ∀ n ∈ r.root.postorder, n.WellFormed := by
  obtain ⟨hroot, hstage⟩ := resolve_eq_done_iff.mp h
  exact ⟨hstage, Plan.forall₂_recast_of_resolve hroot, Plan.isConstruct_of_mem_beneath hroot,
    Plan.wellFormed_of_resolve hroot⟩

/-- For each document of one collection, its identifier and the number of documents of another
collection that have the same one. -/
def matchCounts : Query :=
  let scan (id : ScanId) (path : String) : Plan := .scan ⟨id, none, true, ⟨path, []⟩⟩ none
  let same : Condition :=
    ⟨.symbolic (.docId ⟨0⟩), .column (.symbolic (.docId ⟨1⟩)), .equal⟩
  let nested : Plan :=
    .binary (.nestedJoin ⟨⟨[[same]]⟩, .symbolic (.docId ⟨0⟩), [], none⟩) (scan ⟨0⟩ "books")
      (scan ⟨1⟩ "reviews") none
  let counted : Plan :=
    .unary (.aggregate ⟨[.symbolic (.document ⟨1⟩), .symbolic (.document ⟨1⟩)], .count, ⟨0⟩⟩)
      nested none
  .symbolic (.unary (.project [.symbolic (.docId ⟨0⟩), .symbolic (.var ⟨0⟩)]) counted none)

/-- The theorem at a plan with a nested join, an aggregation over its matches and a projection. -/
theorem resolve_wellFormed_matchCounts :
    (matchCounts.resolve true).failure = none ∧
      (matchCounts.resolve true).value.stage = .resolved ∧
      List.Forall₂ (fun n m => Plan.Recast m.input.positions.target n m) matchCounts.root.postorder
        (matchCounts.resolve true).value.root.postorder ∧
      (∀ n ∈ (matchCounts.resolve true).value.root.beneath, n.isConstruct = false) ∧
      ∀ n ∈ (matchCounts.resolve true).value.root.postorder, n.WellFormed :=
  have h : (matchCounts.resolve true).failure = none := by decide
  ⟨h, resolve_wellFormed (Attempt.eq_done_of_complete h)⟩

end Query

end TwigAlgebra
