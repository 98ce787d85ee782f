import TwigAlgebra.Proofs.DistinctKeys

/-!
# Columns are neither lost nor repeated

Joins, groupings and nested joins put columns next to each other or inside a new column, and
flattening takes them out again.  None of this changes which scalars there are when they are read
from left to right through all levels: without projections these are the columns that the scans and
aggregations below introduce, one after the other.

## Main definitions

* `Column.leaves`, `Column.leavesAll` — the scalars at all levels, from left to right.
* `Plan.isProjection`, `Plan.isAggregation` — operators of two kinds.

## Main results

* `Plan.Yields.exists_leaves` — the scalars of an operator's output are those of its inputs followed
  by those that it introduces.
* `Query.resolve_leaves` — the scalars of every operator of a resolved plan.
-/

namespace TwigAlgebra

/-! ### Scalars at all levels -/

namespace Column

mutual

/-- The scalars in a column, at all levels, from left to right. -/
def leaves : Column → List Column
  | scalar o t => [scalar o t]
  | nested _ cs => leavesAll cs

/-- The scalars in some columns, at all levels, from left to right. -/
def leavesAll : List Column → List Column
  | [] => []
  | c :: cs => c.leaves ++ leavesAll cs

end

mutual

/-- Whatever a column carries, a scalar carries it. -/
def Plain : Column → Prop
  | scalar .. => True
  | nested o cs => o = none ∧ PlainAll cs

/-- Whatever some columns carry, scalars carry it. -/
def PlainAll : List Column → Prop
  | [] => True
  | c :: cs => c.Plain ∧ PlainAll cs

end

@[simp] theorem leavesAll_nil : leavesAll [] = [] := rfl

@[simp] theorem leavesAll_cons (c : Column) (cs : List Column) :
    leavesAll (c :: cs) = c.leaves ++ leavesAll cs := rfl

@[simp] theorem leaves_nested (o : Option ColumnKey) (cs : List Column) :
    (nested o cs).leaves = leavesAll cs := rfl

@[simp] theorem leaves_carrying (key : ColumnKey) (t : ScalarType) :
    (carrying key t).leaves = [carrying key t] := rfl

@[simp] theorem leavesAll_append (as bs : List Column) :
    leavesAll (as ++ bs) = leavesAll as ++ leavesAll bs := by
  induction as with
  | nil => rfl
  | cons a as ih => simp [ih]

mutual

theorem length_leaves : ∀ c : Column, c.leaves.length = c.leafCount
  | .scalar _ _ => rfl
  | .nested _ cs => length_leavesAll cs

theorem length_leavesAll : ∀ cs : List Column, (leavesAll cs).length = leafCountAll cs
  | [] => rfl
  | c :: cs => by
    rw [leavesAll_cons, List.length_append, length_leaves c, length_leavesAll cs, leafCountAll_cons]

end

theorem plainAll_iff {cs : List Column} : PlainAll cs ↔ ∀ c ∈ cs, c.Plain := by
  induction cs with
  | nil => simp [PlainAll]
  | cons c cs ih => simp [PlainAll, ih]

mutual

/-- The keys of plain columns are those of their scalars. -/
theorem keys_eq_leaves : ∀ {c : Column}, c.Plain → c.keys = keysAll c.leaves
  | .scalar o t, _ => by rw [leaves, keysAll_cons, keysAll_nil, List.append_nil]
  | .nested o cs, h => by
    obtain ⟨rfl, hcs⟩ := h
    exact keysAll_eq_leavesAll hcs

theorem keysAll_eq_leavesAll : ∀ {cs : List Column}, PlainAll cs → keysAll cs = keysAll (leavesAll cs)
  | [], _ => rfl
  | c :: cs, h => by
    rw [keysAll_cons, leavesAll_cons, keysAll_append, keys_eq_leaves h.1, keysAll_eq_leavesAll h.2]

end

/-- Scalars that carry something are their own leaves. -/
theorem leavesAll_eq_self {cs : List Column} (h : ∀ c ∈ cs, ∃ key t, c = carrying key t) :
    leavesAll cs = cs := by
  induction cs with
  | nil => rfl
  | cons c cs ih =>
    obtain ⟨key, t, rfl⟩ := h c List.mem_cons_self
    rw [leavesAll_cons, ih fun d hd => h d (List.mem_cons_of_mem _ hd)]
    rfl

end Column

namespace Plan

open Column

variable {checked : Bool} {p r n : Plan}

/-- The operator keeps listed columns only. -/
def isProjection : Plan → Bool
  | unary (.project _) _ _ => true
  | _ => false

/-- The operator adds a computed column. -/
def isAggregation : Plan → Bool
  | unary (.aggregate _) _ _ => true
  | _ => false

/-! ### The scalars of an output -/

/-- The scalars of the output of an operator that drops none are those of its inputs, one input
after the other, followed by those that it introduces itself. -/
theorem Yields.exists_leaves {out : List Column} (h : n.Yields out) (hn : n.isProjection = false) :
    ∃ css, List.Forall₂ Introduces ([n].filter isHolder) css ∧
      leavesAll out = (n.inputs.flatMap fun q => leavesAll q.output.columns) ++ css.flatten := by
  cases n with
  | scan s d =>
    refine ⟨[out], .cons h .nil, ?_⟩
    simpa [inputs] using leavesAll_eq_self (Introduces.exists_carrying (n := scan s d) h)
  | unary op p d =>
    cases op with
    -- a projection may drop scalars, and is excluded
    | project cs => cases hn
    | select c => cases h; exact ⟨[], .nil, by simp [inputs]⟩
    | distinct cs => cases h; exact ⟨[], .nil, by simp [inputs]⟩
    | construct t => cases h; exact ⟨[], .nil, by simp [inputs]⟩
    | group g =>
      obtain ⟨kept, folded, -, hin, rfl⟩ := h
      exact ⟨[], .nil, by simp [inputs, hin]⟩
    | flatten c =>
      obtain ⟨before, origin, inside, after, -, hin, rfl⟩ := h
      exact ⟨[], .nil, by simp [inputs, hin]⟩
    | aggregate a =>
      cases h
      exact ⟨[[.carrying (.var a.result) a.function.resultType]], .cons rfl .nil, by simp [inputs]⟩
  | binary op l r d =>
    -- joins and products put their inputs together, and introduce nothing
    refine ⟨[], .nil, ?_⟩
    cases op <;> cases h <;> simp [inputs]

/-- Operators make plain columns from plain ones. -/
theorem Yields.plainAll {out : List Column} (h : n.Yields out)
    (hin : ∀ q ∈ n.inputs, PlainAll q.output.columns) : PlainAll out := by
  simp only [plainAll_iff] at hin ⊢
  cases n with
  | scan s d =>
    -- what a scan emits are scalars
    intro c hc
    obtain ⟨key, t, rfl⟩ := Introduces.exists_carrying (n := scan s d) h c hc
    trivial
  | unary op p d =>
    have hp := hin p (List.mem_singleton_self p)
    cases op with
    | select c => cases h; exact hp
    | distinct cs => cases h; exact hp
    | construct t => cases h; exact hp
    | project cs =>
      intro c hc
      obtain ⟨ref, -, i, -, hi⟩ := h.exists_of_mem_right hc
      exact hp c (List.mem_of_getElem? hi)
    | group g =>
      obtain ⟨kept, folded, -, hcols, rfl⟩ := h
      rw [hcols, List.forall_mem_append] at hp
      refine List.forall_mem_append.mpr ⟨hp.1, List.forall_mem_singleton.mpr ⟨rfl, ?_⟩⟩
      exact plainAll_iff.mpr hp.2
    | aggregate a =>
      cases h
      exact List.forall_mem_append.mpr ⟨hp, List.forall_mem_singleton.mpr trivial⟩
    | flatten c =>
      obtain ⟨before, origin, inside, after, -, hcols, rfl⟩ := h
      -- what is nested is plain because its column is
      rw [hcols, List.forall_mem_append, List.forall_mem_cons] at hp
      obtain ⟨hbefore, ⟨-, hinside⟩, hafter⟩ := hp
      rw [List.forall_mem_append, List.forall_mem_append]
      exact ⟨⟨hbefore, plainAll_iff.mp hinside⟩, hafter⟩
  | binary op l r d =>
    have hl := hin l List.mem_cons_self
    have hr := hin r (List.mem_cons_of_mem _ (List.mem_singleton_self r))
    cases op with
    | nestedJoin j =>
      cases h
      refine List.forall_mem_append.mpr ⟨hl, List.forall_mem_singleton.mpr ⟨rfl, ?_⟩⟩
      exact plainAll_iff.mpr hr
    | product | join | outerJoin =>
      cases h
      exact List.forall_mem_append.mpr ⟨hl, hr⟩

/-- The scalars of the output are the columns that the scans and aggregations of the plan introduce,
in post-order. -/
def Conserves (n : Plan) : Prop :=
  ∃ css, List.Forall₂ Introduces (n.postorder.filter isHolder) css ∧
    leavesAll n.output.columns = css.flatten

/-- The scalars of several inputs, one input after the other. -/
theorem exists_leaves_of_inputs {qs : List Plan} (h : ∀ q ∈ qs, q.Conserves) :
    ∃ css, List.Forall₂ Introduces ((qs.flatMap postorder).filter isHolder) css ∧
      (qs.flatMap fun q => leavesAll q.output.columns) = css.flatten := by
  induction qs with
  | nil => exact ⟨[], .nil, rfl⟩
  | cons q qs ih =>
    obtain ⟨css, hcss, hleaves⟩ := h q List.mem_cons_self
    obtain ⟨css', hcss', hleaves'⟩ := ih fun q' hq' => h q' (List.mem_cons_of_mem _ hq')
    refine ⟨css ++ css', ?_, ?_⟩
    · rw [List.flatMap_cons, List.filter_append]
      exact List.rel_append hcss hcss'
    · rw [List.flatMap_cons, hleaves, hleaves', List.flatten_append]

theorem Yields.conserves (h : n.Yields n.output.columns) (hn : n.isProjection = false)
    (hin : ∀ q ∈ n.inputs, q.Conserves) : n.Conserves := by
  obtain ⟨css, hcss, hleaves⟩ := exists_leaves_of_inputs hin
  obtain ⟨own, hown, hout⟩ := h.exists_leaves hn
  refine ⟨css ++ own, ?_, ?_⟩
  · rw [postorder_eq, List.filter_append]
    exact List.rel_append hcss hown
  · rw [hout, hleaves, List.flatten_append]

/-- Without projections every operator of a resolved plan has the scalars introduced in it. -/
theorem conserves_of_resolve (h : p.resolve checked = .done r)
    (hfree : ∀ n ∈ r.postorder, n.isProjection = false) : ∀ n ∈ r.postorder, n.Conserves := by
  have hfit : ∀ n ∈ r.postorder, n.Yields n.output.columns ∧ n.isProjection = false :=
    fun n hn => ⟨yields_of_resolve h n hn, hfree n hn⟩
  refine forall_mem_postorder ?_ hfit
  rintro n ⟨hyields, hn⟩ hin
  exact hyields.conserves hn hin

theorem plainAll_of_resolve (h : p.resolve checked = .done r) :
    ∀ n ∈ r.postorder, PlainAll n.output.columns :=
  forall_mem_postorder (fun _ hyields hin => hyields.plainAll hin) (yields_of_resolve h)

/-! ### The number of scalars -/

/-- The number of columns that a scan emits is its width. -/
theorem width_of_emits {s : Scan} {cs : List Column} (h : s.Emits cs) :
    s.width = some cs.length := by
  obtain ⟨body, rfl, hbody⟩ := h
  -- the document identifier counts one column if it is attached
  have hdocId : (if s.attachDocId then [Column.carrying (.docId s.id) .id] else []).length
      = s.attachDocId.toNat := by
    cases s.attachDocId <;> rfl
  rw [List.length_append, hdocId, Nat.add_comm, Scan.width]
  cases hp : s.pattern with
  | none =>
    rw [hp] at hbody
    subst hbody
    rfl
  | some p =>
    rw [hp] at hbody
    obtain ⟨vs, hvs, rfl⟩ := hbody
    simp only [Pattern.boundVars_eq_some_iff.mpr hvs, List.length_map]
    rfl

/-- The columns introduced are counted by the widths of the scans and the aggregations. -/
theorem exists_widths {holders : List Plan} {css : List (List Column)}
    (h : List.Forall₂ Introduces holders css) :
    ∃ ws, List.Forall₂ (fun s w => s.width = some w) (holders.filterMap scan?) ws ∧
      css.flatten.length = ws.sum + (holders.filter isAggregation).length := by
  induction h with
  | nil => exact ⟨[], .nil, rfl⟩
  | @cons n cs _ _ hintro _ ih =>
    obtain ⟨ws, hws, hlength⟩ := ih
    rw [List.flatten_cons, List.length_append, hlength]
    cases n with
    | scan s d =>
      refine ⟨cs.length :: ws, .cons (width_of_emits hintro) hws, ?_⟩
      rw [List.sum_cons, List.filter_cons_of_neg (by simp [isAggregation]), Nat.add_assoc]
    | unary op p d =>
      cases op with
      | aggregate a =>
        cases hintro
        refine ⟨ws, hws, ?_⟩
        rw [List.filter_cons_of_pos rfl, List.length_cons, List.length_cons, List.length_nil]
        omega
      | _ => exact hintro.elim
    | binary op l r d => exact hintro.elim

theorem filterMap_scan?_filter (l : List Plan) :
    (l.filter isHolder).filterMap scan? = l.filterMap scan? := by
  rw [List.filterMap_filter]
  congr 1
  funext n
  cases n with
  | unary op p d => cases op <;> rfl
  | _ => rfl

theorem filter_isAggregation_filter (l : List Plan) :
    (l.filter isHolder).filter isAggregation = l.filter isAggregation := by
  rw [List.filter_filter]
  congr 1
  funext n
  cases n with
  | unary op p d => cases op <;> rfl
  | _ => rfl

/-- The number of scalars is the sum of the widths of the scans and the number of aggregations. -/
theorem Conserves.exists_widths (h : n.Conserves) :
    ∃ ws, List.Forall₂ (fun s w => s.width = some w) n.scans ws ∧
      n.output.leafCount = ws.sum + (n.postorder.filter isAggregation).length := by
  obtain ⟨css, hcss, hleaves⟩ := h
  have hwidths := Plan.exists_widths hcss
  rwa [filterMap_scan?_filter, filter_isAggregation_filter, ← hleaves, length_leavesAll] at hwidths

/-! ### Keys -/

/-- If the plan was sound before it was resolved, the keys of an output that has the introduced
scalars are distinct. -/
theorem Conserves.nodup_keys (hn : n.Conserves) (hplain : PlainAll n.output.columns)
    (hp : p.Sound) (h : p.resolve checked = .done r) (hmem : n ∈ r.postorder) :
    n.output.keys.Nodup := by
  obtain ⟨css, hcss, hleaves⟩ := hn
  rw [Schema.keys, keysAll_eq_leavesAll hplain, hleaves]
  exact nodup_of_introduces hp h hmem hcss

theorem Recast.isProjection_eq {f : Nat → ColumnRef → ColumnRef} {m : Plan} (h : Recast f n m) :
    m.isProjection = n.isProjection := by
  cases h with
  | unary op p p' d d' => cases op <;> rfl
  | _ => rfl

/-- Resolution makes no projections. -/
theorem projectionFree_of_resolve (h : p.resolve checked = .done r)
    (hfree : ∀ n ∈ p.postorder, n.isProjection = false) :
    ∀ n ∈ r.postorder, n.isProjection = false := by
  intro m hm
  obtain ⟨n, hn, hnm⟩ := exists_resolve_of_mem h hm
  rw [(recast_of_resolve hnm).1.isProjection_eq, hfree n hn]

end Plan

/-! ### The whole plan -/

namespace Query

open Plan

/-- Resolution keeps the operators of a plan, in their order, but for their references.  If there
are no projections among them, then at every operator of the resolved plan the scalars of the
schema, read from left to right through all levels, are the columns that the scans and aggregations
of the subplan introduce, in post-order.  Their number is the sum of the widths of the scans and the
number of aggregations.  If the plan was accepted before it was resolved, no key occurs twice in a
schema, and only one path leads to it. -/
theorem resolve_leaves {checked : Bool} {q r : Query}
    (hfree : ∀ n ∈ q.root.postorder, n.isProjection = false) (h : q.resolve checked = .done r) :
    List.Forall₂ (fun n m => Recast m.input.positions.target n m) q.root.postorder
        r.root.postorder ∧
      ∀ n ∈ r.root.postorder, ∃ out, n.schema = some out ∧
        (∃ css, List.Forall₂ Introduces (n.postorder.filter isHolder) css ∧
          Column.leavesAll out.columns = css.flatten) ∧
        (∃ ws, List.Forall₂ (fun s w => s.width = some w) n.scans ws ∧
          out.leafCount = ws.sum + (n.postorder.filter isAggregation).length) ∧
        (q.root.validate = .ok () → out.keys.Nodup ∧
          ∀ key path path', out.LeadsTo key path → out.LeadsTo key path' → path = path') := by
  obtain ⟨hroot, -⟩ := resolve_eq_done_iff.mp h
  refine ⟨forall₂_recast_of_resolve hroot, fun n hn => ?_⟩
  obtain ⟨m, -, hm⟩ := exists_resolve_of_mem hroot hn
  have hconserves := conserves_of_resolve hroot (projectionFree_of_resolve hroot hfree) n hn
  refine ⟨n.output, schema_of_resolve hm, hconserves, hconserves.exists_widths, fun hvalid => ?_⟩
  have hnodup := hconserves.nodup_keys (plainAll_of_resolve hroot n hn)
    (Plan.validate_eq_ok_iff.mp hvalid) hroot hn
  exact ⟨hnodup, fun _ _ _ hpath hpath' => hpath.unique hpath' hnodup⟩

/-- The number of reviews of every book: the matches of a nested join are taken out, grouped again
and counted. -/
def reviewCounts : Query :=
  let node (code : UInt32) (tag : String) (parent : Option Handle) (edges : List Edge) : Node :=
    { Node.make ⟨code⟩ "" tag with parent, edges }
  let book := (node 0 "book" none [⟨⟨true, false, false⟩, 1⟩]).binding ⟨⟨3⟩, "b", .nodeId, none⟩
  let title := (node 1 "title" (some 0) []).binding ⟨⟨7⟩, "t", .value, none⟩
  let books : Plan := .scan ⟨⟨0⟩, some ⟨"books", #[book, title], 0⟩, true, ⟨"shelf", []⟩⟩ none
  let reviews : Plan := .scan ⟨⟨1⟩, none, false, ⟨"reviews", []⟩⟩ none
  let about : Condition :=
    ⟨.symbolic (.var ⟨7⟩), .column (.symbolic (.document ⟨1⟩)), .equal⟩
  let nested : Plan :=
    .binary (.nestedJoin ⟨⟨[[about]]⟩, .symbolic (.docId ⟨0⟩), [.symbolic (.var ⟨3⟩)], none⟩) books
      reviews none
  let flat : Plan := .unary (.flatten (.symbolic (.document ⟨1⟩))) nested none
  let grouped : Plan :=
    .unary (.group ⟨[.symbolic (.var ⟨3⟩)], [], [.symbolic (.document ⟨1⟩)], none⟩) flat none
  .symbolic (.unary (.aggregate
    ⟨[.symbolic (.document ⟨1⟩), .symbolic (.document ⟨1⟩)], .count, ⟨9⟩⟩) grouped none)

/-- The theorem at a plan that nests, flattens, nests again and aggregates. -/
theorem resolve_leaves_reviewCounts :
    (∀ n ∈ reviewCounts.root.postorder, n.isProjection = false) ∧
      (reviewCounts.resolve true).failure = none ∧ reviewCounts.root.validate = .ok () ∧
      List.Forall₂ (fun n m => Recast m.input.positions.target n m) reviewCounts.root.postorder
        (reviewCounts.resolve true).value.root.postorder ∧
      ∀ n ∈ (reviewCounts.resolve true).value.root.postorder, ∃ out, n.schema = some out ∧
        (∃ css, List.Forall₂ Introduces (n.postorder.filter isHolder) css ∧
          Column.leavesAll out.columns = css.flatten) ∧
        (∃ ws, List.Forall₂ (fun s w => s.width = some w) n.scans ws ∧
          out.leafCount = ws.sum + (n.postorder.filter isAggregation).length) ∧
        out.keys.Nodup ∧
          ∀ key path path', out.LeadsTo key path → out.LeadsTo key path' → path = path' := by
  have hfree : ∀ n ∈ reviewCounts.root.postorder, n.isProjection = false := by decide
  have hdone : (reviewCounts.resolve true).failure = none := by decide
  have hvalid : reviewCounts.root.validate = .ok () := by decide
  obtain ⟨hrecast, hout⟩ := resolve_leaves hfree (Attempt.eq_done_of_complete hdone)
  refine ⟨hfree, hdone, hvalid, hrecast, fun n hn => ?_⟩
  obtain ⟨out, hschema, hleaves, hcount, hkeys⟩ := hout n hn
  exact ⟨out, hschema, hleaves, hcount, hkeys hvalid⟩

end Query

end TwigAlgebra
