import TwigAlgebra.Proofs.Settling
import TwigAlgebra.Proofs.TrailingScans

/-!
# Grouping flat plans

Where nothing is nested, the columns of an input are those that its scans and aggregations
introduce, one after the other in post-order.  The scans whose widths a grouping adds up are the
last ones in the same order, and the grouping nests as many columns from the end: so what it nests
is exactly what these scans emit, and what the others introduce stays where it was, whatever
joins, selections and aggregations are between them.

Whether all references can be settled is said without resolving anything: by the columns that are
introduced below each operator.

## Main definitions

* `Plan.Flat` — plans that nest nothing, without declared schemas.
* `Plan.Referable` — the references of an operator mean columns introduced below it.

## Main results

* `Plan.Flat.exists_resolve` — a flat plan is resolved, and its columns are those introduced in it.
* `Query.resolve_group` — what a grouping over a flat plan nests.
-/

namespace TwigAlgebra

/-- Selections and duplicate eliminations, and aggregations over a path of one reference at most. -/
def Unary.IsFlat : Unary → Prop
  | select _ => True
  | distinct _ => True
  | aggregate a => a.path.length ≤ 1
  | _ => False

theorem Unary.IsFlat.isShallow {op : Unary} (hop : op.IsFlat) : op.IsShallow := by
  cases op with
  | aggregate a => exact hop
  | select | distinct => trivial
  | project | group | flatten | construct => exact hop.elim

namespace Plan

variable {checked : Bool} {p r n : Plan} {css css' : List (List Column)}

/-- A plan of scans, selections, duplicate eliminations, aggregations over a path of one reference
at most, products, joins and outer joins, none of which declares a schema. -/
inductive Flat : Plan → Prop
  /-- A scan. -/
  | scan (s : Scan) : Flat (scan s none)
  /-- A selection, a duplicate elimination or an aggregation over a flat plan. -/
  | unary {op : Unary} {p : Plan} (hop : op.IsFlat) (hp : Flat p) : Flat (unary op p none)
  /-- A product, a join or an outer join of flat plans. -/
  | binary {op : Binary} {l r : Plan} (hop : op.IsShallow) (hl : Flat l) (hr : Flat r) :
    Flat (binary op l r none)

/-- The references of the top operator mean columns that are introduced strictly below it: a key is
carried by one of them, and a position is less than their number. -/
def Referable (n : Plan) : Prop :=
  ∃ css, List.Forall₂ Introduces n.holders css ∧ ∀ c ∈ n.columns, c.Reaches ⟨css.flatten⟩

theorem referable_iff : n.Referable ↔ (n.holders.mapM introduced?).any fun css =>
    decide (∀ c ∈ n.columns, c.Reaches ⟨css.flatten⟩) := by
  rw [Option.any_eq_true, Referable]
  exact exists_congr fun css =>
    and_congr mapM_introduced?_eq_some_iff.symm decide_eq_true_iff.symm

instance : DecidablePred Referable := fun _ => decidable_of_iff' _ referable_iff

/-- What is introduced below is known, so that references need only be looked up in it. -/
theorem Referable.reaches (hn : n.Referable) (hcss : List.Forall₂ Introduces n.holders css)
    {s : Schema} (hs : s.columns = css.flatten) : ∀ c ∈ n.columns, c.Reaches s := by
  obtain ⟨css', hcss', hreaches⟩ := hn
  rw [introduces_unique hcss' hcss, ← hs] at hreaches
  exact hreaches

theorem foldedWidth_of_isFlat {op : Unary} (hop : op.IsFlat) (p : Plan) :
    foldedWidth op p = some 0 := by
  cases op with
  | group g => exact hop.elim
  | _ => rfl

/-- An operator of a flat plan adds the columns that it introduces to those of its input. -/
theorem exists_rule_of_isFlat {op : Unary} {d : Option Schema} {own : List (List Column)}
    (hop : op.IsFlat) (hown : List.Forall₂ Introduces ([unary op p d].filter isHolder) own)
    (f : Nat → ColumnRef → ColumnRef) (name : String) (input : Schema) :
    ∃ out, (op.mapRefs f).rule name 0 input = .ok out ∧
      out.columns = input.columns ++ own.flatten := by
  cases op with
  | select | distinct =>
    cases hown
    exact ⟨input, rfl, (List.append_nil _).symm⟩
  | aggregate a =>
    cases hown with
    | cons hintro hnil =>
      cases hnil
      cases hintro
      exact ⟨_, rfl, rfl⟩
  | project | group | flatten | construct => exact hop.elim

/-- Products and joins put their inputs next to each other. -/
theorem rule_of_isShallow {op : Binary} (hop : op.IsShallow) (f : Nat → ColumnRef → ColumnRef)
    (left right : Schema) : (op.mapRefs f).rule left right = Schema.concat [left, right] := by
  cases op with
  | nestedJoin j => exact hop.elim
  | product | join | outerJoin => rfl

namespace Flat

theorem isConstruct_eq (hp : p.Flat) : p.isConstruct = false := by
  cases hp with
  | scan s => rfl
  | @unary op _ hop _ =>
    cases op with
    | construct t => exact hop.elim
    | _ => rfl
  | binary _ _ _ => rfl

/-- A flat plan whose references mean columns introduced below is resolved, and its columns are
those that are introduced in it. -/
theorem exists_resolve (hp : p.Flat) (hrefs : ∀ n ∈ p.postorder, n.Referable)
    (hcss : List.Forall₂ Introduces (p.postorder.filter isHolder) css) :
    ∃ r, p.resolve checked = .done r ∧ r.output.columns = css.flatten := by
  -- what is introduced is listed for the whole plan, so each case takes its part of the list
  induction hp generalizing css with
  | scan s =>
    cases hcss with
    | cons hemits hnil =>
      cases hnil
      refine ⟨_, resolve_scan_eq_done_iff.mpr ⟨_, schema_of_emits hemits, nofun, rfl⟩, ?_⟩
      rw [List.flatten_singleton]
      rfl
  | @unary op p hop hp ih =>
    rw [postorder_unary, List.forall_mem_append, List.forall_mem_singleton] at hrefs
    rw [postorder_unary, List.filter_append] at hcss
    obtain ⟨below, own, hbelow, hown, rfl⟩ := hcss.exists_append
    obtain ⟨p', hp', hcolumns⟩ := ih hrefs.1 hbelow
    -- the input has the columns that are introduced below, so the references reach it
    have hreaches := hrefs.2.reaches (holders_unary op p none ▸ hbelow) hcolumns
    have hsettle := (Unary.failure_settle_eq_none_iff hop.isShallow).mpr hreaches
    have hvalue := ((op.settles p'.output).complete hsettle).1
    obtain ⟨out, hrule, hout⟩ :=
      exists_rule_of_isFlat hop hown p'.output.positions.target op.name p'.output
    refine ⟨_, resolve_unary_eq_done_iff.mpr ⟨hp.isConstruct_eq, p', 0, out, hp',
      foldedWidth_of_isFlat hop p', hsettle, hvalue ▸ hrule, nofun, rfl⟩, ?_⟩
    rw [List.flatten_append, ← hcolumns, ← hout]
    rfl
  | @binary op l r hop hl hr ihl ihr =>
    rw [postorder_binary, List.forall_mem_append, List.forall_mem_append,
      List.forall_mem_singleton] at hrefs
    obtain ⟨⟨hrefsl, hrefsr⟩, hown⟩ := hrefs
    -- the operator itself introduces nothing
    have hbelow : List.Forall₂ Introduces (Plan.binary op l r none).holders css := by
      rw [postorder_binary, List.filter_append, List.filter_append] at hcss
      rw [holders_binary]
      exact List.append_nil (_ ++ _) ▸ hcss
    have hparts := hbelow
    rw [holders_binary] at hparts
    obtain ⟨cl, cr, hcl, hcr, rfl⟩ := hparts.exists_append
    obtain ⟨l', hl', hcolumnsl⟩ := ihl hrefsl hcl
    obtain ⟨r', hr', hcolumnsr⟩ := ihr hrefsr hcr
    have hinput : (Schema.concat [l'.output, r'.output]).columns = (cl ++ cr).flatten := by
      rw [Schema.columns_concat, List.flatMap_cons, List.flatMap_singleton, hcolumnsl, hcolumnsr,
        List.flatten_append]
    -- the operator reads its inputs together
    have hsettle := (Binary.failure_settle_eq_none_iff hop).mpr (hown.reaches hbelow hinput)
    have hvalue := ((op.settles l'.output r'.output).complete hsettle).1
    refine ⟨_, resolve_binary_eq_done_iff.mpr ⟨hl.isConstruct_eq, hr.isConstruct_eq, l', r', hl',
      hr', hsettle, nofun, rfl⟩, ?_⟩
    rw [hvalue, rule_of_isShallow hop, ← hinput]
    rfl

end Flat

end Plan

/-! ### The grouping -/

/-- The columns that are kept stay in front of a column that nests the others. -/
theorem Schema.fold_of_append {s : Schema} {kept folded : List Column} (name : String)
    (hs : s.columns = kept ++ folded) :
    s.fold name folded.length = .ok ⟨kept ++ [.nested none folded]⟩ := by
  have hwidth : s.width = kept.length + folded.length := by rw [width, hs, List.length_append]
  rw [fold, if_pos (by omega)]
  simp only [hwidth, Nat.add_sub_cancel, hs, List.take_left, List.drop_left, Column.nesting]

namespace Query

open Plan

/-- A grouping over a plan that nests nothing is resolved if all references mean columns introduced
below.  The columns of its input are those introduced below, in post-order, and it nests exactly
those of the longest run of scans without document identifier at the end, the first operator left
out; the others stay where they are. -/
theorem resolve_group {checked : Bool} {q : Query} {g : Grouping} {p : Plan}
    (hroot : q.root = .unary (.group g) p none) (hflat : p.Flat)
    (hrefs : ∀ n ∈ q.root.postorder, n.Referable) :
    ∃ r g' p' out, q.resolve checked = .done r ∧ r.root = .unary (.group g') p' (some out) ∧
      p.resolve checked = .done p' ∧
      ∃ kept folded css css' ws, Trails (p.postorder.filter isHolder) kept folded ∧
        List.Forall₂ Introduces kept css ∧ List.Forall₂ Introduces folded css' ∧
        p'.output.columns = css.flatten ++ css'.flatten ∧
        out.columns = css.flatten ++ [.nested none css'.flatten] ∧
        List.Forall₂ (fun n w => ∃ s d, n = scan s d ∧ s.width = some w) folded ws ∧
        out.width + ws.sum = p'.output.width + 1 := by
  rw [hroot, postorder_unary, List.forall_mem_append, List.forall_mem_singleton] at hrefs
  obtain ⟨hbelow, hown⟩ := hrefs
  obtain ⟨all, hall, -⟩ := id hown
  obtain ⟨kept, folded, htrails⟩ := exists_trails (filter_isHolder_ne_nil p)
  -- the columns that are introduced are cut where the operators are
  have hsplit : List.Forall₂ Introduces (kept ++ folded) all := by
    rwa [← htrails.split, ← holders_unary (.group g) p none]
  obtain ⟨css, css', hcss, hcss', rfl⟩ := hsplit.exists_append
  obtain ⟨p', hp, hcolumns⟩ : ∃ p', p.resolve checked = .done p' ∧
      p'.output.columns = (css ++ css').flatten :=
    hflat.exists_resolve hbelow (htrails.split ▸ hsplit)
  -- as many columns are folded as the scans at the end introduce
  have hfolded : foldedWidth (.group g) p' = some css'.flatten.length :=
    (trailingWidth_of_resolve hp).trans (trailingWidth_eq_some_iff.mpr (htrails.folds hcss'))
  have hshallow : (Unary.group g).IsShallow := trivial
  have hsettle := (Unary.failure_settle_eq_none_iff hshallow).mpr (hown.reaches hall hcolumns)
  have hvalue := ((Unary.settles (.group g) p'.output).complete hsettle).1
  rw [List.flatten_append] at hcolumns
  have hrule : ((Unary.group g).settle p'.output).value.rule (Unary.group g).name
      css'.flatten.length p'.output = .ok ⟨css.flatten ++ [.nested none css'.flatten]⟩ := by
    rw [hvalue]
    exact Schema.fold_of_append _ hcolumns
  have hagrees : Agrees checked none ⟨css.flatten ++ [.nested none css'.flatten]⟩ := nofun
  have hdone := resolve_unary_eq_done_iff.mpr
    ⟨hflat.isConstruct_eq, p', _, _, hp, hfolded, hsettle, hrule, hagrees, rfl⟩
  rw [← hroot, hvalue] at hdone
  obtain ⟨ws, hws, hlength⟩ := exists_widths_of_plain hcss' htrails.plain
  refine ⟨⟨_, .resolved⟩, _, p', _, resolve_eq_done_iff.mpr ⟨hdone, rfl⟩, rfl, hp, kept, folded,
    css, css', ws, htrails, hcss, hcss', hcolumns, rfl, hws, ?_⟩
  rw [Schema.width, Schema.width, hcolumns, ← hlength]
  simp only [List.length_append, List.length_singleton]
  omega

/-- Every book with its number of titles, beside the reviews of this title and all notices. -/
def noticedBooks : Plan :=
  let node (code : UInt32) (tag : String) (parent : Option Handle) (edges : List Edge) : Node :=
    { Node.make ⟨code⟩ "" tag with parent, edges }
  let book := (node 0 "book" none [⟨⟨true, false, false⟩, 1⟩]).binding ⟨⟨3⟩, "b", .nodeId, none⟩
  let title := (node 1 "title" (some 0) []).binding ⟨⟨7⟩, "t", .value, none⟩
  let review := (node 2 "review" none []).binding ⟨⟨8⟩, "r", .value, none⟩
  let books : Plan := .scan ⟨⟨0⟩, some ⟨"books", #[book, title], 0⟩, true, ⟨"shelf", []⟩⟩ none
  let counted : Plan := .unary (.aggregate ⟨[.symbolic (.var ⟨7⟩)], .count, ⟨9⟩⟩) books none
  let reviews : Plan :=
    .scan ⟨⟨1⟩, some ⟨"reviews", #[review.binding ⟨⟨5⟩, "n", .nodeId, none⟩], 0⟩, false,
      ⟨"press", []⟩⟩ none
  let notices : Plan := .scan ⟨⟨2⟩, none, false, ⟨"notices", []⟩⟩ none
  let about : Condition := ⟨.symbolic (.var ⟨7⟩), .column (.symbolic (.var ⟨8⟩)), .equal⟩
  let reviewed : Plan := .binary (.outerJoin ⟨[[about]]⟩) counted reviews none
  .unary (.distinct [.symbolic (.var ⟨3⟩)]) (.binary .product reviewed notices none) none

/-- The reviews and notices of every book. -/
def noticesByBook : Query :=
  .symbolic (.unary (.group ⟨[.symbolic (.var ⟨3⟩)], [.symbolic (.var ⟨9⟩)],
    [.symbolic (.document ⟨2⟩)], none⟩) noticedBooks none)

/-- The theorem at a plan with an aggregation between its scans: the last two scans are nested, with
three columns. -/
theorem resolve_group_noticesByBook :
    noticedBooks.Flat ∧ (∀ n ∈ noticesByBook.root.postorder, n.Referable) ∧
      ∃ r g' p' out, noticesByBook.resolve true = .done r ∧
        r.root = .unary (.group g') p' (some out) ∧ noticedBooks.resolve true = .done p' ∧
        ∃ kept folded css css' ws, Trails (noticedBooks.postorder.filter isHolder) kept folded ∧
          List.Forall₂ Introduces kept css ∧ List.Forall₂ Introduces folded css' ∧
          p'.output.columns = css.flatten ++ css'.flatten ∧
          out.columns = css.flatten ++ [.nested none css'.flatten] ∧
          List.Forall₂ (fun n w => ∃ s d, n = scan s d ∧ s.width = some w) folded ws ∧
          out.width + ws.sum = p'.output.width + 1 := by
  have hflat : noticedBooks.Flat := by
    refine .unary trivial (.binary trivial (.binary trivial ?_ (.scan _)) (.scan _))
    exact .unary (Nat.le_refl 1) (.scan _)
  have hrefs : ∀ n ∈ noticesByBook.root.postorder, n.Referable := by decide
  exact ⟨hflat, hrefs, resolve_group rfl hflat hrefs⟩

end Query

end TwigAlgebra
