import Mathlib.Data.List.DropRight
import TwigAlgebra.Proofs.Conservation

/-!
# The scans at the end of a plan

How many columns a grouping folds is found without looking at its input's schema: the operators
that introduce variables are listed in post-order, and from the end of the list the widths of
scans without document identifier are added up, as long as there are any; the first operator of
the list is left out. Resolution changes references only, so the number is the same before and
after it.

## Main definitions

* `Plan.Trails` — a list of operators ends in a longest run of plain scans.
* `Plan.introduced?` — the columns that an operator introduces, computed.

## Main results

* `Plan.exists_trails` — every list of operators splits like that.
* `Plan.trailingWidth_eq_some_iff` — the number of columns that a grouping folds.
* `Plan.trailingWidth_of_resolve` — resolution does not change it.
* `Plan.introduced?_eq_some_iff` — what an operator introduces is determined.
-/

namespace TwigAlgebra

namespace Plan

variable {checked : Bool} {p r n m : Plan} {k : Nat} {holders kept folded : List Plan}
  {css css' : List (List Column)}

/-! ### The longest run -/

/-- Of the operators in the list, `folded` are the longest run of plain scans at the end; the first
operator is kept in any case. -/
structure Trails (holders kept folded : List Plan) : Prop where
  /-- The list is split. -/
  split : holders = kept ++ folded
  /-- At least the first operator is kept. -/
  kept_ne_nil : kept ≠ []
  /-- The others are scans without document identifier. -/
  plain : ∀ n ∈ folded, n.isPlainScan = true
  /-- The run is not longer because it has come to the first operator, or to one that ends it. -/
  longest : kept.length = 1 ∨ ∃ n, kept.getLast? = some n ∧ n.isPlainScan = false

/-- What is folded, from the last scan on. -/
theorem Trails.takeWhile_eq (h : Trails holders kept folded) :
    (holders.drop 1).reverse.takeWhile isPlainScan = folded.reverse := by
  obtain ⟨first, others, rfl⟩ := List.exists_cons_of_ne_nil h.kept_ne_nil
  have hall : ∀ n ∈ folded.reverse, n.isPlainScan = true := fun n hn =>
    h.plain n (List.mem_reverse.mp hn)
  -- the last holder that is kept is no plain scan, or there is only the first one
  have hstop : others.reverse.takeWhile isPlainScan = [] := by
    rcases List.eq_nil_or_concat others with rfl | ⟨init, last, rfl⟩
    · rfl
    · rcases h.longest with hlength | ⟨n, hn, hplain⟩
      · simp at hlength
      · rw [List.concat_eq_append, ← List.cons_append, List.getLast?_concat,
          Option.some.injEq] at hn
        rw [List.concat_eq_append, List.reverse_append, List.reverse_singleton,
          List.singleton_append, List.takeWhile_cons_of_neg (by rw [hn, hplain]; decide)]
  rw [h.split, List.cons_append, List.drop_one, List.tail_cons, List.reverse_append,
    List.takeWhile_append_of_pos hall, hstop, List.append_nil]

/-- Every list of operators, unless it is empty, ends in a longest run. -/
theorem exists_trails (h : holders ≠ []) : ∃ kept folded, Trails holders kept folded := by
  obtain ⟨first, others, rfl⟩ := List.exists_cons_of_ne_nil h
  refine ⟨first :: others.rdropWhile isPlainScan, others.rtakeWhile isPlainScan, ?_,
    List.cons_ne_nil _ _, fun n hn => List.mem_rtakeWhile_imp hn, ?_⟩
  · rw [List.cons_append, List.rdropWhile_append_rtakeWhile]
  · by_cases hrest : others.rdropWhile isPlainScan = []
    · exact Or.inl (by rw [hrest]; rfl)
    · refine Or.inr ⟨(others.rdropWhile isPlainScan).getLast hrest, ?_, ?_⟩
      · rw [List.getLast?_cons, List.getLast?_eq_some_getLast hrest, Option.getD_some]
      · exact Bool.not_eq_true _ ▸ List.rdropWhile_last_not isPlainScan others hrest

/-- Every plan has a scan. -/
theorem filter_isHolder_ne_nil (p : Plan) : p.postorder.filter isHolder ≠ [] := by
  induction p with
  | scan s d => exact List.cons_ne_nil _ _
  | unary op p d ih =>
    rw [postorder_unary, List.filter_append]
    exact List.append_ne_nil_of_left_ne_nil ih _
  | binary op l r d ihl _ =>
    rw [postorder_binary, List.filter_append, List.filter_append, List.append_assoc]
    exact List.append_ne_nil_of_left_ne_nil ihl _

/-! ### The width of the run -/

theorem scanRunWidth_of_forall₂ {l : List Plan} {widths : List Nat}
    (h : List.Forall₂ (fun q w => ∃ s d, q = scan s d ∧ s.width = some w) (l.takeWhile isPlainScan)
      widths) : scanRunWidth l = some widths.sum := by
  induction l generalizing widths with
  | nil =>
    cases h
    rfl
  | cons q rest ih =>
    cases hplain : q.isPlainScan with
    | false =>
      -- the run ends here
      rw [List.takeWhile_cons_of_neg (by rw [hplain]; decide)] at h
      cases h
      cases q with
      | scan s d =>
        have hdocId : s.attachDocId = true := by simpa [isPlainScan] using hplain
        rw [scanRunWidth, if_pos hdocId]
        rfl
      | unary op p d => rfl
      | binary op l r d => rfl
    | true =>
      rw [List.takeWhile_cons_of_pos hplain] at h
      cases h with
      | @cons _ w _ widths hw hrest =>
        obtain ⟨s, d, rfl, hwidth⟩ := hw
        have hdocId : s.attachDocId = false := by simpa [isPlainScan] using hplain
        rw [scanRunWidth, if_neg (by rw [hdocId]; decide), hwidth, ih hrest]
        rfl

/-- The number of columns that a grouping folds is that of the scans at the end. -/
theorem trailingWidth_eq_some_iff : p.trailingWidth = some k ↔ p.Folds k := by
  refine ⟨folds_of_trailingWidth, ?_⟩
  rintro ⟨widths, hwidths, rfl⟩
  exact scanRunWidth_of_forall₂ hwidths

/-! ### Resolution -/

/-- The operators that introduce variables are the same after resolution, but for their
references. -/
theorem forall₂_holders_of_resolve (h : p.resolve checked = .done r) :
    List.Forall₂ (fun n m => ∃ f, Recast f n m) (p.postorder.filter isHolder)
      (r.postorder.filter isHolder) := by
  have hall : List.Forall₂ (fun n m => ∃ f, Recast f n m) p.postorder r.postorder :=
    (forall₂_recast_of_resolve h).imp fun n m hrecast => ⟨_, hrecast⟩
  refine List.rel_filter ?_ hall
  rintro n m ⟨f, hrecast⟩
  cases hrecast with
  | unary op p p' d d' => cases op <;> exact Iff.rfl
  | _ => exact Iff.rfl

theorem scanRunWidth_congr {l l' : List Plan}
    (h : List.Forall₂ (fun n m => ∃ f, Recast f n m) l l') : scanRunWidth l' = scanRunWidth l := by
  induction h with
  | nil => rfl
  | cons hrecast _ ih =>
    obtain ⟨f, hrecast⟩ := hrecast
    cases hrecast with
    | scan s d d' => rw [scanRunWidth, scanRunWidth, ih]
    | _ => rfl

/-- Resolution does not change how many columns a grouping folds. -/
theorem trailingWidth_of_resolve (h : p.resolve checked = .done r) :
    r.trailingWidth = p.trailingWidth :=
  scanRunWidth_congr (List.rel_reverse (List.forall₂_drop 1 (forall₂_holders_of_resolve h)))

/-! ### Introduced columns -/

theorem schema_of_emits {s : Scan} {cs : List Column} (h : s.Emits cs) : s.schema = some ⟨cs⟩ := by
  obtain ⟨body, rfl, hbody⟩ := h
  refine Option.map_eq_some_iff.mpr ⟨body, ?_, rfl⟩
  rw [Scan.bodyColumns]
  cases hp : s.pattern with
  | none =>
    rw [hp] at hbody
    exact congrArg some hbody.symm
  | some q =>
    rw [hp] at hbody
    obtain ⟨vs, hvs, rfl⟩ := hbody
    exact Option.map_eq_some_iff.mpr ⟨vs, Pattern.boundVars_eq_some_iff.mpr hvs, rfl⟩

/-- The columns that the top operator introduces, if it does and the slots of its pattern exist. -/
def introduced? : Plan → Option (List Column)
  | scan s _ => s.schema.map Schema.columns
  | unary (.aggregate a) _ _ => some [.carrying (.var a.result) a.function.resultType]
  | _ => none

theorem introduced?_eq_some_iff {cs : List Column} : n.introduced? = some cs ↔ n.Introduces cs := by
  cases n with
  | scan s d =>
    rw [introduced?, Option.map_eq_some_iff]
    constructor
    · rintro ⟨out, hout, rfl⟩
      exact emits_of_schema hout
    · exact fun hemits => ⟨_, schema_of_emits hemits, rfl⟩
  | unary op p d =>
    cases op with
    | aggregate a => exact Option.some_inj.trans eq_comm
    | _ => exact iff_of_false nofun id
  | binary op l r d => exact iff_of_false nofun id

theorem mapM_introduced?_eq_some_iff :
    holders.mapM introduced? = some css ↔ List.Forall₂ Introduces holders css := by
  induction holders generalizing css with
  | nil => cases css <;> simp
  | cons n holders ih =>
    simp only [List.mapM_cons, Option.bind_eq_bind, Option.bind_eq_some_iff,
      introduced?_eq_some_iff, ih, Option.pure_def, Option.some_inj, List.forall₂_cons_left_iff]
    exact exists_congr fun cs => ⟨fun ⟨h, css, hcss, heq⟩ => ⟨css, h, hcss, heq.symm⟩,
      fun ⟨css, h, hcss, heq⟩ => ⟨h, css, hcss, heq.symm⟩⟩

/-- What operators introduce is determined. -/
theorem introduces_unique (h : List.Forall₂ Introduces holders css)
    (h' : List.Forall₂ Introduces holders css') : css = css' := by
  rw [← mapM_introduced?_eq_some_iff] at h h'
  exact Option.some.inj (h.symm.trans h')

/-- Plain scans emit as many columns as their widths say. -/
theorem exists_widths_of_plain (h : List.Forall₂ Introduces holders css)
    (hplain : ∀ n ∈ holders, n.isPlainScan = true) :
    ∃ ws, List.Forall₂ (fun q w => ∃ s d, q = scan s d ∧ s.width = some w) holders ws ∧
      css.flatten.length = ws.sum := by
  induction h with
  | nil => exact ⟨[], .nil, rfl⟩
  | @cons n cs _ _ hn _ ih =>
    rw [List.forall_mem_cons] at hplain
    obtain ⟨ws, hws, hlength⟩ := ih hplain.2
    cases n with
    | scan s d =>
      refine ⟨cs.length :: ws, .cons ⟨s, d, rfl, width_of_emits hn⟩ hws, ?_⟩
      rw [List.flatten_cons, List.length_append, hlength, List.sum_cons]
    | unary op p d => cases hplain.1
    | binary op l r d => cases hplain.1

/-- A grouping folds the columns that the longest run introduces. -/
theorem Trails.folds (h : Trails (p.postorder.filter isHolder) kept folded)
    (hcss : List.Forall₂ Introduces folded css) : p.Folds css.flatten.length := by
  obtain ⟨ws, hws, hlength⟩ := exists_widths_of_plain hcss h.plain
  refine ⟨ws.reverse, ?_, ?_⟩
  · rw [trailingScans, h.takeWhile_eq]
    exact List.rel_reverse hws
  · rw [hlength, List.sum_reverse]

end Plan

end TwigAlgebra
