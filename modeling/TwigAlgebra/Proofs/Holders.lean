import TwigAlgebra.Proofs.FirstPath
import TwigAlgebra.Proofs.WellFormed

/-!
# Where columns come from

Scans and aggregations introduce columns, and every other operator only arranges those of its
inputs.  So whatever key a column of a resolved plan carries, it was introduced below.

## Main definitions

* `Plan.Introduces` — the columns that a scan or an aggregation introduces.

## Main results

* `Plan.exists_introducesKey` — every key of an output was introduced.
-/

namespace TwigAlgebra

namespace Plan

variable {checked : Bool} {p r : Plan}

/-- The columns that the top operator introduces, if it is a scan or an aggregation: those that the
scan emits, or the one that holds the result of the aggregation. -/
def Introduces : Plan → List Column → Prop
  | scan s _, cs => s.Emits cs
  | unary (.aggregate a) _ _, cs => cs = [.carrying (.var a.result) a.function.resultType]
  | _, _ => False

/-! ### Induction over a plan -/

/-- What passes from the inputs to an operator that is fit for it holds of all operators of a plan
that has fit ones only. -/
theorem forall_mem_postorder {P Fit : Plan → Prop}
    (step : ∀ n, Fit n → (∀ q ∈ n.inputs, P q) → P n) (h : ∀ n ∈ r.postorder, Fit n) :
    ∀ n ∈ r.postorder, P n := by
  have hall : ∀ n, (∀ m ∈ n.postorder, Fit m) → P n := by
    intro n hn
    induction n with
    | scan s d => exact step _ (hn _ (mem_postorder_self _)) nofun
    | unary op p d ih =>
      refine step _ (hn _ (mem_postorder_self _)) fun q hq => ?_
      rw [List.mem_singleton.mp hq]
      exact ih fun m hm => hn m (List.mem_append_left _ hm)
    | binary op left right d ihl ihr =>
      refine step _ (hn _ (mem_postorder_self _)) fun q hq => ?_
      rcases List.mem_cons.mp hq with rfl | hq
      · exact ihl fun m hm => hn m (List.mem_append_left _ (List.mem_append_left _ hm))
      · rw [List.mem_singleton.mp hq]
        exact ihr fun m hm => hn m (List.mem_append_left _ (List.mem_append_right _ hm))
  exact fun n hn => hall n fun m hm => h m ((postorder_sublist hn).subset hm)

/-! ### The operators of a resolved plan -/

/-- Every operator of a resolved plan yields the output that it carries. -/
theorem yields_of_resolve (h : p.resolve checked = .done r) :
    ∀ n ∈ r.postorder, n.Yields n.output.columns := by
  intro n hn
  obtain ⟨out, hschema, hyields⟩ := (wellFormed_of_resolve h n hn).schema
  rwa [output_eq hschema]

/-! ### Keys are introduced -/

/-- Columns that are introduced are scalars with a key. -/
theorem Introduces.exists_carrying {n : Plan} {cs : List Column} (h : n.Introduces cs) :
    ∀ c ∈ cs, ∃ key t, c = .carrying key t := by
  intro c hc
  cases n with
  | scan s d =>
    obtain ⟨body, rfl, hbody⟩ := h
    rcases List.mem_append.mp hc with hc | hc
    · split at hc
      · exact ⟨_, _, List.mem_singleton.mp hc⟩
      · cases hc
    · cases hp : s.pattern with
      | none =>
        rw [hp] at hbody
        subst hbody
        exact ⟨_, _, List.mem_singleton.mp hc⟩
      | some p =>
        rw [hp] at hbody
        obtain ⟨vs, -, rfl⟩ := hbody
        obtain ⟨v, -, rfl⟩ := List.mem_map.mp hc
        exact ⟨_, _, rfl⟩
  | unary op p d =>
    cases op with
    | aggregate a =>
      cases h
      exact ⟨_, _, List.mem_singleton.mp hc⟩
    | _ => exact h.elim
  | binary op l r d => exact h.elim

/-- The key is introduced by the top operator. -/
def IntroducesKey (n : Plan) (key : ColumnKey) : Prop :=
  ∃ cs, n.Introduces cs ∧ ∃ c ∈ cs, c.origin = some key

theorem Introduces.introducesKey {n : Plan} {cs : List Column} (h : n.Introduces cs)
    {key : ColumnKey} (hkey : key ∈ Column.keysAll cs) : n.IntroducesKey key := by
  rw [Column.keysAll_eq_flatMap] at hkey
  obtain ⟨c, hc, hkey⟩ := List.mem_flatMap.mp hkey
  obtain ⟨key', t, rfl⟩ := h.exists_carrying c hc
  exact ⟨cs, h, _, hc, congrArg some (List.mem_singleton.mp hkey).symm⟩

/-- A key of an output is introduced by the operator or comes from an input. -/
theorem Yields.introducesKey_or {n : Plan} {out : List Column} (h : n.Yields out)
    {key : ColumnKey} (hkey : key ∈ Column.keysAll out) :
    n.IntroducesKey key ∨ ∃ q ∈ n.inputs, key ∈ q.output.keys := by
  cases n with
  | scan s d => exact Or.inl (Introduces.introducesKey (n := scan s d) h hkey)
  | unary op p d =>
    -- there is one input, so that it need not be named
    refine (?_ : _ ∨ key ∈ p.output.keys).imp_right fun h => ⟨p, List.mem_singleton_self p, h⟩
    rw [Schema.keys]
    cases op with
    | select c => cases h; exact Or.inr hkey
    | distinct cs => cases h; exact Or.inr hkey
    | construct t => cases h; exact Or.inr hkey
    | project cs =>
      rw [Column.keysAll_eq_flatMap] at hkey ⊢
      obtain ⟨c, hc, hkey⟩ := List.mem_flatMap.mp hkey
      -- a listed column is one of the input, with all that is inside it
      obtain ⟨ref, -, i, -, hi⟩ := h.exists_of_mem_right hc
      exact Or.inr (List.mem_flatMap.mpr ⟨c, List.mem_of_getElem? hi, hkey⟩)
    | group g =>
      obtain ⟨kept, folded, -, hin, rfl⟩ := h
      rw [hin]
      simpa [Column.keysAll_append, Column.keys] using Or.inr hkey
    | aggregate a =>
      cases h
      rw [Column.keysAll_append, List.mem_append] at hkey
      exact hkey.symm.imp_left (Introduces.introducesKey (n := unary (.aggregate a) p d) rfl)
    | flatten c =>
      obtain ⟨before, origin, inside, after, -, hin, rfl⟩ := h
      rw [hin]
      -- only the key of the column that is taken apart may be lost
      simp only [Column.keysAll_append, Column.keysAll_cons, Column.keys, List.mem_append] at hkey ⊢
      exact Or.inr (hkey.elim (Or.imp_right fun h => Or.inl (Or.inr h)) fun h => Or.inr (Or.inr h))
  | binary op l r d =>
    right
    have hboth : key ∈ l.output.keys ∨ key ∈ r.output.keys := by
      cases op with
      | nestedJoin j =>
        cases h
        simpa [Schema.keys, Column.keysAll_append, Column.keys] using hkey
      | product | join | outerJoin =>
        cases h
        simpa [Schema.keys, Column.keysAll_append] using hkey
    rcases hboth with h | h
    · exact ⟨l, List.mem_cons_self, h⟩
    · exact ⟨r, List.mem_cons_of_mem _ (List.mem_singleton_self r), h⟩

/-- Every key of the output of a resolved plan was introduced in it. -/
theorem exists_introducesKey (h : p.resolve checked = .done r) :
    ∀ n ∈ r.postorder, ∀ key ∈ n.output.keys, ∃ m ∈ n.postorder, m.IntroducesKey key := by
  refine forall_mem_postorder (fun n hyields hin key hkey => ?_) (yields_of_resolve h)
  rcases hyields.introducesKey_or hkey with hself | ⟨q, hq, hbelow⟩
  · exact ⟨n, mem_postorder_self n, hself⟩
  · obtain ⟨m, hm, hintro⟩ := hin q hq key hbelow
    refine ⟨m, ?_, hintro⟩
    rw [postorder_eq]
    exact List.mem_append_left _ (List.mem_flatMap_of_mem hq hm)

end Plan

end TwigAlgebra
