import Mathlib.Data.List.Flatten
import TwigAlgebra.Proofs.Pruning

/-!
# Minimising finite trees

A pattern that the check has not seen may have several nodes with one code, or variables that record
other nodes.  As long as it is a finite tree, minimising it does not get lost, and what it leaves is
a finite tree again: every edit on the way only takes edges from nodes.  Whole branches may go with
the edges, even branches that bind variables, but variables are never reordered, and the check after
the rules reports when some are gone.

## Main definitions

* `Node.Sheds`, `Pattern.Sheds` — nodes lose edges, and nothing else that matters here.
* `Pattern.Trims` — a finite tree that binds some of the variables, in the same order.
* `PlanError.ReportsDrop` — the report that variables are gone.

## Main results

* `Pattern.Sheds.exists_spans` — what is left of a forest is a forest.
* `Pattern.Sheds.exists_pruneFrom`, `Pattern.Sheds.exists_removeEdges` — the edits take edges only.
* `Pattern.Unfolds.exists_minimise` — minimising a finite tree keeps the variables or reports that
  some are gone.
-/

namespace TwigAlgebra

/-- The error reports that minimisation lost variables. -/
def PlanError.ReportsDrop (e : PlanError) : Prop :=
  ∃ code count, e = .malformed code (.droppedVariables count)

/-- The node `m` is `n` with fewer edges; it binds the same variables and stores as much for
them. -/
structure Node.Sheds (n m : Node) : Prop where
  /-- The bindings stay. -/
  bindings : m.bindings = n.bindings
  /-- The edges that are left keep their order. -/
  edges : m.edges.Sublist n.edges

namespace Node.Sheds

variable {n m k : Node}

theorem refl (n : Node) : n.Sheds n := ⟨rfl, List.Sublist.refl _⟩

theorem trans (hnm : n.Sheds m) (hmk : m.Sheds k) : n.Sheds k :=
  ⟨hmk.bindings.trans hnm.bindings, hmk.edges.trans hnm.edges⟩

theorem children (h : n.Sheds m) : m.children.Sublist n.children := h.edges.map _

end Node.Sheds

namespace Pattern

/-- Every node of `p` is still in its slot of `q`, with fewer edges. -/
structure Sheds (p q : Pattern) : Prop where
  /-- The name stays. -/
  name : q.name = p.name
  /-- The root stays. -/
  root : q.root = p.root
  /-- The nodes lose edges only. -/
  nodes : ∀ i n, p.node? i = some n → ∃ m, q.node? i = some m ∧ n.Sheds m

variable {p q r : Pattern} {f below : Forest} {i : Handle} {fuel : Nat}

namespace Sheds

theorem refl (p : Pattern) : p.Sheds p := ⟨rfl, rfl, fun _ n hn => ⟨n, hn, .refl n⟩⟩

theorem trans (hpq : p.Sheds q) (hqr : q.Sheds r) : p.Sheds r where
  name := hqr.name.trans hpq.name
  root := hqr.root.trans hpq.root
  nodes i n hn := by
    obtain ⟨m, hm, hnm⟩ := hpq.nodes i n hn
    obtain ⟨k, hk, hmk⟩ := hqr.nodes i m hm
    exact ⟨k, hk, hnm.trans hmk⟩

theorem forget (p : Pattern) : p.Sheds p.forget where
  name := rfl
  root := rfl
  nodes i n hn := ⟨{ n with topMemo := none }, by rw [node?_forget, hn, Option.map_some],
    rfl, List.Sublist.refl _⟩

/-! ### Forests that lose edges -/

/-- Some of the top slots of a forest span a forest again, of slots in the same order. -/
theorem exists_spans (h : p.Sheds q) (hf : p.Spans f) {l : List Handle}
    (hl : l.Sublist f.roots) :
    ∃ g : Forest, q.Spans g ∧ g.roots = l ∧ g.handles.Sublist f.handles := by
  induction f generalizing l with
  | nil =>
    rw [Forest.roots_nil, List.sublist_nil] at hl
    exact ⟨.nil, trivial, hl.symm, List.Sublist.refl _⟩
  | cons i below rest ihb ihr =>
    obtain ⟨hi, hbelow, hrest⟩ := hf
    rw [Forest.handles_cons]
    rcases List.sublist_cons_iff.mp hl with htail | ⟨l', rfl, htail⟩
    · -- the first tree is gone
      obtain ⟨g, hg, hroots, hsub⟩ := ihr hrest htail
      exact ⟨g, hg, hroots, (hsub.trans (List.sublist_append_right _ _)).cons i⟩
    · -- the first tree stays, with some of the trees below its top
      obtain ⟨n, hn, hchildren⟩ := children?_eq_some_iff.mp hi
      obtain ⟨m, hm, hsheds⟩ := h.nodes i n hn
      obtain ⟨g₁, hg₁, hroots₁, hsub₁⟩ := ihb hbelow (hchildren ▸ hsheds.children)
      obtain ⟨g₂, hg₂, hroots₂, hsub₂⟩ := ihr hrest htail
      refine ⟨.cons i g₁ g₂, ⟨?_, hg₁, hg₂⟩, by rw [Forest.roots_cons, hroots₂], ?_⟩
      · rw [children?, hm, hroots₁]
        rfl
      · exact (hsub₁.append hsub₂).cons_cons i

/-- The slots of a forest bind what they bound. -/
theorem flatMap_bindings_eq (h : p.Sheds q) (hf : p.Spans f) {l : List Handle}
    (hl : l ⊆ f.handles) :
    (l.filterMap q.node?).flatMap (·.bindings) = (l.filterMap p.node?).flatMap (·.bindings) := by
  induction l with
  | nil => rfl
  | cons i l ih =>
    obtain ⟨n, hn⟩ := hf.exists_node (hl List.mem_cons_self)
    obtain ⟨m, hm, hsheds⟩ := h.nodes i n hn
    rw [List.filterMap_cons_some hm, List.filterMap_cons_some hn, List.flatMap_cons,
      List.flatMap_cons, hsheds.bindings, ih fun j hj => hl (List.mem_cons_of_mem _ hj)]

/-! ### Edits that take edges -/

/-- Changing a node in a way that sheds edges. -/
theorem exists_update (h : p.Sheds q) (hi : i < p.size) {g : Node → Node}
    (hg : ∀ n m, p.node? i = some n → q.node? i = some m → n.Sheds m → n.Sheds (g m)) :
    ∃ r, q.update i g = some r ∧ p.Sheds r := by
  obtain ⟨n, hn⟩ : ∃ n, p.node? i = some n := ⟨p.nodes[i], Array.getElem?_eq_getElem hi⟩
  obtain ⟨m, hm, hsheds⟩ := h.nodes i n hn
  have hsome : (q.update i g).isSome := by rw [isSome_update, hm, Option.isSome_some]
  obtain ⟨r, hr⟩ := Option.isSome_iff_exists.mp hsome
  refine ⟨r, hr, (name_update hr).trans h.name, (root_update hr).trans h.root, fun j k hk => ?_⟩
  obtain ⟨k', hk', hsheds'⟩ := h.nodes j k hk
  rw [node?_update hr]
  by_cases hij : i = j
  · subst hij
    rw [if_pos rfl, hk', Option.map_some]
    exact ⟨_, rfl, hg k k' hk hk' hsheds'⟩
  · rw [if_neg hij]
    exact ⟨k', hk', hsheds'⟩

/-- Changing the parent link of a node. -/
theorem exists_relink (h : p.Sheds q) (hi : i < p.size) (parent : Option Handle) :
    ∃ r, (q.update i fun n => { n with parent }) = some r ∧ p.Sheds r :=
  h.exists_update hi fun _ _ _ _ hsheds => ⟨hsheds.bindings, hsheds.edges⟩

theorem exists_unlinkAll (h : p.Sheds q) {es : List Edge} (hes : ∀ e ∈ es, e.child < p.size) :
    ∃ r, es.foldlM (fun p e => p.update e.child Node.unlinked) q = some r ∧ p.Sheds r := by
  induction es generalizing q with
  | nil => exact ⟨q, rfl, h⟩
  | cons e es ih =>
    obtain ⟨q', hq', h'⟩ : ∃ q', q.update e.child Node.unlinked = some q' ∧ p.Sheds q' :=
      h.exists_relink (hes e List.mem_cons_self) none
    obtain ⟨r, hr, hsheds⟩ := ih h' fun e' he' => hes e' (List.mem_cons_of_mem _ he')
    exact ⟨r, by rw [List.foldlM_cons, hq']; exact hr, hsheds⟩

/-- Detaching the children of a node leaves it without edges. -/
theorem exists_clearEdges (h : p.Sheds q) (hf : p.Spans (.cons i below .nil)) :
    ∃ r, q.clearEdges i = some r ∧ p.Sheds r ∧ ∀ m, r.node? i = some m → m.edges = [] := by
  obtain ⟨n, hn, hchildren⟩ := children?_eq_some_iff.mp hf.1
  obtain ⟨m, hm, hsheds⟩ := h.nodes i n hn
  have hcut : ∀ n m, p.node? i = some n → q.node? i = some m → n.Sheds m →
      n.Sheds { m with edges := [] } := fun _ _ _ _ hnm => ⟨hnm.bindings, List.nil_sublist _⟩
  obtain ⟨q₁, hq₁, h₁⟩ := h.exists_update (hf.lt_size List.mem_cons_self) hcut
  have hm₁ : q₁.node? i = some { m with edges := [] } := by
    rw [node?_update hq₁, if_pos rfl, hm, Option.map_some]
  have hsize : ∀ e ∈ m.edges, e.child < q₁.size := by
    intro e he
    have hmem : e.child ∈ below.roots := hchildren ▸ hsheds.children.subset (List.mem_map_of_mem he)
    obtain ⟨k, hk⟩ := hf.2.1.exists_node (Forest.mem_handles_of_mem_roots hmem)
    obtain ⟨k', hk', -⟩ := h₁.nodes _ k hk
    by_contra hlt
    rw [node?_eq_none_iff.mpr (Nat.le_of_not_lt hlt)] at hk'
    cases hk'
  -- from here on the node has no edges to lose
  obtain ⟨q₂, hq₂, h₂⟩ := (refl q₁).exists_unlinkAll hsize
  have hlast := h₂.trans (forget q₂)
  refine ⟨q₂.forget, ?_, h₁.trans hlast, fun k hk => ?_⟩
  · rw [clearEdges, hm]
    simp only [Option.bind_eq_bind, Option.bind_some, hq₁]
    exact congrArg (fun r => r.bind fun p => some p.forget) hq₂
  · obtain ⟨k', hk', hsheds'⟩ := hlast.nodes i _ hm₁
    cases hk.symm.trans hk'
    exact List.sublist_nil.mp hsheds'.edges

/-- Making one child the only one. -/
theorem exists_keepOnly (h : p.Sheds q) (hf : p.Spans (.cons i below .nil)) {n : Node}
    (hn : p.node? i = some n) {e : Edge} (he : e ∈ n.edges) :
    ∃ r, q.keepOnly i e = some r ∧ p.Sheds r := by
  obtain ⟨n', hn', hchildren⟩ := children?_eq_some_iff.mp hf.1
  cases hn.symm.trans hn'
  have hchild : e.child ∈ below.roots := hchildren ▸ List.mem_map_of_mem he
  -- after all edges are gone, the kept one is put back: it is still one of the edges before
  obtain ⟨q₁, hq₁, h₁, hnone⟩ := h.exists_clearEdges hf
  have hkeep : ∀ k m, p.node? i = some k → q₁.node? i = some m → k.Sheds m →
      k.Sheds { m with edges := m.edges ++ [e] } := by
    intro k m hk hm hsheds
    cases hn.symm.trans hk
    refine ⟨hsheds.bindings, ?_⟩
    show (m.edges ++ [e]).Sublist n.edges
    rw [hnone m hm, List.nil_append]
    exact List.singleton_sublist.mpr he
  obtain ⟨q₂, hq₂, h₂⟩ := h₁.exists_update (hf.lt_size List.mem_cons_self) hkeep
  obtain ⟨r, hr, h₃⟩ :=
    h₂.exists_relink (hf.2.1.lt_size (Forest.mem_handles_of_mem_roots hchild)) (some i)
  refine ⟨r, ?_, h₃⟩
  rw [keepOnly, hq₁]
  simp only [Option.bind_eq_bind, Option.bind_some, hq₂]
  exact hr

/-- Pruning below edges of a slot takes edges only if visiting their targets does, whether it finds
the goal or not. -/
theorem exists_pruneEdges {visit : Handle → Pattern → Option (Bool × Pattern)} {n : Node}
    (hf : p.Spans (.cons i below .nil)) (hn : p.node? i = some n)
    (hvisit : ∀ e ∈ n.edges, ∀ q, p.Sheds q →
      ∃ found r, visit e.child q = some (found, r) ∧ p.Sheds r)
    {es : List Edge} (hes : es ⊆ n.edges) (h : p.Sheds q) :
    ∃ found r, pruneEdges visit i es q = some (found, r) ∧ p.Sheds r := by
  induction es generalizing q with
  | nil =>
    obtain ⟨r, hr, hsheds, -⟩ := h.exists_clearEdges hf
    exact ⟨false, r, by rw [pruneEdges, hr]; rfl, hsheds⟩
  | cons e es ih =>
    have he : e ∈ n.edges := hes List.mem_cons_self
    obtain ⟨found, q₁, hq₁, h₁⟩ := hvisit e he q h
    rw [pruneEdges, hq₁]
    cases found with
    -- the first edge behind which the search succeeds is kept, and the rest is not looked at
    | true =>
      obtain ⟨r, hr, hsheds⟩ := h₁.exists_keepOnly hf hn he
      exact ⟨true, r, by simp [hr], hsheds⟩
    | false => exact ih (fun e' he' => hes (List.mem_cons_of_mem _ he')) h₁

/-- Pruning to a code takes edges only, wherever the search succeeds first. -/
theorem exists_pruneFrom (code : Code) (h : p.Sheds q) (hf : p.Spans (.cons i below .nil))
    (hfuel : below.height < fuel) :
    ∃ found r, pruneFrom code fuel i q = some (found, r) ∧ p.Sheds r := by
  induction fuel generalizing i below q with
  | zero => omega
  | succ fuel ih =>
    obtain ⟨n, hn, hchildren⟩ := children?_eq_some_iff.mp hf.1
    have hvisit : ∀ e ∈ n.edges, ∀ q, p.Sheds q →
        ∃ found r, pruneFrom code fuel e.child q = some (found, r) ∧ p.Sheds r := by
      intro e he q h
      have hchild : e.child ∈ below.roots := hchildren ▸ List.mem_map_of_mem he
      obtain ⟨b, hb, -, hheight⟩ :=
        hf.2.1.exists_subtree (Forest.mem_handles_of_mem_roots hchild)
      exact ih h hb (by omega)
    obtain ⟨m, hm, hsheds⟩ := h.nodes i n hn
    rw [pruneFrom, hm]
    simp only [Option.bind_eq_bind, Option.bind_some]
    by_cases hcode : m.code = code
    · obtain ⟨r, hr, hr', -⟩ := h.exists_clearEdges hf
      exact ⟨true, r, by rw [if_pos hcode, hr]; rfl, hr'⟩
    · rw [if_neg hcode]
      -- the edges are those that the node has when the search arrives
      exact exists_pruneEdges hf hn hvisit hsheds.edges.subset h

/-- Removing the edges to a child takes edges only. -/
theorem exists_removeEdge (h : p.Sheds q) (hi : i < p.size) {c : Handle} (hc : c < p.size) :
    ∃ found r, q.removeEdge i c = some (found, r) ∧ p.Sheds r := by
  obtain ⟨n, hn⟩ : ∃ n, p.node? i = some n := ⟨p.nodes[i], Array.getElem?_eq_getElem hi⟩
  obtain ⟨m, hm, hsheds⟩ := h.nodes i n hn
  rw [removeEdge, hm]
  by_cases hlength : (m.edges.filter (·.child ≠ c)).length = m.edges.length
  · -- no edge leads to the child, so that nothing is written
    refine ⟨false, q, ?_, h⟩
    simp only [Option.bind_eq_bind, Option.bind_some, hlength, if_true]
    rfl
  · have hcut : ∀ k m', p.node? i = some k → q.node? i = some m' → k.Sheds m' →
        k.Sheds { m' with edges := m.edges.filter (·.child ≠ c) } := by
      intro k m' hk _ hkm
      cases hn.symm.trans hk
      exact ⟨hkm.bindings, List.filter_sublist.trans hsheds.edges⟩
    obtain ⟨q₁, hq₁, h₁⟩ := h.exists_update hi hcut
    obtain ⟨q₂, hq₂, h₂⟩ := h₁.exists_relink hc none
    refine ⟨true, q₂.forget, ?_, h₂.trans (forget q₂)⟩
    simp only [Option.bind_eq_bind, Option.bind_some, hlength, if_false, hq₁, hq₂]
    rfl

/-- Removing branches edge by edge takes edges only. -/
theorem exists_removeEdges (h : p.Sheds q) (drop : List Handle) {rs : List (Handle × Handle)}
    (hrs : ∀ r ∈ rs, r.1 < p.size ∧ r.2 < p.size) :
    ∃ r, removeEdges drop rs q = some r ∧ p.Sheds r := by
  induction rs generalizing q with
  | nil => exact ⟨q, rfl, h⟩
  | cons edge rs ih =>
    obtain ⟨parent, child⟩ := edge
    obtain ⟨hparent, hchild⟩ := hrs _ List.mem_cons_self
    have hrest : ∀ r ∈ rs, r.1 < p.size ∧ r.2 < p.size := fun r hr =>
      hrs r (List.mem_cons_of_mem _ hr)
    -- a parent that goes itself is skipped
    by_cases hdrop : parent ∈ drop
    · obtain ⟨r, hr, hsheds⟩ := ih h hrest
      exact ⟨r, by simp [removeEdges, hdrop, hr], hsheds⟩
    · obtain ⟨found, q₁, hq₁, h₁⟩ := h.exists_removeEdge hparent hchild
      obtain ⟨r, hr, hsheds⟩ := ih h₁ hrest
      exact ⟨r, by simp [removeEdges, hdrop, hq₁, hr], hsheds⟩

end Sheds

/-- Pruning a finite tree ends, whether it finds the code or not. -/
theorem Spans.exists_pruneTo (hf : p.Spans (.cons p.root below .nil)) (code : Code) :
    ∃ found q, p.pruneTo code = some (found, q) := by
  have hheight : below.height < p.size := by
    have hle := hf.height_le_size
    rw [Forest.height, Forest.height] at hle
    omega
  obtain ⟨found, q, hq, -⟩ := (Sheds.refl p).exists_pruneFrom code hf hheight
  exact ⟨found, q.forget, by rw [pruneTo, hq]; rfl⟩

/-! ### What is left of a finite tree -/

/-- The pattern `q` is a finite tree that binds some of the variables of the finite tree `p`, in the
same order, and stores as much for each. -/
structure Trims (p : Pattern) (f : Forest) (q : Pattern) (g : Forest) : Prop where
  /-- The name stays. -/
  name : q.name = p.name
  /-- What is left is a finite tree. -/
  unfolds : q.Unfolds g
  /-- No binding is new or moved. -/
  bindings : ((q.nodesOn g).flatMap (·.bindings)).Sublist ((p.nodesOn f).flatMap (·.bindings))

variable {g k : Forest}

theorem Trims.refl (hp : p.Unfolds f) : p.Trims f p f := ⟨rfl, hp, List.Sublist.refl _⟩

theorem Trims.trans (hpq : p.Trims f q g) (hqr : q.Trims g r k) : p.Trims f r k :=
  ⟨hqr.name.trans hpq.name, hqr.unfolds, hqr.bindings.trans hpq.bindings⟩

/-- What is left when a finite tree has lost edges. -/
theorem Sheds.exists_trims (h : p.Sheds q) (hp : p.Unfolds f) : ∃ g, p.Trims f q g := by
  obtain ⟨g, hg, hroots, hsub⟩ := h.exists_spans hp.spans (List.Sublist.refl _)
  refine ⟨g, h.name, ⟨hg, ?_⟩, ?_⟩
  · rw [hroots, hp.roots_eq, h.root]
  · rw [nodesOn, h.flatMap_bindings_eq hp.spans hsub.subset]
    exact (hsub.filterMap _).flatMap _

/-- Clearing unread data keeps every binding of a finite tree. -/
theorem Unfolds.exists_clearUnread_trims (hp : p.Unfolds f) :
    ∃ cleared q, p.clearUnread = some (cleared, q) ∧ p.Trims f q f := by
  obtain ⟨q, hclears, -, hq⟩ := hp.exists_clearUnread
  refine ⟨_, q, hq, hclears.name, hclears.thins.unfolds hp, ?_⟩
  rw [List.flatMap_def, hclears.thins.map_bindings_eq hp.spans fun _ => tag_mem_tagsOn,
    List.flatMap_def]

/-- Pruning a finite tree to the end of a chain leaves a finite tree. -/
theorem Unfolds.exists_pruneTo_trims (hp : p.Unfolds f) {drop : List Handle} {t : Handle}
    (hchain : p.Chain drop p.root t) :
    ∃ k found q g, p.node? t = some k ∧ p.pruneTo k.code = some (found, q) ∧ p.Trims f q g := by
  obtain ⟨below, rfl⟩ := Forest.exists_eq_of_roots_singleton hp.roots_eq
  obtain ⟨fuel, -, hsize, hheight, -, -⟩ := hp.spans.exists_fuel
  have ht := hp.spans.mem_of_below List.mem_cons_self
    (hchain.below_end hp.spans List.mem_cons_self)
  obtain ⟨k, hk⟩ := hp.spans.exists_node ht
  obtain ⟨found, q, hq, hsheds⟩ := (Sheds.refl p).exists_pruneFrom k.code hp.spans
    (by omega : below.height < p.size)
  obtain ⟨g, hg⟩ := (hsheds.trans (.forget q)).exists_trims hp
  exact ⟨k, found, q.forget, g, hk, by rw [pruneTo, hq]; rfl, hg⟩

/-- Removing branches of a finite tree edge by edge leaves a finite tree. -/
theorem Unfolds.exists_removeEdges_trims (hp : p.Unfolds f) {drop : List Handle}
    {rs : List (Handle × Handle)} (hrs : ∀ r, r ∈ rs ↔ p.Removable f r) :
    ∃ q g, removeEdges drop rs p = some q ∧ p.Trims f q g := by
  obtain ⟨q, hq, hsheds⟩ := (Sheds.refl p).exists_removeEdges drop fun r hr =>
    have hremovable := (hrs r).mp hr
    ⟨hp.spans.lt_size hremovable.parent, hp.spans.lt_size (hremovable.mem_handles hp.spans)⟩
  obtain ⟨g, hg⟩ := hsheds.exists_trims hp
  exact ⟨q, g, hq, hg⟩

/-- Removing inert branches from a finite tree leaves a finite tree. -/
theorem Unfolds.exists_pruneInert_trims (hp : p.Unfolds f) :
    ∃ pruned q g, p.pruneInert = some (pruned, q) ∧ p.Trims f q g := by
  obtain ⟨q, g, hq, htrims⟩ := hp.exists_pruneInert (fun q g h => h.unfolds) (fun _ => .refl hp)
    (fun _ _ _ hchain => hp.exists_pruneTo_trims hchain)
    (fun _ _ hrs _ => hp.exists_removeEdges_trims hrs)
  exact ⟨_, q, g, hq, htrims⟩

/-- The check after the rules accepts what is left if all variables are there, and reports how many
are gone otherwise. -/
theorem Trims.exists_checkKept (h : p.Trims f q g) (hp : p.Unfolds f) :
    ∃ kept, p.checkKept q = some kept ∧ (kept = .ok () ∧ q.boundVars = p.boundVars ∨
      ∃ e, kept = .error e ∧ e.ReportsDrop) := by
  have hlength (ns : List Node) :
      (ns.flatMap (·.vars)).length = (ns.flatMap (·.bindings)).length := by
    have hmap : (ns.flatMap (·.bindings)).map Prod.fst = ns.flatMap (·.vars) := by
      rw [List.map_flatMap]
      simp only [Node.map_fst_bindings]
    rw [← hmap, List.length_map]
  have hle := h.bindings.length_le
  -- variables are only taken away, so that as many as before are the same as before
  rcases Nat.eq_or_lt_of_le hle with heq | hlt
  · have hbindings := h.bindings.eq_of_length heq
    refine ⟨_, hp.checkKept_eq h.unfolds hbindings, Or.inl ⟨rfl, ?_⟩⟩
    rw [h.unfolds.boundVars_eq, hp.boundVars_eq, flatMap_vars_congr hbindings]
  · obtain ⟨below, rfl⟩ := Forest.exists_eq_of_roots_singleton h.unfolds.roots_eq
    obtain ⟨n, hn⟩ := h.unfolds.spans.exists_node List.mem_cons_self
    refine ⟨.error (.malformed n.code (.droppedVariables (((p.nodesOn f).flatMap (·.bindings)).length
      - ((q.nodesOn (.cons q.root below .nil)).flatMap (·.bindings)).length))), ?_,
      Or.inr ⟨_, rfl, _, _, rfl⟩⟩
    rw [checkKept, hp.boundVars_eq, h.unfolds.boundVars_eq]
    simp only [Option.bind_eq_bind, Option.bind_some, hlength, hn]
    rw [if_pos (Nat.ne_of_gt hlt)]
    rfl

/-- Minimising a finite tree leaves a finite tree, and either keeps its variables or reports that
some are gone. -/
theorem Unfolds.exists_minimise (hp : p.Unfolds f) (m : Minimisation) (unread : Bool) :
    ∃ q saved kept g, p.minimise m unread = some (q, saved, kept) ∧ p.Trims f q g ∧
      (kept = .ok () ∧ q.boundVars = p.boundVars ∨ ∃ e, kept = .error e ∧ e.ReportsDrop) := by
  -- the two rules in their order, each of which may be left out
  obtain ⟨cleared, q₁, hq₁, htrims₁⟩ : ∃ cleared q,
      (if (m.minimizeStorage && unread) = true then p.clearUnread else some (0, p))
        = some (cleared, q) ∧ p.Trims f q f := by
    split
    · exact hp.exists_clearUnread_trims
    · exact ⟨0, p, rfl, .refl hp⟩
  obtain ⟨pruned, q₂, g, hq₂, htrims₂⟩ : ∃ pruned q g,
      (if m.pruneBranches = true then q₁.pruneInert else some (0, q₁)) = some (pruned, q) ∧
        q₁.Trims f q g := by
    split
    · exact htrims₁.unfolds.exists_pruneInert_trims
    · exact ⟨0, q₁, f, rfl, .refl htrims₁.unfolds⟩
  have htrims := htrims₁.trans htrims₂
  obtain ⟨kept, hkept, hcases⟩ := htrims.exists_checkKept hp
  exact ⟨q₂, ⟨1, cleared, pruned⟩, kept, g, minimise_eq hq₁ hq₂ hkept, htrims, hcases⟩

end Pattern

end TwigAlgebra
