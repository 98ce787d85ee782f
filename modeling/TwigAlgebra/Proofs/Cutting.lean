import TwigAlgebra.Proofs.Edits
import TwigAlgebra.Proofs.Thinning

/-!
# Cutting branches off

A pattern may lose subtrees that bind nothing: if every slot that stays keeps its node, less the
edges to the slots that go, then the pattern stays sound and binds what it bound.

## Main definitions

* `Forest.without` — a forest without some slots.
* `Pattern.Drops` — slots that may go.
* `Pattern.Cuts` — a pattern without them.

## Main results

* `Pattern.Drops.handles_without` — the slots that stay, in order.
* `Pattern.Cuts.reduces` — cutting keeps what a rule must keep.
-/

namespace TwigAlgebra

/-! ### Forests without some slots -/

namespace Forest

/-- The forest without the listed slots and, in a tree, all that hangs from them. -/
def without (drop : List Handle) : Forest → Forest
  | nil => nil
  | cons h below rest =>
    if h ∈ drop then rest.without drop else cons h (below.without drop) (rest.without drop)

theorem without_nil (f : Forest) : f.without [] = f := by
  induction f with
  | nil => rfl
  | cons h below rest ihb ihr => rw [without, if_neg List.not_mem_nil, ihb, ihr]

end Forest

/-- The node without the edges to the listed slots. -/
def Node.cut (drop : List Handle) (n : Node) : Node :=
  { n with edges := n.edges.filter (·.child ∉ drop) }

theorem Node.children_cut (drop : List Handle) (n : Node) :
    (n.cut drop).children = n.children.filter (· ∉ drop) := by
  rw [children, children, cut, List.filter_map]
  rfl

theorem Node.mem_edges_cut {drop : List Handle} {n : Node} {e : Edge} :
    e ∈ (n.cut drop).edges ↔ e ∈ n.edges ∧ e.child ∉ drop := by
  rw [cut, List.mem_filter, decide_eq_true_iff]

namespace Pattern

variable {p q r : Pattern} {f g : Forest} {drop : List Handle}

/-- The slots may go: they are not the root, they bind nothing, and what is below them goes,
too. -/
structure Drops (p : Pattern) (drop : List Handle) : Prop where
  /-- The root stays. -/
  root : p.root ∉ drop
  /-- What is below a slot that goes goes, too. -/
  closed : ∀ i ∈ drop, ∀ cs, p.children? i = some cs → cs ⊆ drop
  /-- No slot that goes binds a variable. -/
  unbound : ∀ i ∈ drop, ∀ n, p.node? i = some n → n.vars = []

/-- The pattern `q` is `p` without some slots: every slot of the forest that stays keeps its node,
less the edges to those that go. -/
structure Cuts (drop : List Handle) (f : Forest) (p q : Pattern) : Prop where
  /-- The name stays. -/
  name : q.name = p.name
  /-- The root stays. -/
  root : q.root = p.root
  /-- Nodes that stay lose edges only. -/
  bare : ∀ i ∈ f.handles, i ∉ drop → q.bare? i = (p.bare? i).map (Node.cut drop)

/-- Below slots that go everything goes. -/
theorem Drops.handles_subset (h : p.Drops drop) (hf : p.Spans f) (hroots : f.roots ⊆ drop) :
    f.handles ⊆ drop := by
  induction f with
  | nil => exact List.nil_subset drop
  | cons i below rest ihb ihr =>
    obtain ⟨hi, hbelow, hrest⟩ := hf
    rw [Forest.roots_cons, List.cons_subset] at hroots
    rw [Forest.handles_cons, List.cons_subset, List.append_subset]
    exact ⟨hroots.1, ihb hbelow (h.closed i hroots.1 _ hi), ihr hrest hroots.2⟩

theorem Drops.handles_without (h : p.Drops drop) (hf : p.Spans f) :
    (f.without drop).handles = f.handles.filter (· ∉ drop) := by
  induction f with
  | nil => rfl
  | cons i below rest ihb ihr =>
    obtain ⟨hi, hbelow, hrest⟩ := hf
    rw [Forest.without, Forest.handles_cons, List.filter_cons, List.filter_append]
    by_cases hmem : i ∈ drop
    · have hall := h.handles_subset hbelow (h.closed i hmem _ hi)
      have hnone : below.handles.filter (· ∉ drop) = [] :=
        List.filter_eq_nil_iff.mpr fun j hj => by simpa using hall hj
      rw [hnone, List.nil_append, if_pos hmem, ihr hrest]
      simp [hmem]
    · simp [hmem, ihb hbelow, ihr hrest]

/-- Slots that may go add no bindings. -/
theorem Drops.flatten_bindings (h : p.Drops drop) (l : List Handle) :
    ((l.filter (· ∉ drop)).filterMap fun i => (p.node? i).map Node.bindings).flatten
      = (l.filterMap fun i => (p.node? i).map Node.bindings).flatten := by
  induction l with
  | nil => rfl
  | cons i l ih =>
    by_cases hmem : i ∈ drop
    · rw [List.filter_cons_of_neg (by simpa using hmem), ih]
      cases hn : p.node? i with
      | none => simp [hn]
      | some n => simp [hn, Node.bindings_eq_nil_iff.mpr (h.unbound i hmem n hn)]
    · rw [List.filter_cons_of_pos (by simpa using hmem)]
      cases hn : p.node? i with
      | none => simpa [hn] using ih
      | some n => simpa [hn] using ih

namespace Cuts

theorem refl (f : Forest) (p : Pattern) : Cuts [] f p p := by
  refine ⟨rfl, rfl, fun i _ _ => ?_⟩
  have hcut : ∀ n : Node, n.cut [] = n := fun n => by simp [Node.cut]
  rw [funext hcut, Option.map_id']

theorem exists_node (h : Cuts drop f p q) {i : Handle} (hi : i ∈ f.handles) (hmem : i ∉ drop)
    {n : Node} (hn : p.node? i = some n) :
    ∃ memo, q.node? i = some { n.cut drop with topMemo := memo } := by
  have hbare := h.bare i hi hmem
  rw [bare?_eq_some_of_node? hn, Option.map_some] at hbare
  obtain ⟨m, hm, heq⟩ := exists_node_of_bare? hbare
  exact ⟨m.topMemo, hm.trans (congrArg some (Node.eq_of_bare_eq (n := n.cut drop) heq))⟩

theorem hangs (h : Cuts drop f p q) {links : List (Handle × Option Handle)}
    (hf : p.Hangs links f) : q.Hangs (links.filter (·.1 ∉ drop)) (f.without drop) := by
  -- for every part of the forest, so that the induction may go inside
  have hall : ∀ (g : Forest) (links : List (Handle × Option Handle)), g.handles ⊆ f.handles →
      p.Hangs links g → q.Hangs (links.filter (·.1 ∉ drop)) (g.without drop) := by
    intro g
    induction g with
    | nil =>
      intro links _ hg
      cases links with
      | nil => trivial
      | cons link links => cases hg
    | cons i below rest ihb ihr =>
      intro links hsub hg
      cases links with
      | nil => cases hg
      | cons link links =>
        obtain ⟨rfl, n, hn, hparent, hbelow, hrest⟩ := hg
        rw [Forest.handles_cons, List.cons_subset, List.append_subset] at hsub
        have hrest' := ihr links hsub.2.2 hrest
        rw [Forest.without, List.filter_cons]
        by_cases hmem : link.1 ∈ drop
        · -- a slot that is dropped goes with its tree
          simpa [hmem] using hrest'
        · obtain ⟨memo, hm⟩ := h.exists_node hsub.1 hmem hn
          have hbelow' := ihb _ hsub.2.1 hbelow
          rw [List.filter_map] at hbelow'
          simp only [hmem, not_false_eq_true, decide_true, if_true, if_false]
          refine ⟨rfl, _, hm, hparent, ?_, hrest'⟩
          -- the node keeps the links to the children that stay
          show q.Hangs ((n.cut drop).children.map _) _
          rw [Node.children_cut]
          exact hbelow'
  exact hall f links (List.Subset.refl _) hf

/-- What a node that stays is mapped to, if edges and memos do not matter for it. -/
theorem filterMap_nodesOn (h : Cuts drop f p q) (hdrop : p.Drops drop) (hf : p.Spans f) {α : Type}
    (g : Node → α) (hg : ∀ n edges memo, g { n with edges, topMemo := memo } = g n) :
    (q.nodesOn (f.without drop)).map g
      = (f.handles.filter (· ∉ drop)).filterMap fun i => (p.node? i).map g := by
  rw [nodesOn, hdrop.handles_without hf, List.map_filterMap]
  refine List.filterMap_congr fun i hi => ?_
  obtain ⟨hi, hmem⟩ := List.mem_filter.mp hi
  obtain ⟨n, hn⟩ := hf.exists_node hi
  obtain ⟨memo, hm⟩ := h.exists_node hi (by simpa using hmem) hn
  rw [hm, hn]
  exact congrArg some (hg n _ memo)

/-- Cutting keeps what a rule must keep. -/
theorem reduces (h : Cuts drop f p q) (hdrop : p.Drops drop) (hp : p.Sound f) :
    p.Reduces f q (f.without drop) := by
  have hcodes : ((q.nodesOn (f.without drop)).map (·.code)).Sublist
      ((p.nodesOn f).map (·.code)) := by
    rw [h.filterMap_nodesOn hdrop hp.spans _ fun _ _ _ => rfl, nodesOn, List.map_filterMap]
    exact List.filter_sublist.filterMap _
  have hbindings : ((q.nodesOn (f.without drop)).map (·.bindings)).flatten
      = ((p.nodesOn f).map (·.bindings)).flatten := by
    rw [h.filterMap_nodesOn hdrop hp.spans _ fun _ _ _ => rfl, nodesOn, List.map_filterMap]
    exact hdrop.flatten_bindings f.handles
  refine ⟨h.name, ⟨?_, ?_, ?_, ?_⟩, hcodes, ?_⟩
  · have hhangs := h.hangs hp.hangs
    rw [h.root]
    simpa [hdrop.root] using hhangs
  · -- a part of a list without repetition
    rw [hdrop.handles_without hp.spans]
    exact hp.nodup.filter _
  · exact hcodes.nodup hp.codes
  · intro m hm
    obtain ⟨i, hi, hmi⟩ := mem_nodesOn_iff.mp hm
    rw [hdrop.handles_without hp.spans, List.mem_filter] at hi
    -- nodes that stay keep their codes and variables
    obtain ⟨n, hn⟩ := hp.spans.exists_node hi.1
    obtain ⟨memo, hm'⟩ := h.exists_node hi.1 (by simpa using hi.2) hn
    cases hmi.symm.trans hm'
    exact hp.recorded n (mem_nodesOn_iff.mpr ⟨i, hi.1, hn⟩)
  · rwa [List.flatMap_def, List.flatMap_def]

end Cuts

end Pattern

end TwigAlgebra
