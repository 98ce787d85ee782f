import TwigAlgebra.Proofs.Searching
import TwigAlgebra.Proofs.Sprouting

/-!
# Pruning to a path

Pruning to a code takes the branches apart that it has searched in vain, and on the way back from the
node that it has found every node keeps the one edge through which it was found.  What is left is the
way of the search, whether other nodes have the code or not; a second pruning searches along it once
more and changes nothing.

## Main definitions

* `Pattern.Stem` — a way that nothing branches off from.
* `Pattern.PrunedTo` — what a pruning leaves of a tree.

## Main results

* `Pattern.Finds.exists_pruneFrom` — a search that succeeds leaves its way.
* `Pattern.PrunedTo.eq_of_again` — a second pruning that leaves the same way changes nothing.
* `Pattern.TreeOf.pruneTo_exact` — what pruning answers, what it leaves of a tree, and what a second
  pruning and the check make of it.
-/

namespace TwigAlgebra

theorem Node.bare_eq_of {m n : Node} (hdetached : m.detached = n.detached)
    (hparent : m.parent = n.parent) (hedges : m.edges = n.edges) : m.bare = n.bare := by
  obtain ⟨⟩ := m
  obtain ⟨⟩ := n
  simp_all [detached, bare]

namespace Pattern

variable {p q r : Pattern} {f below : Forest} {h t i : Handle} {code : Code} {fuel : Nat}
  {n : Node} {e : Edge} {es : List Edge} {slots : List Handle} {found : Bool}

/-! ### Stems -/

/-- From `h` on down to `t` the edges are the only ones, and each child links back. -/
inductive Stem (q : Pattern) : Handle → List Edge → Handle → Prop
  /-- The last node has no edges. -/
  | last {h : Handle} {n : Node} (hn : q.node? h = some n) (hedges : n.edges = []) : Stem q h [] h
  /-- A node before has one edge, to the next node. -/
  | step {h t : Handle} {n m : Node} {e : Edge} {es : List Edge} (hn : q.node? h = some n)
      (hedges : n.edges = [e]) (hm : q.node? e.child = some m) (hparent : m.parent = some h)
      (hrest : Stem q e.child es t) : Stem q h (e :: es) t

namespace Stem

/-- Only the edges of the top and the slots below it matter. -/
theorem congr (hs : r.Stem h es t)
    (htop : (q.bare? h).map (·.edges) = (r.bare? h).map (·.edges))
    (hbelow : ∀ i ∈ es.map (·.child), q.bare? i = r.bare? i) : q.Stem h es t := by
  induction hs with
  | last hn hedges =>
    rw [bare?_eq_some_of_node? hn, Option.map_some, Option.map_eq_some_iff] at htop
    obtain ⟨k, hk, hkedges⟩ := htop
    obtain ⟨m, hm, rfl⟩ := exists_node_of_bare? hk
    exact .last hm (hkedges.trans hedges)
  | step hn hedges hm hparent _ ih =>
    rw [bare?_eq_some_of_node? hn, Option.map_some, Option.map_eq_some_iff] at htop
    obtain ⟨k, hk, hkedges⟩ := htop
    obtain ⟨m', hm', rfl⟩ := exists_node_of_bare? hk
    have hchild := hbelow _ List.mem_cons_self
    obtain ⟨c, hc, hcbare⟩ := exists_node_of_bare? (hchild.trans (bare?_eq_some_of_node? hm))
    have hlink : c.bare.parent = some _ := (congrArg Node.parent hcbare).trans hparent
    exact .step hm' (hkedges.trans hedges) hc hlink
      (ih (by rw [hchild]) fun i hi => hbelow i (List.mem_cons_of_mem _ hi))

/-- The slots of a stem, as a forest. -/
theorem exists_spans (hs : q.Stem h es t) :
    ∃ below, q.Spans (.cons h below .nil) ∧ below.handles = es.map (·.child) := by
  induction hs with
  | last hn hedges =>
    refine ⟨.nil, ⟨?_, trivial, trivial⟩, rfl⟩
    rw [children?, hn, Option.map_some, Node.children, hedges]
    rfl
  | step hn hedges _ _ _ ih =>
    obtain ⟨b, hb, hhandles⟩ := ih
    refine ⟨_, ⟨?_, hb, trivial⟩, ?_⟩
    · rw [children?, hn, Option.map_some, Node.children, hedges]
      rfl
    · rw [Forest.handles_cons, Forest.handles_nil, List.append_nil, hhandles, List.map_cons]

/-- No slot of a stem repeats. -/
theorem nodup (hs : q.Stem h es t) : (h :: es.map (·.child)).Nodup := by
  induction hs with
  | last => exact List.nodup_singleton _
  | step hn hedges hm hparent hrest ih =>
    obtain ⟨below, hbelow, hhandles⟩ := (Stem.step hn hedges hm hparent hrest).exists_spans
    exact List.nodup_cons.mpr ⟨hhandles ▸ hbelow.self_not_mem, ih⟩

/-- A search for the code of the last node goes down the stem if no node before has the code. -/
theorem finds (hs : q.Stem h es t) (hfinds : p.Finds code h es t)
    (hcodes : ∀ i n m, p.node? i = some n → q.node? i = some m → m.code = n.code) :
    q.Finds code h es t := by
  induction hs with
  | last hm _ =>
    cases hfinds with
    | here hn hcode => exact .here hm ((hcodes _ _ _ hn hm).trans hcode)
  | step hm hedges _ _ _ ih =>
    cases hfinds with
    | there hn hcode _ _ _ _ hrest =>
      have hnone : q.Spans .nil := trivial
      exact .there hm (fun heq => hcode ((hcodes _ _ _ hn hm).symm.trans heq))
        (hedges.trans (List.nil_append _).symm) hnone rfl nofun (ih hrest)

/-- Patterns with the same stem have the same nodes on it if these only differ in edges and links. -/
theorem bare?_eq (hs : q.Stem h es t) (hs' : r.Stem h es t)
    (hsame : ∀ i, (r.node? i).map Node.detached = (q.node? i).map Node.detached)
    (hparent : r.parent? h = q.parent? h) : ∀ i ∈ h :: es.map (·.child), r.bare? i = q.bare? i := by
  -- on the top the edges are equal by the stems and the rest by what is the same in both
  have htop : ∀ {i n m}, q.node? i = some n → r.node? i = some m → m.edges = n.edges →
      r.parent? i = q.parent? i → r.bare? i = q.bare? i := by
    intro i n m hn hm hedges hlink
    have hi := hsame i
    rw [hn, hm, Option.map_some, Option.map_some, Option.some.injEq] at hi
    rw [parent?, parent?, hn, hm] at hlink
    rw [bare?_eq_some_of_node? hn, bare?_eq_some_of_node? hm, Node.bare_eq_of hi hlink hedges]
  induction hs with
  | last hn hedges =>
    cases hs' with
    | last hm hedges' =>
      intro i hi
      rw [List.mem_singleton.mp hi]
      exact htop hn hm (hedges'.trans hedges.symm) hparent
  | step hn hedges hc hlink _ ih =>
    cases hs' with
    | step hm hedges' hc' hlink' hrest' =>
      intro i hi
      rcases List.mem_cons.mp hi with rfl | hi
      · exact htop hn hm (hedges'.trans hedges.symm) hparent
      · refine ih hrest' ?_ i hi
        rw [parent?, parent?, hc, hc', Option.bind_some, Option.bind_some, hlink, hlink']

end Stem

/-! ### Pruning along the way of a search -/

theorem Spans.children_subset (hf : p.Spans (.cons h below .nil)) (hn : p.node? h = some n) :
    n.children ⊆ below.handles := by
  obtain ⟨n', hn', hchildren⟩ := children?_eq_some_iff.mp hf.1
  cases hn.symm.trans hn'
  exact fun c hc => Forest.mem_handles_of_mem_roots (hchildren ▸ hc)

/-- What is below one child is neither the node nor a child of it. -/
theorem Spans.not_mem_of_below {c : Handle} {b : Forest} (hf : p.Spans (.cons h below .nil))
    (hnodup : (h :: below.handles).Nodup) (hn : p.node? h = some n) (hc : c ∈ n.children)
    (hb : p.Spans (.cons c b .nil)) (hi : i ∈ b.handles) : i ∉ h :: n.children := by
  -- the child splits the forest below the node into its own tree and those before and after it
  obtain ⟨n', hn', hchildren⟩ := children?_eq_some_iff.mp hf.1
  cases hn.symm.trans hn'
  obtain ⟨l, l', hsplit⟩ := List.append_of_mem hc
  obtain ⟨g, g', rfl, rfl, hg'⟩ := Forest.exists_append_of_roots (hchildren.symm.trans hsplit)
  obtain ⟨b', k, rfl, rfl⟩ := Forest.exists_eq_of_roots_cons hg'
  obtain ⟨hc', hb', -⟩ := (spans_append_iff.mp hf.2.1).2
  obtain rfl := (Forest.cons.inj (hb.unique (g := .cons c b' .nil) ⟨hc', hb', trivial⟩ rfl)).2.1
  rw [Forest.handles_append, Forest.handles_cons, List.nodup_cons, List.nodup_append,
    List.nodup_cons, List.nodup_append] at hnodup
  obtain ⟨hself, -, ⟨hnew, -, -, hdisjoint'⟩, hdisjoint⟩ := hnodup
  have hmem : i ∈ c :: (b.handles ++ k.handles) := List.mem_cons_of_mem _ (List.mem_append_left _ hi)
  rw [hsplit]
  intro hbad
  -- the node itself, a child before, the child, or a child after
  rcases List.mem_cons.mp hbad with rfl | hbad
  · exact hself (List.mem_append_right _ hmem)
  rcases List.mem_append.mp hbad with hbad | hbad
  · exact hdisjoint i (Forest.mem_handles_of_mem_roots hbad) i hmem rfl
  rcases List.mem_cons.mp hbad with rfl | hbad
  · exact hnew (List.mem_append_left _ hi)
  · exact hdisjoint' i hi i (Forest.mem_handles_of_mem_roots hbad) rfl

/-- A way down a finite tree stays in it. -/
theorem Way.subset (hway : p.Way h es t) (hf : p.Spans (.cons h below .nil)) :
    es.map (·.child) ⊆ below.handles := by
  induction es generalizing h below with
  | nil => exact List.nil_subset _
  | cons e es ih =>
    obtain ⟨⟨n, hn, he⟩, hrest⟩ := hway
    obtain ⟨n', hn', hchildren⟩ := children?_eq_some_iff.mp hf.1
    cases hn.symm.trans hn'
    have hchild : e.child ∈ below.roots := hchildren ▸ List.mem_map_of_mem he
    obtain ⟨b, hb, hsub, -⟩ := hf.2.1.exists_subtree (Forest.mem_handles_of_mem_roots hchild)
    rw [List.map_cons]
    exact List.cons_subset.mpr ⟨hsub.subset List.mem_cons_self,
      fun i hi => hsub.subset (List.mem_cons_of_mem _ (ih hrest hb hi))⟩

theorem parent?_eq_bare? (p : Pattern) (h : Handle) : p.parent? h = (p.bare? h).bind (·.parent) := by
  rw [parent?, bare?, Option.bind_map]
  rfl

/-- A node with the code loses its children. -/
theorem exists_stop (fuel : Nat) (hn : r.bare? h = some n) (hcode : n.code = code)
    (hsize : ∀ c ∈ n.children, c < r.size) (hself : h ∉ n.children) :
    ∃ q, pruneFrom code (fuel + 1) h r = some (true, q) ∧ EqOff (h :: n.children) r q ∧
      q.Stem h [] h ∧ q.parent? h = n.parent := by
  obtain ⟨q, hq, hclear, hqh, -⟩ := exists_clearEdges hn hsize hself
  obtain ⟨m, hm, rfl⟩ := exists_node_of_bare? hn
  obtain ⟨k, hk, hkbare⟩ := exists_node_of_bare? hqh
  have hmcode : m.code = code := hcode
  refine ⟨q, ?_, hclear, .last hk (congrArg Node.edges hkbare : k.bare.edges = _), ?_⟩
  · rw [pruneFrom, hm]
    simp [hmcode, hq]
  · rw [parent?_eq_bare?, hqh]
    rfl

/-- A node that keeps the edge to a stem is the top of a stem. -/
theorem Stem.exists_keepOnly (hs : r.Stem e.child es t) (hn : r.bare? h = some n)
    (hsize : ∀ c ∈ n.children, c < r.size) (hself : h ∉ n.children) (he : e.child ∈ n.children)
    (hapart : ∀ i ∈ es.map (·.child), i ∉ h :: n.children) :
    ∃ q, r.keepOnly h e = some q ∧ EqOff (h :: n.children) r q ∧ q.Stem h (e :: es) t ∧
      q.parent? h = n.parent := by
  obtain ⟨q, hq, hoff, hqh, hqc⟩ := Pattern.exists_keepOnly hn hsize hself he
  obtain ⟨k, hk, hkbare⟩ := exists_node_of_bare? hqh
  obtain ⟨m, hm⟩ := exists_node_of_lt_size (hsize _ he)
  have hchild : q.bare? e.child = some { m.bare with parent := some h } := by
    rw [hqc, bare?_eq_some_of_node? hm]
    rfl
  -- the child was made whole again and linked to the node, and below it nothing has changed
  obtain ⟨c, hc, hcbare⟩ := exists_node_of_bare? hchild
  have hbelow : q.Stem e.child es t := by
    refine hs.congr ?_ fun i hi => hoff.bare i (hapart i hi)
    rw [hqc, Option.map_map]
    rfl
  refine ⟨q, hq, hoff, .step hk (congrArg Node.edges hkbare : k.bare.edges = _) hc
    (congrArg Node.parent hcbare : c.bare.parent = _) hbelow, ?_⟩
  rw [parent?_eq_bare?, hqh]
  rfl

/-- A search that succeeds leaves its way, and changes nothing outside of the tree. -/
theorem Finds.exists_pruneFrom (hfinds : p.Finds code h es t) (hf : p.Spans (.cons h below .nil))
    (hnodup : (h :: below.handles).Nodup) (hfuel : below.height < fuel) (hoff : EqOff slots p r)
    (hapart : ∀ i ∈ h :: below.handles, i ∉ slots) :
    ∃ q, pruneFrom code fuel h r = some (true, q) ∧ EqOff (h :: below.handles) r q ∧
      q.Stem h es t ∧ q.parent? h = p.parent? h := by
  induction hfinds generalizing below fuel slots r with
  | @here h n hn hcode =>
    obtain ⟨fuel, rfl⟩ : ∃ k, fuel = k + 1 := ⟨fuel - 1, by omega⟩
    have hr : r.bare? h = some n.bare := by
      rw [hoff.bare h (hapart h List.mem_cons_self), bare?_eq_some_of_node? hn]
    have hsub := hf.children_subset hn
    obtain ⟨q, hq, hoffq, hstem, hlink⟩ := exists_stop fuel hr hcode
      (fun c hc => hoff.size ▸ hf.2.1.lt_size (hsub hc))
      fun hmem => (List.nodup_cons.mp hnodup).1 (hsub hmem)
    refine ⟨q, hq, hoffq.mono (List.cons_subset_cons _ hsub), hstem, hlink.trans ?_⟩
    rw [parent?, hn]
    rfl
  | @there h t n e before after es g hn hcode hedges hg hroots hlacks hrest ih =>
    obtain ⟨fuel, rfl⟩ : ∃ k, fuel = k + 1 := ⟨fuel - 1, by omega⟩
    obtain ⟨b, others, rfl⟩ := hf.exists_split hn hedges hg hroots
    obtain ⟨hchild, hb, -⟩ := (spans_append_iff.mp hf.2.1).2
    have htree : p.Spans (.cons e.child b .nil) := ⟨hchild, hb, trivial⟩
    have hmem : e.child ∈ n.children := List.mem_map_of_mem (hedges ▸ by simp)
    have hapartn : ∀ i ∈ b.handles, i ∉ h :: n.children := fun i hi =>
      hf.not_mem_of_below hnodup hn hmem htree hi
    have hsub := hf.children_subset hn
    have hlt : ∀ c ∈ n.children, c < p.size := fun c hc => hf.2.1.lt_size (hsub hc)
    have hsize : r.size = p.size := hoff.size
    rw [Forest.height_append, Forest.height] at hfuel
    rw [Forest.handles_append, Forest.handles_cons] at hnodup hapart hsub ⊢
    obtain ⟨hself, hnodup⟩ := List.nodup_cons.mp hnodup
    obtain ⟨hnodupg, hnodupt, hdisjoint⟩ := List.nodup_append.mp hnodup
    have htsub : (e.child :: b.handles).Sublist (e.child :: (b.handles ++ others.handles)) :=
      (List.sublist_append_left _ _).cons_cons _
    have hr : r.bare? h = some n.bare := by
      rw [hoff.bare h (hapart h List.mem_cons_self), bare?_eq_some_of_node? hn]
    -- the trees before the edge are searched in vain
    have happartg : ∀ i ∈ g.handles, i ∉ slots := fun i hi =>
      hapart i (List.mem_cons_of_mem _ (List.mem_append_left _ hi))
    obtain ⟨r₁, hoff₁, hmiss⟩ := (hoff.spans hg happartg).exists_miss hnodupg
      (hoff.lacks hg happartg hlacks) (by omega : g.height ≤ fuel) hroots.symm
    -- the search in the tree of the edge succeeds
    have happartt : ∀ i ∈ e.child :: b.handles, i ∉ slots ++ g.handles := by
      intro i hi hmem
      rcases List.mem_append.mp hmem with hmem | hmem
      · exact hapart i (List.mem_cons_of_mem _ (List.mem_append_right _ (htsub.subset hi))) hmem
      · exact hdisjoint i hmem i (htsub.subset hi) rfl
    obtain ⟨r₂, hr₂, hoff₂, hstem, -⟩ := ih htree (htsub.nodup hnodupt)
      (by omega : b.height < fuel)
      ((hoff.mono (List.subset_append_left _ _)).trans (hoff₁.mono (List.subset_append_right _ _)))
      happartt
    -- and the node keeps this edge
    have hnr₂ : r₂.bare? h = some n.bare := by
      rw [hoff₂.bare h fun hmem => hself (List.mem_append_right _ (htsub.subset hmem)),
        hoff₁.bare h fun hmem => hself (List.mem_append_left _ hmem), hr]
    obtain ⟨q, hq, hoffq, hstemq, hlink⟩ := hstem.exists_keepOnly hnr₂
      (fun c hc => by rw [hoff₂.size, hoff₁.size, hsize]; exact hlt c hc)
      (fun hmem => hself (hsub hmem)) hmem
      fun i hi => hapartn i (hrest.way.subset htree hi)
    refine ⟨q, ?_, ?_, hstemq, hlink.trans ?_⟩
    · obtain ⟨m, hm, hbare⟩ := exists_node_of_bare? hr
      have hne : m.code ≠ code := Node.code_eq_of_bare_eq hbare ▸ hcode
      rw [pruneFrom, hm]
      simp only [Option.bind_eq_bind, Option.bind_some, hne, if_false]
      rw [Node.edges_eq_of_bare_eq hbare, hedges, hmiss, pruneEdges, hr₂]
      simp [hq]
    · -- searching in vain, finding and keeping the edge each stay within the tree
      refine ((hoff₁.mono ?_).trans (hoff₂.mono ?_)).trans (hoffq.mono ?_)
      · exact fun i hi => List.mem_cons_of_mem _ (List.mem_append_left _ hi)
      · exact fun i hi => List.mem_cons_of_mem _ (List.mem_append_right _ (htsub.subset hi))
      · exact List.cons_subset_cons _ hsub
    · rw [parent?, hn]
      rfl

/-! ### What is left of a tree -/

/-- The edges from the root down to `t` are all that is left of the tree in `p`.  Nodes differ in edges
and parent links at most, and what does not belong to the tree stays. -/
structure PrunedTo (p : Pattern) (es : List Edge) (t : Handle) (q : Pattern) : Prop where
  /-- The name is the same. -/
  name : q.name = p.name
  /-- The root is the same. -/
  root : q.root = p.root
  /-- There are as many slots. -/
  size : q.size = p.size
  /-- The nodes are the same but for edges, parent links and what they remember. -/
  detached : ∀ i, (q.node? i).map Node.detached = (p.node? i).map Node.detached
  /-- Slots outside of the tree are the same. -/
  outside : ∀ i, ¬ p.Reached i → q.bare? i = p.bare? i
  /-- The parent link of the root is the same. -/
  link : q.parent? p.root = p.parent? p.root
  /-- The way is left. -/
  stem : q.Stem p.root es t
  /-- Nothing is remembered. -/
  forgotten : q.forget = q

theorem detached_pruneTo (hq : p.pruneTo code = some (found, q)) (i : Handle) :
    (q.node? i).map Node.detached = (p.node? i).map Node.detached := by
  have hmaps : ∀ {F : Handle → Node → Node} {r s : Pattern}, Maps F r s →
      (∀ i n, (F i n).detached = n.detached) →
      (∀ i, (r.node? i).map Node.detached = (p.node? i).map Node.detached) →
      ∀ i, (s.node? i).map Node.detached = (p.node? i).map Node.detached := by
    intro F r s hrs hF hr i
    rw [hrs.nodes, Option.map_map, ← hr i]
    exact congrArg (fun g => (r.node? i).map g) (funext (hF i))
  -- none of the steps writes anything but edges, links and memos
  refine (pruneTo_invariant
    (I := fun r => ∀ i, (r.node? i).map Node.detached = (p.node? i).map Node.detached)
    (fun r s h _ _ hs hr => ?_) (fun r s h e _ _ _ hs hr => ?_)
    (fun r hr => hmaps (maps_forget r) (fun _ _ => rfl) hr) hq fun _ => rfl).2 i
  · obtain ⟨owner, -, hclear⟩ := maps_clearEdges hs
    exact hmaps hclear (fun _ _ => rfl) hr
  · obtain ⟨owner, -, -, hkeep⟩ := maps_keepOnly hs
    exact hmaps hkeep (fun _ _ => rfl) hr

namespace PrunedTo

/-- What a pruning of the tree leaves. -/
theorem of_pruneFrom (hp : p.TreeOf f) (hq : p.pruneTo code = some (found, q.forget))
    (hoff : EqOff f.handles p q) (hstem : q.Stem p.root es t)
    (hlink : q.parent? p.root = p.parent? p.root) : p.PrunedTo es t q.forget where
  name := hoff.name
  root := hoff.root
  size := (size_forget q).trans hoff.size
  detached := detached_pruneTo hq
  outside i hi := by
    rw [bare?_forget, hoff.bare i fun hmem => hi (hp.toUnfolds.reached_iff.mpr hmem)]
  link := by rw [parent?_eq_bare?, bare?_forget, ← parent?_eq_bare?, hlink]
  stem := hstem.congr (by rw [bare?_forget]) fun i _ => bare?_forget q i
  forgotten := forget_forget q

theorem code_eq {n m : Node} (h : p.PrunedTo es t q) (hn : p.node? i = some n)
    (hm : q.node? i = some m) : m.code = n.code := by
  have hi := h.detached i
  rw [hn, hm, Option.map_some, Option.map_some, Option.some.injEq] at hi
  exact (congrArg Node.code hi : m.detached.code = n.detached.code)

/-- What is left is a tree. -/
theorem exists_treeOf (h : p.PrunedTo es t q) :
    ∃ g, q.TreeOf g ∧ g.handles = p.root :: es.map (·.child) := by
  obtain ⟨below, hbelow, hhandles⟩ := h.stem.exists_spans
  refine ⟨_, ⟨⟨hbelow, by rw [h.root]; rfl⟩, ?_⟩, ?_⟩
  · rw [Forest.handles_cons, Forest.handles_nil, List.append_nil, hhandles]
    exact h.stem.nodup
  · rw [Forest.handles_cons, Forest.handles_nil, List.append_nil, hhandles]

/-- A second pruning that leaves the same way changes nothing. -/
theorem eq_of_again (h : p.PrunedTo es t q) (hagain : q.PrunedTo es t r) : r = q := by
  obtain ⟨g, hg, hhandles⟩ := h.exists_treeOf
  have hstem := hagain.stem
  rw [h.root] at hstem
  refine eq_of_bare? hagain.name hagain.root (fun i => ?_) h.forgotten hagain.forgotten
  by_cases hi : q.Reached i
  · rw [hg.toUnfolds.reached_iff, hhandles] at hi
    exact h.stem.bare?_eq hstem hagain.detached (h.root ▸ hagain.link) i hi
  · exact hagain.outside i hi

end PrunedTo

namespace TreeOf

/-- Pruning leaves the way of a search that succeeds. -/
theorem exists_pruneTo_of_finds (hp : p.TreeOf f) (hfinds : p.Finds code p.root es t) :
    ∃ q, p.pruneTo code = some (true, q) ∧ p.PrunedTo es t q := by
  obtain ⟨below, rfl⟩ := Forest.exists_eq_of_roots_singleton hp.roots_eq
  have hhandles : (Forest.cons p.root below .nil).handles = p.root :: below.handles := by simp
  obtain ⟨fuel, -, hsize, hheight, -, -⟩ := hp.spans.exists_fuel
  obtain ⟨q, hq, hoff, hstem, hlink⟩ := hfinds.exists_pruneFrom hp.spans (hhandles ▸ hp.nodup)
    (by omega : below.height < p.size) (EqOff.refl p : EqOff [] p p) fun _ _ => List.not_mem_nil
  have hprune : p.pruneTo code = some (true, q.forget) := by
    rw [pruneTo, hq]
    rfl
  exact ⟨q.forget, hprune, .of_pruneFrom hp hprune (hhandles ▸ hoff) hstem hlink⟩

/-- Pruning leaves the root of a tree without the code. -/
theorem exists_pruneTo_of_lacks (hp : p.TreeOf f) (hlacks : p.Lacks code f) :
    ∃ q, p.pruneTo code = some (false, q) ∧ p.PrunedTo [] p.root q := by
  obtain ⟨below, rfl⟩ := Forest.exists_eq_of_roots_singleton hp.roots_eq
  have hhandles : (Forest.cons p.root below .nil).handles = p.root :: below.handles := by simp
  obtain ⟨fuel, n, hsize, hheight, hn, hchildren⟩ := hp.spans.exists_fuel
  obtain ⟨hself, hlacksb, -⟩ := lacks_cons_iff.mp hlacks
  obtain ⟨hnew, hnodup⟩ := List.nodup_cons.mp (hhandles ▸ hp.nodup)
  obtain ⟨r, hoff, hmiss⟩ := hp.spans.2.1.exists_miss hnodup hlacksb hheight hchildren
  have hvain := hmiss p.root []
  rw [List.append_nil] at hvain
  obtain ⟨q, hq, hoffq, hbare⟩ := exists_lost hp.spans hn (hself n hn) hnew hoff hvain
  obtain ⟨m, hm, hmbare⟩ := exists_node_of_bare? hbare
  have hprune : p.pruneTo code = some (false, q.forget) := by
    rw [pruneTo, hsize, hq]
    rfl
  have hlink : q.parent? p.root = p.parent? p.root := by
    rw [parent?_eq_bare?, hbare, parent?, hn]
    rfl
  exact ⟨q.forget, hprune, .of_pruneFrom hp hprune (hhandles ▸ hoffq)
    (.last hm (congrArg Node.edges hmbare : m.bare.edges = _)) hlink⟩

/-- Pruning a tree to a code answers whether the code can be located, and leaves the way to the node
that is located, or the root alone; the node is located again, a second pruning changes nothing, and a
pattern that the check accepts is still accepted. -/
theorem pruneTo_exact (hp : p.TreeOf f) (code : Code) :
    ∃ found es t q, p.pruneTo code = some (found, q) ∧
      p.locate code = some (if found then some t else none) ∧ (found = false → es = []) ∧
      p.Way p.root es t ∧ p.PrunedTo es t q ∧
      q.preorder = some (p.root :: es.map (·.child)) ∧ q.locate code = p.locate code ∧
      q.pruneTo code = some (found, q) ∧ (p.validate = .ok () → q.validate = .ok ()) := by
  have hvalid : ∀ {found q}, p.pruneTo code = some (found, q) → p.validate = .ok () →
      q.validate = .ok () := by
    intro found q hq hok
    have htree := validate_eq_ok_iff_isTree.mp hok
    exact validate_eq_ok_iff_isTree.mpr
      (Sprouts.of_shrinksTo htree (htree.toOrderly.pruneTo hq) 0 0).tree
  rcases hp.toUnfolds.locate_cases code with ⟨hlocate, hlacks⟩ | ⟨es, t, hlocate, hfinds⟩
  · -- no node has the code: the root alone is left, and it lacks the code again
    obtain ⟨q, hq, hpruned⟩ := hp.exists_pruneTo_of_lacks hlacks
    obtain ⟨g, hg, hhandles⟩ := hpruned.exists_treeOf
    have hlacksq : q.Lacks code g := by
      intro i hi m hm hcode
      rw [hhandles, List.map_nil, List.mem_singleton] at hi
      subst hi
      obtain ⟨n, hn⟩ := hp.spans.exists_node (hp.toUnfolds.reached_iff.mp .refl)
      exact hlacks p.root (hp.toUnfolds.reached_iff.mp .refl) n hn
        ((hpruned.code_eq hn hm).symm.trans hcode)
    obtain ⟨q', hq', hagain⟩ := hg.exists_pruneTo_of_lacks hlacksq
    rw [hpruned.root] at hagain
    obtain rfl := hpruned.eq_of_again hagain
    refine ⟨false, [], p.root, q', hq, hlocate, fun _ => rfl, rfl, hpruned, ?_, ?_, hq', hvalid hq⟩
    · rw [hg.spans.preorder_eq hg.roots_eq, hhandles]
    · rw [hg.toUnfolds.locate_of_lacks hlacksq, hlocate]
  · -- the first node with the code: its way is left, and the same way is found again
    obtain ⟨q, hq, hpruned⟩ := hp.exists_pruneTo_of_finds hfinds
    obtain ⟨g, hg, hhandles⟩ := hpruned.exists_treeOf
    have hfindsq : q.Finds code q.root es t := by
      rw [hpruned.root]
      exact hpruned.stem.finds hfinds fun _ _ _ hn hm => hpruned.code_eq hn hm
    obtain ⟨q', hq', hagain⟩ := hg.exists_pruneTo_of_finds hfindsq
    obtain rfl := hpruned.eq_of_again hagain
    refine ⟨true, es, t, q', hq, hlocate, nofun, hfinds.way, hpruned, ?_, ?_, hq', hvalid hq⟩
    · rw [hg.spans.preorder_eq hg.roots_eq, hhandles]
    · rw [hg.toUnfolds.locate_of_finds hfindsq, hlocate]

/-- A shelf with a label and a book, whose two titles have the same code. -/
def repeatedCodes : Pattern where
  name := "shelf"
  nodes := #[{ Node.make ⟨0⟩ "" "shelf" with
      edges := [⟨⟨true, false, false⟩, 1⟩, ⟨⟨false, true, false⟩, 2⟩] },
    { Node.make ⟨1⟩ "" "label" with parent := some 0 },
    { Node.make ⟨2⟩ "" "book" with
      parent := some 0, edges := [⟨⟨true, false, false⟩, 3⟩, ⟨⟨true, false, true⟩, 4⟩] },
    { Node.make ⟨3⟩ "" "title" with parent := some 2 },
    { Node.make ⟨3⟩ "" "title" with parent := some 2 }]
  root := 0

/-- The theorem at two titles with one code, of which the first is found. -/
theorem pruneTo_exact_repeatedCodes :
    ∃ q, repeatedCodes.pruneTo ⟨3⟩ = some (true, q) ∧ q.preorder = some [0, 2, 3] ∧
      q.locate ⟨3⟩ = some (some 3) ∧ q.pruneTo ⟨3⟩ = some (true, q) := by
  have hshelf : repeatedCodes.TreeOf
      (.cons 0 (.cons 1 .nil (.cons 2 (.cons 3 .nil (.cons 4 .nil .nil)) .nil)) .nil) := by
    refine ⟨⟨?_, rfl⟩, by decide⟩
    simp only [Spans]
    decide
  obtain ⟨found, es, t, q, hq, -, -, -, -, -, hagain, hsecond, -⟩ := hshelf.pruneTo_exact ⟨3⟩
  have hrun : (repeatedCodes.pruneTo ⟨3⟩).map (fun r => (r.1, r.2.preorder))
      = some (true, some [0, 2, 3]) := by decide +kernel
  rw [hq, Option.map_some, Option.some.injEq, Prod.mk.injEq] at hrun
  obtain ⟨rfl, hpreorder⟩ := hrun
  exact ⟨q, hq, hpreorder, hagain.trans (by decide), hsecond⟩

end TreeOf

end Pattern

end TwigAlgebra
