import TwigAlgebra.Proofs.Cutting

/-!
# Pruning along a chain

When the nodes that stay form a chain, all others are removed by pruning to the code at its end:
the search descends to the first node with the code, and on the way back every node keeps the one
child through which it was found.  Subtrees that were searched in vain are taken apart, which does
no harm, since they go.

## Main definitions

* `Pattern.Lacks` — a forest without a code.
* `Pattern.Chain` — the nodes that stay form a chain.
* `Pattern.Fork` — a node of which one child stays.
* `Pattern.CutsOn` — the nodes that stay are cut in some slots, and other slots are left alone.

## Main results

* `Pattern.Spans.exists_miss` — searching a forest that lacks the code.
* `Pattern.Chain.exists_hit` — searching a tree whose nodes that stay form a chain.
* `Pattern.Sound.exists_pruneTo` — pruning to the end of the chain cuts the other nodes off.
-/

namespace TwigAlgebra.Pattern

variable {p q r : Pattern} {f : Forest} {drop slots : List Handle} {code : Code} {fuel : Nat}

/-! ### Searching in vain -/

/-- No node of the forest has the code. -/
def Lacks (p : Pattern) (code : Code) (f : Forest) : Prop :=
  ∀ i ∈ f.handles, ∀ n, p.node? i = some n → n.code ≠ code

theorem EqOff.spans (h : EqOff slots p q) (hf : p.Spans f)
    (hapart : ∀ i ∈ f.handles, i ∉ slots) : q.Spans f :=
  hf.congr fun i hi => by rw [children?_eq_bare?, h.bare i (hapart i hi), ← children?_eq_bare?]

theorem EqOff.lacks (h : EqOff slots p q) (hf : p.Spans f)
    (hapart : ∀ i ∈ f.handles, i ∉ slots) (hlacks : p.Lacks code f) : q.Lacks code f := by
  intro i hi m hm hcode
  obtain ⟨n, hn⟩ := hf.exists_node hi
  obtain ⟨m', hm', hbare⟩ := h.exists_node (hapart i hi) hn
  cases hm.symm.trans hm'
  exact hlacks i hi n hn ((Node.code_eq_of_bare_eq hbare).symm.trans hcode)

/-- A node without the code loses its children if nothing is found below it. -/
theorem exists_lost {h : Handle} {n : Node} {below : Forest} (hf : p.Spans (.cons h below .nil))
    (hn : p.node? h = some n) (hcode : n.code ≠ code) (hself : h ∉ below.handles)
    (hoff : EqOff below.handles p r)
    (hmiss : pruneEdges (pruneFrom code fuel) h n.edges p
      = pruneEdges (pruneFrom code fuel) h [] r) :
    ∃ q, pruneFrom code (fuel + 1) h p = some (false, q) ∧ EqOff (h :: below.handles) p q ∧
      q.bare? h = some { n.bare with edges := [] } := by
  obtain ⟨n', hn', hchildren⟩ := children?_eq_some_iff.mp hf.1
  cases hn.symm.trans hn'
  have hroots : n.bare.children ⊆ below.handles := fun c hc =>
    Forest.mem_handles_of_mem_roots (hchildren ▸ hc)
  have hnr : r.bare? h = some n.bare := by
    rw [hoff.bare _ hself, bare?_eq_some_of_node? hn]
  have hsize : ∀ c ∈ n.bare.children, c < r.size := fun c hc => by
    rw [hoff.size]
    exact hf.2.1.lt_size (hroots hc)
  obtain ⟨q, hq, hclear, hbare, -⟩ := exists_clearEdges hnr hsize fun hmem => hself (hroots hmem)
  refine ⟨q, ?_, ?_, hbare⟩
  · rw [pruneFrom, hn]
    simp only [Option.bind_eq_bind, Option.bind_some, hcode, if_false]
    rw [hmiss, pruneEdges, hq]
    rfl
  · exact (hoff.mono (List.subset_cons_self _ _)).trans
      (hclear.mono (List.cons_subset_cons _ hroots))

/-- Pruning to a code passes over trees without it: their slots are lost, and the search goes on
with the edges that follow. -/
theorem Spans.exists_miss (hf : p.Spans f) (hnodup : f.handles.Nodup) (hlacks : p.Lacks code f)
    (hfuel : f.height ≤ fuel) {es : List Edge} (hes : es.map (·.child) = f.roots) :
    ∃ q, EqOff f.handles p q ∧ ∀ h es', pruneEdges (pruneFrom code fuel) h (es ++ es') p
      = pruneEdges (pruneFrom code fuel) h es' q := by
  induction f generalizing p fuel es with
  | nil =>
    rw [List.map_eq_nil_iff.mp hes]
    exact ⟨p, .refl p, fun _ _ => rfl⟩
  | cons c below rest ihb ihr =>
    obtain ⟨e, es, rfl, rfl, hrestes⟩ := exists_edges_of_roots_cons hes
    obtain ⟨hh, hbelow, hrest⟩ := hf
    obtain ⟨n, hn, hchildren⟩ := children?_eq_some_iff.mp hh
    rw [Forest.height] at hfuel
    rw [Forest.handles_cons] at hnodup ⊢
    obtain ⟨hself, hnodup⟩ := List.nodup_cons.mp hnodup
    obtain ⟨hnodupb, hnodupr, hdisjoint⟩ := List.nodup_append.mp hnodup
    have hlacksb : p.Lacks code below := fun i hi =>
      hlacks i (List.mem_cons_of_mem _ (List.mem_append_left _ hi))
    have hlacksr : p.Lacks code rest := fun i hi =>
      hlacks i (List.mem_cons_of_mem _ (List.mem_append_right _ hi))
    obtain ⟨fuel, rfl⟩ : ∃ k, fuel = k + 1 := ⟨fuel - 1, by omega⟩
    -- the first tree is lost
    obtain ⟨q₁, hoff₁, hmiss₁⟩ :=
      ihb hbelow hnodupb hlacksb (by omega : below.height ≤ fuel) hchildren
    have hvain := hmiss₁ e.child []
    rw [List.append_nil] at hvain
    obtain ⟨q₂, hq₂, hoff₂, -⟩ := exists_lost ⟨hh, hbelow, trivial⟩ hn
      (hlacks e.child List.mem_cons_self n hn) (fun hmem => hself (List.mem_append_left _ hmem))
      hoff₁ hvain
    -- the other trees are as they were
    have hapart : ∀ i ∈ rest.handles, i ∉ e.child :: below.handles := by
      intro i hi hmem
      rcases List.mem_cons.mp hmem with rfl | hmem
      · exact hself (List.mem_append_right _ hi)
      · exact hdisjoint i hmem i hi rfl
    obtain ⟨q, hoffr, hmiss⟩ := ihr (hoff₂.spans hrest hapart) hnodupr
      (hoff₂.lacks hrest hapart hlacksr) (by omega : rest.height ≤ fuel + 1) hrestes
    refine ⟨q, (hoff₂.mono ?_).trans (hoffr.mono ?_), fun h es' => ?_⟩
    · exact List.cons_subset_cons _ (List.subset_append_left _ _)
    · exact fun i hi => List.mem_cons_of_mem _ (List.mem_append_right _ hi)
    · rw [List.cons_append, pruneEdges, hq₂]
      exact hmiss h es'

/-! ### Chains -/

/-- The chain of the nodes that stay ends in `t`: every node before has one child that stays. -/
inductive Chain (p : Pattern) (drop : List Handle) : Handle → Handle → Prop where
  /-- No child stays. -/
  | stop {h : Handle} {n : Node} (hn : p.node? h = some n)
      (hnone : n.children.filter (· ∉ drop) = []) : Chain p drop h h
  /-- One child stays. -/
  | step {h c t : Handle} {n : Node} (hn : p.node? h = some n)
      (hone : n.children.filter (· ∉ drop) = [c]) (hchain : Chain p drop c t) : Chain p drop h t

theorem Spans.exists_chainEnd (drop : List Handle) {h : Handle} {below : Forest}
    (hf : p.Spans (.cons h below .nil)) (hfuel : below.height < fuel) :
    ∃ o, p.chainEnd drop fuel h = some o ∧ ∀ t, o = some t → p.Chain drop h t := by
  induction fuel generalizing h below with
  | zero => omega
  | succ fuel ih =>
    obtain ⟨hh, hbelow, -⟩ := hf
    obtain ⟨n, hn, hchildren⟩ := children?_eq_some_iff.mp hh
    have hfilter : (n.children.filter fun c => !drop.contains c) = n.children.filter (· ∉ drop) :=
      List.filter_congr fun c _ => by simp
    rw [chainEnd, hn]
    simp only [Option.bind_eq_bind, Option.bind_some]
    rw [hfilter]
    rcases hkept : n.children.filter (· ∉ drop) with _ | ⟨c, _ | ⟨c', cs⟩⟩
    · -- no branch stays: the chain ends here
      exact ⟨some h, rfl, fun t ht => Option.some.inj ht ▸ .stop hn hkept⟩
    · -- one branch stays, and the chain goes on
      have hc : c ∈ n.children.filter (· ∉ drop) := by rw [hkept]; exact List.mem_cons_self
      have hmem : c ∈ below.handles :=
        Forest.mem_handles_of_mem_roots (hchildren ▸ List.mem_of_mem_filter hc)
      obtain ⟨b, hspans, -, hheight⟩ := hbelow.exists_subtree hmem
      obtain ⟨o, ho, hchain⟩ := ih hspans (by omega)
      exact ⟨o, ho, fun t ht => .step hn hkept (hchain t ht)⟩
    · -- two branches stay
      exact ⟨none, rfl, nofun⟩

theorem Chain.below_end {h t : Handle} (hchain : p.Chain drop h t) (hf : p.Spans f)
    (hh : h ∈ f.handles) : p.Below h t := by
  induction hchain with
  | stop => exact hf.below_self hh
  | @step h c t n hn hone _ ih =>
    have hc : c ∈ n.children := List.mem_of_mem_filter (hone ▸ List.mem_cons_self)
    obtain ⟨below, hspans, hmem⟩ := (hf.below_self hh).of_mem_children hn hc
    have hbelow := ih (hf.mem_of_mem_children hh (children?_eq_some_iff.mpr ⟨n, hn, rfl⟩) hc)
    refine ⟨below, hspans, ?_⟩
    have hend := hspans.mem_of_below (c := c) (by simpa using hmem) hbelow
    simpa using hend

theorem Unfolds.exists_chainEnd (hp : p.Unfolds f) (drop : List Handle) :
    ∃ o, p.chainEnd drop p.size p.root = some o ∧ ∀ t, o = some t → p.Chain drop p.root t := by
  obtain ⟨below, rfl⟩ := Forest.exists_eq_of_roots_singleton hp.roots_eq
  obtain ⟨fuel, -, hsize, hheight, -, -⟩ := hp.spans.exists_fuel
  exact hp.spans.exists_chainEnd drop (by omega)

/-- If one child of a node stays, every edge before the one to it, and every edge after, leads to a
child that goes. -/
theorem exists_edges_of_filter {n : Node} {c : Handle} (hone : n.children.filter (· ∉ drop) = [c]) :
    ∃ es e es', n.edges = es ++ e :: es' ∧ e.child = c ∧ (n.cut drop).edges = [e] ∧
      es.map (·.child) ⊆ drop ∧ es'.map (·.child) ⊆ drop := by
  rw [← Node.children_cut, Node.children, List.map_eq_singleton_iff] at hone
  obtain ⟨e, he, rfl⟩ := hone
  have hsplit : n.edges.filter (·.child ∉ drop) = e :: [] := he
  obtain ⟨es, es', hedges, hbefore, -, hafter⟩ := List.filter_eq_cons_iff.mp hsplit
  refine ⟨es, e, es', hedges, rfl, he, fun i hi => ?_, fun i hi => ?_⟩
  · obtain ⟨e', he', rfl⟩ := List.mem_map.mp hi
    simpa using hbefore e' he'
  · obtain ⟨e', he', rfl⟩ := List.mem_map.mp hi
    simpa using List.filter_eq_nil_iff.mp hafter e' he'

/-- A node of which one child stays.  Below it are the trees of the children before, the tree of
this child, and the trees of the children after. -/
structure Fork (p : Pattern) (drop : List Handle) (f : Forest) (h : Handle) (n : Node) (e : Edge)
    (g₁ b g₂ : Forest) : Prop where
  /-- The trees hang below the node. -/
  spans : p.Spans (.cons h (g₁.append (.cons e.child b g₂)) .nil)
  /-- All of them stand in the forest. -/
  sublist : (h :: (g₁.handles ++ e.child :: (b.handles ++ g₂.handles))).Sublist f.handles
  /-- The node is in its slot. -/
  node : p.node? h = some n
  /-- The edge to the child is the only one that stays. -/
  cut : (n.cut drop).edges = [e]
  /-- The children before it go. -/
  before : g₁.roots ⊆ drop
  /-- The children after it go. -/
  after : g₂.roots ⊆ drop

/-- If one child of a node stays, the node is a fork. -/
theorem Spans.exists_fork {h c : Handle} {n : Node} {below : Forest}
    (hf : p.Spans (.cons h below .nil)) (hsub : (h :: below.handles).Sublist f.handles)
    (hn : p.node? h = some n) (hone : n.children.filter (· ∉ drop) = [c]) :
    ∃ es e es' g₁ b g₂, n.edges = es ++ e :: es' ∧ e.child = c ∧ es.map (·.child) = g₁.roots ∧
      below = Forest.append g₁ (.cons e.child b g₂) ∧ Fork p drop f h n e g₁ b g₂ := by
  obtain ⟨n', hn', hchildren⟩ := children?_eq_some_iff.mp hf.1
  cases hn.symm.trans hn'
  obtain ⟨es, e, es', hedges, rfl, hcut, hbefore, hafter⟩ := exists_edges_of_filter hone
  have hroots : below.roots = es.map (·.child) ++ e.child :: es'.map (·.child) := by
    rw [← hchildren, Node.children, hedges, List.map_append, List.map_cons]
  obtain ⟨g₁, g', rfl, hg₁, hg'⟩ := Forest.exists_append_of_roots hroots
  obtain ⟨b, g₂, rfl, hg₂⟩ := Forest.exists_eq_of_roots_cons hg'
  rw [Forest.handles_append, Forest.handles_cons] at hsub
  exact ⟨es, e, es', g₁, b, g₂, hedges, rfl, hg₁.symm, rfl,
    hf, hsub, hn, hcut, hg₁ ▸ hbefore, hg₂ ▸ hafter⟩

namespace Fork

variable {h : Handle} {n : Node} {e : Edge} {g₁ b g₂ : Forest}

theorem children_eq (hk : Fork p drop f h n e g₁ b g₂) :
    n.bare.children = g₁.roots ++ e.child :: g₂.roots := by
  obtain ⟨n', hn', hchildren⟩ := children?_eq_some_iff.mp hk.spans.1
  cases hk.node.symm.trans hn'
  rw [Forest.roots_append, Forest.roots_cons] at hchildren
  exact hchildren

theorem children_subset (hk : Fork p drop f h n e g₁ b g₂) :
    n.bare.children ⊆ g₁.handles ++ e.child :: (b.handles ++ g₂.handles) := by
  intro c hc
  have hroots : c ∈ (g₁.append (.cons e.child b g₂)).roots := by
    rwa [Forest.roots_append, Forest.roots_cons, ← hk.children_eq]
  have hmem := Forest.mem_handles_of_mem_roots hroots
  rwa [Forest.handles_append, Forest.handles_cons] at hmem

theorem tree (hk : Fork p drop f h n e g₁ b g₂) : p.Spans (.cons e.child b .nil) := by
  obtain ⟨-, hchild, hb, -⟩ := spans_append_iff.mp hk.spans.2.1
  exact ⟨hchild, hb, trivial⟩

theorem tree_sublist (hk : Fork p drop f h n e g₁ b g₂) :
    (e.child :: b.handles).Sublist f.handles := by
  refine List.Sublist.trans ?_ hk.sublist
  exact (((List.sublist_append_left _ _).cons_cons _).trans (List.sublist_append_right _ _)).cons _

theorem tree_subset (_ : Fork p drop f h n e g₁ b g₂) :
    e.child :: b.handles ⊆ e.child :: (b.handles ++ g₂.handles) :=
  List.cons_subset_cons _ (List.subset_append_left _ _)

theorem self_not_mem (hk : Fork p drop f h n e g₁ b g₂) (hp : p.Sound f) :
    h ∉ g₁.handles ++ e.child :: (b.handles ++ g₂.handles) :=
  (List.nodup_cons.mp (hk.sublist.nodup hp.nodup)).1

/-- The trees before have slots of their own. -/
theorem before_apart (hk : Fork p drop f h n e g₁ b g₂) (hp : p.Sound f) :
    g₁.handles.Nodup ∧ ∀ i ∈ g₁.handles, i ∉ e.child :: (b.handles ++ g₂.handles) := by
  obtain ⟨-, hnodup⟩ := List.nodup_cons.mp (hk.sublist.nodup hp.nodup)
  obtain ⟨hnodup₁, -, hdisjoint⟩ := List.nodup_append.mp hnodup
  exact ⟨hnodup₁, fun i hi hmem => hdisjoint i hi i hmem rfl⟩

/-- What is below the child is neither the node nor one of its children. -/
theorem below_apart (hk : Fork p drop f h n e g₁ b g₂) (hp : p.Sound f) :
    ∀ i ∈ b.handles, i ∉ h :: n.bare.children := by
  obtain ⟨hself, hnodup⟩ := List.nodup_cons.mp (hk.sublist.nodup hp.nodup)
  obtain ⟨-, hnodup, hdisjoint₁⟩ := List.nodup_append.mp hnodup
  obtain ⟨hchild, hnodup⟩ := List.nodup_cons.mp hnodup
  obtain ⟨-, -, hdisjoint⟩ := List.nodup_append.mp hnodup
  intro i hi hmem
  have hmem₂ : i ∈ e.child :: (b.handles ++ g₂.handles) :=
    List.mem_cons_of_mem _ (List.mem_append_left _ hi)
  rw [hk.children_eq] at hmem
  rcases List.mem_cons.mp hmem with rfl | hmem
  · -- the node itself
    exact hself (List.mem_append_right _ hmem₂)
  · rcases List.mem_append.mp hmem with hmem | hmem
    · -- a child before
      exact hdisjoint₁ i (Forest.mem_handles_of_mem_roots hmem) i hmem₂ rfl
    · rcases List.mem_cons.mp hmem with rfl | hmem
      · -- the child at the top of the tree
        exact hchild (List.mem_append_left _ hi)
      · -- a child after
        exact hdisjoint i hi i (Forest.mem_handles_of_mem_roots hmem) rfl

/-- A node of the subtree that stays is the node itself, the child, or below the child. -/
theorem eq_or_mem_tree (hk : Fork p drop f h n e g₁ b g₂) (hdrop : p.Drops drop) {i : Handle}
    (hi : i ∈ h :: (g₁.handles ++ e.child :: (b.handles ++ g₂.handles))) (hmem : i ∉ drop) :
    i = h ∨ i ∈ e.child :: b.handles := by
  obtain ⟨hspans₁, -, -, hspans₂⟩ := spans_append_iff.mp hk.spans.2.1
  rcases List.mem_cons.mp hi with rfl | hi
  · exact Or.inl rfl
  · right
    rcases List.mem_append.mp hi with hi | hi
    · exact absurd (hdrop.handles_subset hspans₁ hk.before hi) hmem
    · rcases List.mem_cons.mp hi with rfl | hi
      · exact List.mem_cons_self
      · rcases List.mem_append.mp hi with hi | hi
        · exact List.mem_cons_of_mem _ hi
        · exact absurd (hdrop.handles_subset hspans₂ hk.after hi) hmem

end Fork

/-! ### Searching with success -/

/-- Between `r` and `q` only the slots listed change, and there `q` has the nodes of `p` that stay,
each without the edges to those that go. -/
structure CutsOn (drop slots : List Handle) (p r q : Pattern) : Prop where
  /-- Other slots are left alone. -/
  off : EqOff slots r q
  /-- Nodes that stay are cut. -/
  cut : ∀ i ∈ slots, i ∉ drop → q.bare? i = (p.bare? i).map (Node.cut drop)

/-- The node at the end of the chain is found, and loses its children, which go. -/
theorem exists_found (hdrop : p.Drops drop) {h : Handle} {k : Node} {below : Forest}
    (hf : p.Spans (.cons h below .nil)) (hself : h ∉ below.handles) (hk : p.node? h = some k)
    (hnone : k.children.filter (· ∉ drop) = []) (hsize : r.size = p.size)
    (hr : r.bare? h = some k.bare) :
    ∃ q, pruneFrom k.code (fuel + 1) h r = some (true, q) ∧
      CutsOn drop (h :: below.handles) p r q := by
  obtain ⟨k', hk', hchildren⟩ := children?_eq_some_iff.mp hf.1
  cases hk.symm.trans hk'
  obtain ⟨m, hm, hbare⟩ := exists_node_of_bare? hr
  have hroots : k.bare.children ⊆ below.handles := fun c hc =>
    Forest.mem_handles_of_mem_roots (hchildren ▸ hc)
  -- all children are dropped, and with them what is below
  have hgone : below.handles ⊆ drop := hdrop.handles_subset hf.2.1 fun c hc => by
    simpa using List.filter_eq_nil_iff.mp hnone c (hchildren ▸ hc)
  obtain ⟨q, hq, hclear, hqh, -⟩ := exists_clearEdges hr
    (fun c hc => hsize ▸ hf.2.1.lt_size (hroots hc)) fun hmem => hself (hroots hmem)
  refine ⟨q, ?_, hclear.mono (List.cons_subset_cons _ hroots), fun i hi hmem => ?_⟩
  · have hcode := Node.code_eq_of_bare_eq hbare
    rw [pruneFrom, hm]
    simp [hcode, hq]
  · rcases List.mem_cons.mp hi with rfl | hi
    · have hcut : (k.cut drop).edges = [] := by
        rw [← Node.children_cut, Node.children, List.map_eq_nil_iff] at hnone
        exact hnone
      rw [hqh, bare?_eq_some_of_node? hk, Option.map_some]
      exact congrArg (fun es => some { k.bare with edges := es }) hcut.symm
    · exact absurd (hgone hi) hmem

/-- If the end of the chain is found in the tree of one child, the node keeps this child only. -/
theorem Fork.exists_keepOnly {h : Handle} {n : Node} {e : Edge} {g₁ b g₂ : Forest}
    {r₁ r₂ : Pattern} (hk : Fork p drop f h n e g₁ b g₂) (hp : p.Sound f) (hdrop : p.Drops drop)
    (hsize : r.size = p.size) (hr : r.bare? h = some n.bare) (hoff : EqOff g₁.handles r r₁)
    (hcuts : CutsOn drop (e.child :: b.handles) p r₁ r₂) :
    ∃ q, r₂.keepOnly h e = some q ∧
      CutsOn drop (h :: (g₁.handles ++ e.child :: (b.handles ++ g₂.handles))) p r q := by
  have hself := hk.self_not_mem hp
  have hsub := hk.children_subset
  have hchild : e.child ∈ n.bare.children := by
    rw [hk.children_eq]
    exact List.mem_append_right _ List.mem_cons_self
  have hnr₂ : r₂.bare? h = some n.bare := by
    rw [hcuts.off.bare h fun hmem => hself (List.mem_append_right _ (hk.tree_subset hmem)),
      hoff.bare h fun hmem => hself (List.mem_append_left _ hmem), hr]
  have hlt : ∀ c ∈ n.bare.children, c < r₂.size := fun c hc => by
    rw [hcuts.off.size, hoff.size, hsize]
    exact hp.spans.lt_size (hk.sublist.subset (List.mem_cons_of_mem _ (hsub hc)))
  obtain ⟨q, hq, hoffq, hbareh, hbarec⟩ :=
    Pattern.exists_keepOnly hnr₂ hlt (fun hmem => hself (hsub hmem)) hchild
  refine ⟨q, hq, ?_, fun i hi hmem => ?_⟩
  · -- what changed is before the child, below it, or one of the children
    refine ((hoff.mono ?_).trans (hcuts.off.mono ?_)).trans (hoffq.mono ?_)
    · exact fun i hi => List.mem_cons_of_mem _ (List.mem_append_left _ hi)
    · exact fun i hi => List.mem_cons_of_mem _ (List.mem_append_right _ (hk.tree_subset hi))
    · exact List.cons_subset_cons _ hsub
  · rcases hk.eq_or_mem_tree hdrop hi hmem with rfl | htree
    · rw [hbareh, bare?_eq_some_of_node? hk.node, Option.map_some]
      exact congrArg (fun es => some { n.bare with edges := es }) hk.cut.symm
    · rcases List.mem_cons.mp htree with rfl | hbelow
      · -- the child is linked to its parent as before
        obtain ⟨m, hm⟩ := hk.tree.exists_node List.mem_cons_self
        have hparent := hp.hangs.parent_eq (hk.sublist.subset List.mem_cons_self) hk.node hchild hm
        rw [hbarec, hcuts.cut _ List.mem_cons_self hmem, bare?_eq_some_of_node? hm, ← hparent]
        rfl
      · rw [hoffq.bare i (hk.below_apart hp i hbelow)]
        exact hcuts.cut i htree hmem

/-- Pruning to the code at the end of a chain keeps the chain and cuts everything else off. -/
theorem Chain.exists_hit (hp : p.Sound f) (hdrop : p.Drops drop) {h t : Handle}
    (hchain : p.Chain drop h t) {k : Node} (hk : p.node? t = some k) {below : Forest}
    (hf : p.Spans (.cons h below .nil)) (hsub : (h :: below.handles).Sublist f.handles)
    (hfuel : below.height < fuel) (hoff : EqOff slots p r)
    (hapart : ∀ i ∈ h :: below.handles, i ∉ slots) :
    ∃ q, pruneFrom k.code fuel h r = some (true, q) ∧
      CutsOn drop (h :: below.handles) p r q := by
  induction hchain generalizing below fuel slots r with
  | @stop h n hn hnone =>
    cases hn.symm.trans hk
    obtain ⟨fuel, rfl⟩ : ∃ j, fuel = j + 1 := ⟨fuel - 1, by omega⟩
    have hself := (List.nodup_cons.mp (hsub.nodup hp.nodup)).1
    refine exists_found hdrop hf hself hk hnone hoff.size ?_
    rw [hoff.bare h (hapart h List.mem_cons_self), bare?_eq_some_of_node? hk]
  | @step h c t n hn hone hchain ih =>
    obtain ⟨fuel, rfl⟩ : ∃ j, fuel = j + 1 := ⟨fuel - 1, by omega⟩
    obtain ⟨es, e, es', g₁, b, g₂, hedges, rfl, hes, rfl, hfork⟩ := hf.exists_fork hsub hn hone
    rw [Forest.height_append, Forest.height] at hfuel
    rw [Forest.handles_append, Forest.handles_cons] at hapart ⊢
    have hself := hfork.self_not_mem hp
    obtain ⟨hnodup₁, hapart₁⟩ := hfork.before_apart hp
    have hr : r.bare? h = some n.bare := by
      rw [hoff.bare h (hapart h List.mem_cons_self), bare?_eq_some_of_node? hn]
    -- the code is that of the end of the chain alone, and this is in the tree of the child
    have ht : t ∈ e.child :: b.handles := hfork.tree.below_iff.mp
      (hchain.below_end hp.spans (hfork.tree_sublist.subset List.mem_cons_self))
    have hcode : ∀ i ∈ f.handles, i ∉ e.child :: b.handles → ∀ m, p.node? i = some m →
        m.code ≠ k.code := fun i hi hmem m hm heq =>
      hmem (hp.eq_of_code_eq hi (hfork.tree_sublist.subset ht) hm hk heq ▸ ht)
    have hlacks : p.Lacks k.code g₁ := fun i hi =>
      hcode i (hfork.sublist.subset (List.mem_cons_of_mem _ (List.mem_append_left _ hi)))
        fun hmem => hapart₁ i hi (hfork.tree_subset hmem)
    -- the trees before the child are searched in vain
    have hspans₁ := (spans_append_iff.mp hf.2.1).1
    have hoff₁ : ∀ i ∈ g₁.handles, i ∉ slots := fun i hi =>
      hapart i (List.mem_cons_of_mem _ (List.mem_append_left _ hi))
    obtain ⟨r₁, hr₁, hmiss⟩ := (hoff.spans hspans₁ hoff₁).exists_miss hnodup₁
      (hoff.lacks hspans₁ hoff₁ hlacks) (by omega : g₁.height ≤ fuel) hes
    -- the search in the tree of the child succeeds
    have hoff' : EqOff (slots ++ g₁.handles) p r₁ :=
      (hoff.mono (List.subset_append_left _ _)).trans (hr₁.mono (List.subset_append_right _ _))
    have hapart' : ∀ i ∈ e.child :: b.handles, i ∉ slots ++ g₁.handles := by
      intro i hi hmem
      rcases List.mem_append.mp hmem with hmem | hmem
      · exact hapart i
          (List.mem_cons_of_mem _ (List.mem_append_right _ (hfork.tree_subset hi))) hmem
      · exact hapart₁ i hmem (hfork.tree_subset hi)
    obtain ⟨r₂, hr₂, hcuts⟩ :=
      ih hk hfork.tree hfork.tree_sublist (by omega : b.height < fuel) hoff' hapart'
    obtain ⟨q, hq, hcutsq⟩ := hfork.exists_keepOnly hp hdrop hoff.size hr hr₁ hcuts
    refine ⟨q, ?_, hcutsq⟩
    -- the node at hand is not the end of the chain, so its children are searched
    obtain ⟨m, hm, hbare⟩ := exists_node_of_bare? hr
    have hne : m.code ≠ k.code := by
      rw [Node.code_eq_of_bare_eq hbare]
      exact hcode h (hsub.subset List.mem_cons_self)
        (fun hmem => hself (List.mem_append_right _ (hfork.tree_subset hmem))) n hn
    rw [pruneFrom, hm]
    simp only [Option.bind_eq_bind, Option.bind_some, hne, if_false]
    rw [Node.edges_eq_of_bare_eq hbare, hedges, hmiss, pruneEdges, hr₂]
    simp [hq]

/-- Pruning to the end of the chain of the nodes that stay cuts the branches off. -/
theorem Sound.exists_pruneTo (hp : p.Sound f) (hdrop : p.Drops drop) {t : Handle}
    (hchain : p.Chain drop p.root t) :
    ∃ k q, p.node? t = some k ∧ p.pruneTo k.code = some (true, q) ∧ Cuts drop f p q := by
  obtain ⟨below, rfl⟩ := Forest.exists_eq_of_roots_singleton hp.roots_eq
  have hhandles : (Forest.cons p.root below .nil).handles = p.root :: below.handles := by simp
  obtain ⟨fuel, -, hsize, hheight, -, -⟩ := hp.spans.exists_fuel
  have ht := hp.spans.mem_of_below List.mem_cons_self
    (hchain.below_end hp.spans List.mem_cons_self)
  obtain ⟨k, hk⟩ := hp.spans.exists_node ht
  obtain ⟨q, hq, hcuts⟩ := hchain.exists_hit hp hdrop hk hp.spans
    (hhandles ▸ List.Sublist.refl _) (by omega : below.height < p.size)
    (EqOff.refl p : EqOff [] p p) (fun _ _ => List.not_mem_nil)
  refine ⟨k, q.forget, hk, ?_, hcuts.off.name, hcuts.off.root, fun i hi hmem => ?_⟩
  · rw [pruneTo, hq]
    rfl
  · rw [bare?_forget]
    exact hcuts.cut i (hhandles ▸ hi) hmem

end TwigAlgebra.Pattern
