import TwigAlgebra.Pattern.Prune

/-!
# Edits of an arena

What the edits of a pattern change: the edges of one node, and the parent links of its children.
What nodes remember is left out of account, since most edits let them forget it.

## Main definitions

* `Pattern.bare?` — the node in a slot, apart from what it remembers.
* `Pattern.EqOff` — patterns that are the same outside of some slots.

## Main results

* `Pattern.exists_clearEdges`, `Pattern.exists_keepOnly`, `Pattern.exists_removeEdge` — edits of a
  node whose children exist are possible, and change only it and its children.
-/

namespace TwigAlgebra

/-- The node without what it remembers. -/
def Node.bare (n : Node) : Node := { n with topMemo := none }

theorem Node.code_eq_of_bare_eq {m n : Node} (h : m.bare = n.bare) : m.code = n.code :=
  (congrArg Node.code h : m.bare.code = n.bare.code)

theorem Node.edges_eq_of_bare_eq {m n : Node} (h : m.bare = n.bare) : m.edges = n.edges :=
  (congrArg Node.edges h : m.bare.edges = n.bare.edges)

/-- Nodes that are the same without what they remember. -/
theorem Node.eq_of_bare_eq {m n : Node} (h : m.bare = n.bare) :
    m = { n with topMemo := m.topMemo } := by
  obtain ⟨⟩ := m
  simp only [bare, mk.injEq] at h ⊢
  simpa using h

/-- The node without its parent. -/
def Node.unlinked (n : Node) : Node := { n with parent := none }

namespace Pattern

/-- The node in a slot, without what it remembers. -/
def bare? (p : Pattern) (h : Handle) : Option Node := (p.node? h).map Node.bare

variable {p q r : Pattern} {h i : Handle} {n : Node} {slots slots' : List Handle}

theorem bare?_eq_some_of_node? (hn : p.node? h = some n) : p.bare? h = some n.bare := by
  rw [bare?, hn, Option.map_some]

theorem exists_node_of_bare? (hn : p.bare? h = some n) : ∃ m, p.node? h = some m ∧ m.bare = n :=
  Option.map_eq_some_iff.mp hn

theorem children?_eq_bare? (p : Pattern) (h : Handle) :
    p.children? h = (p.bare? h).map Node.children := by
  rw [bare?, Option.map_map]
  rfl

@[simp] theorem bare?_forget (p : Pattern) (h : Handle) : p.forget.bare? h = p.bare? h := by
  rw [bare?, node?_forget, Option.map_map]
  rfl

@[simp] theorem forget_forget (p : Pattern) : p.forget.forget = p.forget := by
  simp [forget]

/-- Patterns are the same if their slots hold the same nodes. -/
theorem eq_of_node? (hname : q.name = p.name) (hroot : q.root = p.root)
    (hnode : ∀ h, q.node? h = p.node? h) : q = p := by
  obtain ⟨name, nodes, root⟩ := p
  obtain ⟨name', nodes', root'⟩ := q
  obtain rfl : name' = name := hname
  obtain rfl : root' = root := hroot
  obtain rfl : nodes' = nodes := Array.ext_getElem? hnode
  rfl

/-- Patterns that remember nothing are the same if their slots hold the same nodes. -/
theorem eq_of_bare? (hname : q.name = p.name) (hroot : q.root = p.root)
    (hbare : ∀ h, q.bare? h = p.bare? h) (hp : p.forget = p) (hq : q.forget = q) : q = p := by
  refine eq_of_node? hname hroot fun h => ?_
  rw [← hp, ← hq, node?_forget, node?_forget]
  exact hbare h

theorem bare?_update {g : Node → Node} (hq : p.update h g = some q)
    (hg : ∀ n, (g n).bare = g n.bare) (i : Handle) :
    q.bare? i = if h = i then (p.bare? i).map g else p.bare? i := by
  rw [bare?, bare?, node?_update hq]
  split
  · rw [Option.map_map, Option.map_map]
    exact congrArg (fun k => (p.node? i).map k) (funext hg)
  · rfl

theorem exists_update (hh : h < p.size) (g : Node → Node) : ∃ q, p.update h g = some q := by
  rw [← Option.isSome_iff_exists, isSome_update, Option.isSome_iff_ne_none]
  intro hnone
  exact absurd hh (Nat.not_lt.mpr (node?_eq_none_iff.mp hnone))

theorem isSome_bare? : (p.bare? h).isSome ↔ h < p.size := by
  rw [bare?, Option.isSome_map, Option.isSome_iff_ne_none, ne_eq, node?_eq_none_iff, Nat.not_le]

theorem lt_size_of_bare? (hn : p.bare? h = some n) : h < p.size :=
  isSome_bare?.mp (Option.isSome_iff_exists.mpr ⟨n, hn⟩)

/-! ### Patterns that are the same outside of some slots -/

/-- The patterns have the same slots and differ in those listed at most, apart from what nodes
remember. -/
structure EqOff (slots : List Handle) (p q : Pattern) : Prop where
  /-- The name is the same. -/
  name : q.name = p.name
  /-- The root is the same. -/
  root : q.root = p.root
  /-- There are as many slots. -/
  size : q.size = p.size
  /-- Slots that are not listed hold the same nodes. -/
  bare : ∀ h ∉ slots, q.bare? h = p.bare? h

namespace EqOff

theorem refl (p : Pattern) : EqOff slots p p := ⟨rfl, rfl, rfl, fun _ _ => rfl⟩

theorem forget (p : Pattern) : EqOff slots p p.forget :=
  ⟨rfl, rfl, size_forget p, fun h _ => bare?_forget p h⟩

theorem mono (hpq : EqOff slots p q) (h : slots ⊆ slots') : EqOff slots' p q :=
  ⟨hpq.name, hpq.root, hpq.size, fun i hi => hpq.bare i fun hmem => hi (h hmem)⟩

theorem trans (hpq : EqOff slots p q) (hqr : EqOff slots q r) : EqOff slots p r where
  name := hqr.name.trans hpq.name
  root := hqr.root.trans hpq.root
  size := hqr.size.trans hpq.size
  bare h hh := (hqr.bare h hh).trans (hpq.bare h hh)

/-- Slots that are not listed hold the same nodes, apart from what they remember. -/
theorem exists_node (hpq : EqOff slots p q) (hi : i ∉ slots) (hn : p.node? i = some n) :
    ∃ m, q.node? i = some m ∧ m.bare = n.bare :=
  exists_node_of_bare? ((hpq.bare i hi).trans (bare?_eq_some_of_node? hn))

theorem update {g : Node → Node} (hq : p.update h g = some q) (hg : ∀ n, (g n).bare = g n.bare)
    (hh : h ∈ slots) : EqOff slots p q where
  name := name_update hq
  root := root_update hq
  size := size_update hq
  bare i hi := by
    rw [bare?_update hq hg, if_neg]
    rintro rfl
    exact hi hh

end EqOff

/-! ### Edits -/

theorem exists_unlink {es : List Edge} (hes : ∀ c ∈ es.map (·.child), c < p.size) :
    ∃ q, es.foldlM (fun p e => p.update e.child Node.unlinked) p = some q ∧
      EqOff (es.map (·.child)) p q ∧
      ∀ c ∈ es.map (·.child), q.bare? c = (p.bare? c).map Node.unlinked := by
  induction es generalizing p with
  | nil => exact ⟨p, rfl, .refl p, nofun⟩
  | cons e es ih =>
    obtain ⟨p', hp'⟩ := exists_update (hes e.child List.mem_cons_self) Node.unlinked
    have hfirst : EqOff (e.child :: es.map (·.child)) p p' :=
      .update hp' (fun _ => rfl) List.mem_cons_self
    have hbare := bare?_update hp' fun _ => rfl
    have hsize : ∀ c ∈ es.map (·.child), c < p'.size := by
      rw [hfirst.size]
      exact fun c hc => hes c (List.mem_cons_of_mem _ hc)
    obtain ⟨q, hq, hrest, hlinks⟩ := ih hsize
    refine ⟨q, by rw [List.foldlM_cons, hp']; exact hq,
      hfirst.trans (hrest.mono (List.subset_cons_self _ _)), fun c hc => ?_⟩
    -- detached once more, which changes nothing
    by_cases hmem : c ∈ es.map (·.child)
    · rw [hlinks c hmem, hbare]
      split
      · rw [Option.map_map]
        rfl
      · rfl
    · rw [hrest.bare c hmem, hbare, if_pos]
      rcases List.mem_cons.mp hc with rfl | hc
      · rfl
      · exact absurd hc hmem

/-- Detaching the children of a node. -/
theorem exists_clearEdges (hn : p.bare? h = some n) (hsize : ∀ c ∈ n.children, c < p.size)
    (hself : h ∉ n.children) :
    ∃ q, p.clearEdges h = some q ∧ EqOff (h :: n.children) p q ∧
      q.bare? h = some { n with edges := [] } ∧
      ∀ c ∈ n.children, q.bare? c = (p.bare? c).map Node.unlinked := by
  obtain ⟨m, hm, rfl⟩ := exists_node_of_bare? hn
  obtain ⟨p₁, hp₁⟩ := exists_update (lt_size_of_bare? hn) fun n : Node => { n with edges := [] }
  have hfirst : EqOff (h :: m.children) p p₁ := .update hp₁ (fun _ => rfl) List.mem_cons_self
  have hbare := bare?_update hp₁ fun _ => rfl
  have hsize₁ : ∀ c ∈ m.edges.map (·.child), c < p₁.size := by
    rw [hfirst.size]
    exact hsize
  obtain ⟨p₂, hp₂, hrest, hlinks⟩ := exists_unlink hsize₁
  refine ⟨p₂.forget, ?_, (hfirst.trans (hrest.mono (List.subset_cons_self _ _))).trans (.forget _),
    ?_, fun c hc => ?_⟩
  · rw [clearEdges, hm]
    simp only [Option.bind_eq_bind, Option.bind_some, hp₁]
    exact congrArg (fun r => r.bind fun p => some p.forget) hp₂
  · rw [bare?_forget, hrest.bare h hself, hbare, if_pos rfl, hn]
    rfl
  · -- the owner is not among its own children
    rw [bare?_forget, hlinks c hc, hbare, if_neg]
    rintro rfl
    exact hself hc

/-- Making one child the only one. -/
theorem exists_keepOnly {e : Edge} (hn : p.bare? h = some n) (hsize : ∀ c ∈ n.children, c < p.size)
    (hself : h ∉ n.children) (he : e.child ∈ n.children) :
    ∃ q, p.keepOnly h e = some q ∧ EqOff (h :: n.children) p q ∧
      q.bare? h = some { n with edges := [e] } ∧
      q.bare? e.child = (p.bare? e.child).map fun m => { m with parent := some h } := by
  obtain ⟨p₁, hp₁, hclear, hbare₁, hlinks⟩ := exists_clearEdges hn hsize hself
  have hh : h < p₁.size := lt_size_of_bare? hbare₁
  obtain ⟨p₂, hp₂⟩ := exists_update hh fun n : Node => { n with edges := n.edges ++ [e] }
  have hbare₂ := bare?_update hp₂ fun _ => rfl
  have hchild : e.child < p₂.size := by
    rw [size_update hp₂, hclear.size]
    exact hsize _ he
  obtain ⟨q, hq⟩ := exists_update hchild fun n : Node => { n with parent := some h }
  have hbare := bare?_update hq fun _ => rfl
  -- the child was unlinked with its siblings, and is linked again
  have hne : e.child ≠ h := fun heq => hself (heq ▸ he)
  refine ⟨q, ?_, (hclear.trans (.update hp₂ (fun _ => rfl) List.mem_cons_self)).trans
    (.update hq (fun _ => rfl) (List.mem_cons_of_mem _ he)), ?_, ?_⟩
  · rw [keepOnly, hp₁]
    simp only [Option.bind_eq_bind, Option.bind_some, hp₂, hq]
  · rw [hbare, if_neg hne, hbare₂, if_pos rfl, hbare₁]
    rfl
  · rw [hbare, if_pos rfl, hbare₂, if_neg (Ne.symm hne), hlinks _ he, Option.map_map]
    rfl

/-- Removing the edges to one child. -/
theorem exists_removeEdge {c : Handle} (hn : p.bare? h = some n) (hc : c < p.size) (hne : c ≠ h) :
    ∃ found q, p.removeEdge h c = some (found, q) ∧ EqOff [h, c] p q ∧
      q.bare? h = some { n with edges := n.edges.filter (·.child ≠ c) } := by
  obtain ⟨m, hm, rfl⟩ := exists_node_of_bare? hn
  rw [removeEdge, hm]
  by_cases hlength : (m.edges.filter (·.child ≠ c)).length = m.edges.length
  · -- no edge leads to the child
    refine ⟨false, p, ?_, .refl p, ?_⟩
    · simp only [Option.bind_eq_bind, Option.bind_some, hlength, if_true]
      rfl
    · have hall : m.edges.filter (·.child ≠ c) = m.edges :=
        List.filter_eq_self.mpr (List.length_filter_eq_length_iff.mp hlength)
      rw [hn]
      exact congrArg some (by rw [show m.bare.edges = m.edges from rfl, hall]; rfl)
  · obtain ⟨p₁, hp₁⟩ := exists_update (lt_size_of_bare? hn)
      fun n : Node => { n with edges := m.edges.filter (·.child ≠ c) }
    have hbare₁ := bare?_update hp₁ fun _ => rfl
    obtain ⟨p₂, hp₂⟩ := exists_update ((size_update hp₁).symm ▸ hc) Node.unlinked
    have hbare₂ := bare?_update hp₂ fun _ => rfl
    refine ⟨true, p₂.forget, ?_, ((EqOff.update hp₁ (fun _ => rfl) (by simp)).trans
      (.update hp₂ (fun _ => rfl) (by simp))).trans (.forget p₂), ?_⟩
    · simp only [Option.bind_eq_bind, Option.bind_some, hlength, if_false, hp₁]
      exact congrArg (fun r => r.bind fun p => some (true, p.forget)) hp₂
    · rw [bare?_forget, hbare₂, if_neg hne, hbare₁, if_pos rfl, hn]
      rfl

end Pattern

end TwigAlgebra
