import TwigAlgebra.Proofs.Searching

/-!
# The breadth-first listing

A queue from which every node is served in turn, its children lining up at the end, holds the top
slots of a forest at each moment.  When all the slots of a level have been served, exactly the next
level is lined up.  The listing is therefore the levels of the tree, one after the other, and a slot
that is listed in a level is as many edges away from the top as the level is deep.

## Main definitions

* `Forest.beneath`, `Forest.level` — the trees below the top nodes, and the slots so many edges
  down.
* `Pattern.Levelled` — a list of a subtree's slots, level by level.

## Main results

* `Pattern.Spans.serveAll_level` — what serving a level does.
* `Pattern.Spans.bfs_eq` — the listing is the levels.
* `Pattern.Spans.mem_level_iff` — the slots of a level are those that a way of its length leads to.
* `Pattern.Spans.exists_levelled` — the breadth-first listing of a tree.
-/

namespace TwigAlgebra

namespace Forest

/-- The trees below the top nodes, from left to right. -/
def beneath : Forest → Forest
  | nil => nil
  | cons _ below rest => below.append rest.beneath

/-- The slots that are so many edges below the top nodes, from left to right. -/
def level (f : Forest) : Nat → List Handle
  | 0 => f.roots
  | k + 1 => f.beneath.level k

variable {f : Forest} {i : Handle} {k m : Nat}

theorem handles_beneath (f : Forest) : f.beneath.handles = f.lower := by
  induction f with
  | nil => rfl
  | cons h below rest _ ih => rw [beneath, handles_append, ih, lower_cons]

/-- Every slot is that of a top node or one beneath. -/
theorem handles_perm_beneath (f : Forest) : f.handles.Perm (f.roots ++ f.beneath.handles) := by
  rw [handles_beneath]
  exact f.handles_perm

theorem length_handles (f : Forest) :
    f.handles.length = f.roots.length + f.beneath.handles.length := by
  rw [f.handles_perm_beneath.length_eq, List.length_append]

theorem height_beneath (f : Forest) : f.beneath.height = f.height - 1 := by
  induction f with
  | nil => rfl
  | cons h below rest _ ih =>
    rw [beneath, height_append, ih, height]
    omega

theorem mem_handles_of_mem_level (hi : i ∈ f.level k) : i ∈ f.handles := by
  induction k generalizing f with
  | zero => exact mem_handles_of_mem_roots hi
  | succ k ih => exact f.handles_perm_beneath.symm.subset (List.mem_append_right _ (ih hi))

/-- Where no slot repeats, top slots are not in lower levels. -/
theorem not_mem_level_succ (hf : f.handles.Nodup) (hi : i ∈ f.roots) : i ∉ f.level (k + 1) := by
  intro hk
  have hlower : i ∈ f.beneath.handles := mem_handles_of_mem_level (f := f.beneath) hk
  have hparts := f.handles_perm_beneath.nodup_iff.mp hf
  exact (List.nodup_append.mp hparts).2.2 i hi i hlower rfl

/-- Where no slot repeats, none is in two levels. -/
theorem level_unique (hf : f.handles.Nodup) (hk : i ∈ f.level k) (hm : i ∈ f.level m) : k = m := by
  induction k generalizing f m with
  | zero =>
    cases m with
    | zero => rfl
    | succ m => exact absurd hm (not_mem_level_succ hf hk)
  | succ k ih =>
    cases m with
    | zero => exact absurd hk (not_mem_level_succ hf hm)
    | succ m =>
      have hparts := f.handles_perm_beneath.nodup_iff.mp hf
      rw [ih (List.nodup_append.mp hparts).2.1 hk hm]

/-- There are as many levels as the forest is high. -/
theorem lt_height_of_mem_level (hi : i ∈ f.level k) : k < f.height := by
  induction k generalizing f with
  | zero =>
    cases f with
    | nil => cases hi
    | cons h below rest =>
      rw [height]
      omega
  | succ k ih =>
    have hlt := ih hi
    rw [height_beneath] at hlt
    omega

end Forest

namespace Pattern

variable {p : Pattern} {f below : Forest} {h i r : Handle} {k m : Nat} {n : Node} {es : List Edge}
  {l : List Handle}

namespace Spans

theorem beneath (hf : p.Spans f) : p.Spans f.beneath := by
  induction f with
  | nil => trivial
  | cons h below rest _ ih =>
    obtain ⟨-, hbelow, hrest⟩ := hf
    exact spans_append_iff.mpr ⟨hbelow, ih hrest⟩

/-- The children of a top node stand together in the next level. -/
theorem children_infix (hf : p.Spans f) (hr : r ∈ f.roots) (hn : p.node? r = some n) :
    n.children <:+: f.beneath.roots := by
  induction f with
  | nil => cases hr
  | cons h below rest _ ih =>
    obtain ⟨hh, -, hrest⟩ := hf
    rw [Forest.beneath, Forest.roots_append]
    rcases List.mem_cons.mp hr with rfl | hr
    · obtain ⟨m, hm, hchildren⟩ := children?_eq_some_iff.mp hh
      cases hn.symm.trans hm
      rw [hchildren]
      exact (List.prefix_append _ _).isInfix
    · exact (ih hrest hr).trans (List.suffix_append _ _).isInfix

/-! ### Serving a level -/

/-- When the top nodes have been served, the trees below them are lined up behind the rest of the
queue. -/
theorem serveAll_level (hf : p.Spans f) (steps : Nat) (queue : List Handle) :
    p.serveAll (f.roots.length + steps) (f.roots ++ queue)
      = (p.serveAll steps (queue ++ f.beneath.roots)).map (f.beneath.roots ++ ·) := by
  induction f generalizing queue with
  | nil => simp [Forest.beneath]
  | cons h below rest _ ih =>
    obtain ⟨hh, -, hrest⟩ := hf
    obtain ⟨n, hn, hchildren⟩ := children?_eq_some_iff.mp hh
    have hsteps :
        (Forest.cons h below rest).roots.length + steps = rest.roots.length + steps + 1 := by
      rw [Forest.roots_cons, List.length_cons]
      omega
    rw [hsteps, Forest.roots_cons, List.cons_append, serveAll, hn]
    simp only [Option.bind_eq_bind, Option.bind_some, hchildren, List.append_assoc]
    rw [ih hrest, Forest.beneath, Forest.roots_append, List.append_assoc]
    cases p.serveAll steps (queue ++ (below.roots ++ rest.beneath.roots)) <;> simp

/-- A forest is served level by level. -/
theorem serveAll_roots (hf : p.Spans f) :
    p.serveAll f.handles.length f.roots
      = (p.serveAll f.beneath.handles.length f.beneath.roots).map (f.beneath.roots ++ ·) := by
  have hserved := hf.serveAll_level f.beneath.handles.length []
  rwa [List.append_nil, List.nil_append, ← f.length_handles] at hserved

/-- Serving a forest lists the levels below the top one. -/
theorem serveAll_eq (hf : p.Spans f) (hk : f.height ≤ k + 1) :
    p.serveAll f.handles.length f.roots = some ((List.range k).flatMap f.beneath.level) := by
  rw [hf.serveAll_roots]
  have hlower := f.height_beneath
  induction k generalizing f with
  | zero =>
    cases hbeneath : f.beneath with
    | nil => rfl
    | cons h below rest =>
      rw [hbeneath, Forest.height] at hlower
      omega
  | succ k ih =>
    rw [hf.beneath.serveAll_roots, ih hf.beneath (by omega) f.beneath.height_beneath,
      List.range_succ_eq_map, List.flatMap_cons, List.flatMap_map]
    rfl

/-- The breadth-first listing is the levels, one after the other. -/
theorem bfs_eq (hf : p.Spans (.cons h below .nil)) :
    p.bfs h = some ((List.range (below.height + 1)).flatMap (Forest.cons h below .nil).level) := by
  have hserved := hf.serveAll_eq (Nat.max_le.mpr ⟨Nat.le_refl _, Nat.zero_le _⟩)
  have hcount : p.count h = some (Forest.cons h below .nil).handles.length := by
    rw [hf.count_eq, Forest.handles_cons, Forest.handles_nil, List.append_nil, List.length_cons]
  rw [bfs, hcount]
  simp only [Option.bind_eq_bind, Option.bind_some]
  rw [show [h] = (Forest.cons h below .nil).roots from rfl, hserved, List.range_succ_eq_map,
    List.flatMap_cons, List.flatMap_map]
  rfl

/-! ### Ways and levels -/

/-- A way leads down as many levels as it has edges. -/
theorem mem_level_of_way (hf : p.Spans f) (hr : r ∈ f.roots) (hway : p.Way r es i) :
    i ∈ f.level es.length := by
  induction es generalizing f r with
  | nil =>
    cases hway
    exact hr
  | cons e es ih =>
    obtain ⟨⟨n, hn, he⟩, hrest⟩ := hway
    have hchild : e.child ∈ n.children := List.mem_map_of_mem he
    exact ih hf.beneath ((hf.children_infix hr hn).subset hchild) hrest

/-- What stands in the next level is the child of a top node. -/
theorem exists_parent_of_mem_beneath (hf : p.Spans f) (hi : i ∈ f.beneath.roots) :
    ∃ r ∈ f.roots, ∃ n, p.node? r = some n ∧ i ∈ n.children := by
  induction f with
  | nil => cases hi
  | cons h below rest _ ih =>
    obtain ⟨hh, -, hrest⟩ := hf
    rw [Forest.beneath, Forest.roots_append] at hi
    rcases List.mem_append.mp hi with hi | hi
    · obtain ⟨n, hn, hchildren⟩ := children?_eq_some_iff.mp hh
      exact ⟨h, List.mem_cons_self, n, hn, hchildren ▸ hi⟩
    · obtain ⟨r, hr, hparent⟩ := ih hrest hi
      exact ⟨r, List.mem_cons_of_mem _ hr, hparent⟩

/-- The slots of a level are those that a way of its length leads to. -/
theorem mem_level_iff (hf : p.Spans f) :
    i ∈ f.level k ↔ ∃ r ∈ f.roots, ∃ es, p.Way r es i ∧ es.length = k := by
  constructor
  · intro hi
    induction k generalizing f with
    | zero => exact ⟨i, hi, [], rfl, rfl⟩
    | succ k ih =>
      obtain ⟨c, hc, es, hway, rfl⟩ := ih hf.beneath hi
      obtain ⟨r, hr, n, hn, hchild⟩ := hf.exists_parent_of_mem_beneath hc
      obtain ⟨e, he, rfl⟩ := List.mem_map.mp hchild
      exact ⟨r, hr, e :: es, ⟨⟨n, hn, he⟩, hway⟩, rfl⟩
  · rintro ⟨r, hr, es, hway, rfl⟩
    exact hf.mem_level_of_way hr hway

/-- The children of a node stand together in the level after its own. -/
theorem children_infix_level (hf : p.Spans f) (hi : i ∈ f.level k) (hn : p.node? i = some n) :
    n.children <:+: f.level (k + 1) := by
  induction k generalizing f with
  | zero => exact hf.children_infix hi hn
  | succ k ih => exact ih hf.beneath hi

end Spans

/-! ### The listing -/

/-- The list has the slots of the subtree of `h`, of which `below` is the part below the top, each
as often as the pre-order listing; nearer ones come before those that are farther away, and the
children of each node stand together, in the order of its edges. -/
structure Levelled (p : Pattern) (h : Handle) (below : Forest) (l : List Handle) : Prop where
  /-- The same slots are listed as in pre-order. -/
  perm : l.Perm (h :: below.handles)
  /-- A way leads down to each. -/
  reached : ∀ i ∈ l, ∃ es, p.Way h es i
  /-- No way to a slot is longer than one to a later slot. -/
  ordered : l.Pairwise fun i j =>
    ∀ es es', p.Way h es i → p.Way h es' j → es.length ≤ es'.length
  /-- Children stand together. -/
  together : ∀ i ∈ l, ∀ n, p.node? i = some n → n.children <:+: l

/-- The breadth-first listing of a tree without shared slots is ordered by distance from the top. -/
theorem Spans.exists_levelled (hf : p.Spans (.cons h below .nil))
    (hnodup : (h :: below.handles).Nodup) : ∃ l, p.bfs h = some l ∧ p.Levelled h below l := by
  obtain ⟨l, hl, hperm⟩ := hf.exists_bfs
  have hlevels := Option.some.inj (hf.bfs_eq.symm.trans hl)
  have hmem : ∀ {i}, i ∈ l → ∃ k, i ∈ (Forest.cons h below .nil).level k := by
    intro i hi
    rw [← hlevels] at hi
    obtain ⟨k, -, hk⟩ := List.mem_flatMap.mp hi
    exact ⟨k, hk⟩
  -- all ways to a slot are of one length, for no slot is in two levels
  have hlength : ∀ {i k es}, i ∈ (Forest.cons h below .nil).level k → p.Way h es i →
      es.length = k := by
    intro i k es hi hway
    refine Forest.level_unique ?_ (hf.mem_level_of_way List.mem_cons_self hway) hi
    rwa [Forest.handles_cons, Forest.handles_nil, List.append_nil]
  refine ⟨l, hl, hperm, ?_, ?_, ?_⟩
  · -- each listed slot is reached
    intro i hi
    obtain ⟨k, hk⟩ := hmem hi
    obtain ⟨r, hr, es, hway, -⟩ := hf.mem_level_iff.mp hk
    cases List.mem_singleton.mp hr
    exact ⟨es, hway⟩
  · -- nearer slots come first: within a level all are equally far, and levels go down
    rw [← hlevels, List.pairwise_flatMap]
    constructor
    · intro k _
      refine List.pairwise_of_forall_mem_list fun i hi j hj es es' hes hes' => ?_
      exact Nat.le_of_eq ((hlength hi hes).trans (hlength hj hes').symm)
    · refine List.pairwise_lt_range.imp fun hlt i hi j hj es es' hes hes' => ?_
      rw [hlength hi hes, hlength hj hes']
      omega
  · -- the children of a node stand together in the next level
    intro i hi n hn
    obtain ⟨k, hk⟩ := hmem hi
    have hnext := hf.children_infix_level hk hn
    cases hchildren : n.children with
    | nil => exact List.nil_infix
    | cons c cs =>
      rw [hchildren] at hnext
      have hlt := Forest.lt_height_of_mem_level (hnext.subset List.mem_cons_self)
      rw [Forest.height, Forest.height, Nat.max_zero] at hlt
      rw [← hlevels]
      exact hnext.trans (List.infix_flatMap_of_mem (List.mem_range.mpr hlt) _)

end Pattern
end TwigAlgebra
