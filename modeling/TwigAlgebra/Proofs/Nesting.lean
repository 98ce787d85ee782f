import TwigAlgebra.Proofs.Linkage

/-!
# Nesting depths of drafted patterns

A node records how deep it is nested when it is attached, and keeps the record when it is detached,
cloned or copied.  In a linked arena every edge is graded: its child is as deep as its owner, and one
deeper across a nested edge.  Detached subtrees stay graded, whatever their top has recorded, and
attaching one records the depths below it anew.  So the depth of a reached node is that of the root
and the number of nested edges on the way.

The root of a new pattern keeps the record of the node it is made of.  It is `0` for made nodes and
for the roots of other patterns, but a copy in which a deeper node of another pattern replaces the
root starts with the depth of that node.

## Main definitions

* `Pattern.Graded` — depths fit along every edge.
* `Pattern.NestedAt` — a slot is reached across a number of nested edges.
* `Pattern.Level` — edges and links match, depths fit, and the root is not nested.

## Main results

* `Pattern.Spans.depths_of_setDepth` — what recording depths does to a tree.
* `Pattern.Linked.nodup_handles` — in a linked arena the slots of a tree are different.
* `Pattern.Graded.addEdge` — adding an edge keeps arenas graded.
* `Pattern.depth?_of_made` — the depth of a reached node is the number of nested edges on the way to
  it.
-/

namespace TwigAlgebra.Pattern

open Relation

variable {p q : Pattern} {F : Handle → Node → Node} {f below : Forest} {h c i j : Handle} {n : Node}
  {fuel : Nat}

/-- Along every edge depths fit: the child is as deep as the owner, and one deeper across a nested
edge. -/
def Graded (p : Pattern) : Prop :=
  ∀ h n, p.node? h = some n → ∀ e ∈ n.edges, p.depth? e.child = some (n.depth + e.levels)

/-- The slot is reached from the root along edges, `k` of which are nested. -/
inductive NestedAt (p : Pattern) : Handle → Nat → Prop
  /-- The root is reached across no edge. -/
  | root : p.NestedAt p.root 0
  /-- One more edge is followed. -/
  | edge {h : Handle} {k : Nat} {n : Node} {e : Edge} (hh : p.NestedAt h k)
      (hn : p.node? h = some n) (he : e ∈ n.edges) : p.NestedAt e.child (k + e.nested.toNat)

/-- The number of nested edges on the way is unlimited, and depths wrap around. -/
theorem Graded.depth?_eq (hp : p.Graded) {d : UInt32} (hroot : p.depth? p.root = some d) {k : Nat}
    (hh : p.NestedAt h k) : p.depth? h = some (d + .ofNat k) := by
  induction hh with
  | root => exact hroot.trans (congrArg some (UInt32.add_zero d).symm)
  | @edge h k n e _ hn he ih =>
    have hlevels : e.levels = .ofNat e.nested.toNat := by
      unfold EdgeFlags.levels
      cases e.nested <;> rfl
    rw [depth?_of_node? hn, Option.some.injEq] at ih
    rw [hp h n hn e he, ih, hlevels, UInt32.add_assoc, UInt32.ofNat_add]

/-- Every reached slot is reached across some number of nested edges. -/
theorem Reached.exists_nestedAt (hh : p.Reached h) : ∃ k, p.NestedAt h k := by
  induction hh with
  | refl => exact ⟨0, .root⟩
  | tail _ hlead ih =>
    obtain ⟨k, hk⟩ := ih
    obtain ⟨n, hn, hc⟩ := hlead
    obtain ⟨e, he, rfl⟩ := List.mem_map.mp hc
    exact ⟨_, .edge hk hn he⟩

/-! ### Recording depths -/

/-- Recording depths in a tree without repetitions: other slots stay as they are, the top slots take
the given depth, and below them depths fit. -/
theorem Spans.depths_of_setDepth (hf : p.Spans f) (hnodup : f.handles.Nodup) {es : List Edge}
    (hes : es.map (·.child) = f.roots) {depth : UInt32}
    (hq : es.foldlM (fun p e => setDepth fuel e.child (depth + e.levels) p) p = some q) :
    (∀ i ∉ f.handles, q.node? i = p.node? i) ∧
      (∀ e ∈ es, q.depth? e.child = some (depth + e.levels)) ∧
      ∀ i ∈ f.handles, ∀ n, q.node? i = some n → ∀ e ∈ n.edges,
        q.depth? e.child = some (n.depth + e.levels) := by
  induction f generalizing p q fuel es depth with
  | nil =>
    obtain rfl := List.map_eq_nil_iff.mp hes
    cases hq
    exact ⟨fun _ _ => rfl, nofun, nofun⟩
  | cons h below rest ihb ihr =>
    obtain ⟨e, es, rfl, rfl, hrestes⟩ := exists_edges_of_roots_cons hes
    obtain ⟨hh, hbelow, hrest⟩ := hf
    obtain ⟨n, hn, hchildren⟩ := children?_eq_some_iff.mp hh
    obtain ⟨hnot, hnodup⟩ := List.nodup_cons.mp hnodup
    obtain ⟨hnodupb, hnodupr, hdisjoint⟩ := List.nodup_append'.mp hnodup
    rw [List.mem_append, not_or] at hnot
    rw [List.foldlM_cons] at hq
    obtain ⟨p₂, hp₂, hq⟩ := Option.bind_eq_some_iff.mp hq
    obtain ⟨d, hd⟩ := exists_maps_setDepth hp₂
    cases fuel with
    | zero => cases hp₂
    | succ fuel =>
      obtain ⟨n', hn', hp₂⟩ := Option.bind_eq_some_iff.mp hp₂
      cases hn.symm.trans hn'
      obtain ⟨p₁, hp₁, hp₂⟩ := Option.bind_eq_some_iff.mp hp₂
      have hself : ∀ i, p₁.node? i = if e.child = i then
          (p.node? i).map fun n => { n with depth := depth + e.levels } else p.node? i :=
        node?_update hp₁
      have hedges : ∀ i (n : Node),
          (if e.child = i then { n with depth := depth + e.levels } else n).edges = n.edges :=
        fun i n => by split <;> rfl
      -- the node itself, what is below it, and the other trees do not disturb each other
      obtain ⟨hout₁, htop₁, hin₁⟩ :=
        ihb ((maps_update hp₁).spans hedges hbelow) hnodupb hchildren hp₂
      obtain ⟨hout₂, htop₂, hin₂⟩ := ihr (hd.spans (fun _ _ => rfl) hrest) hnodupr hrestes hq
      have htop : q.node? e.child = some { n with depth := depth + e.levels } := by
        rw [hout₂ _ hnot.2, hout₁ _ hnot.1, hself, if_pos rfl, hn, Option.map_some]
      have hlower : ∀ i ∈ below.handles, q.node? i = p₂.node? i := fun i hi =>
        hout₂ i fun hmem => hdisjoint hi hmem
      refine ⟨fun i hi => ?_, fun e' he' => ?_, fun i hi m hm e' he' => ?_⟩
      · -- outside the trees no recording reaches the slot
        rw [Forest.handles_cons, List.mem_cons, List.mem_append, not_or, not_or] at hi
        rw [hout₂ i hi.2.2, hout₁ i hi.2.1, hself, if_neg (Ne.symm hi.1)]
      · -- a top edge: that of the first tree, or one that follows
        rcases List.mem_cons.mp he' with rfl | he'
        · exact depth?_of_node? htop
        · exact htop₂ e' he'
      · -- an edge below: out of the top, further down in its tree, or in one of the other trees
        rcases List.mem_cons.mp hi with rfl | hi
        · cases htop.symm.trans hm
          have hmem : e'.child ∈ below.handles :=
            Forest.mem_handles_of_mem_roots (hchildren ▸ List.mem_map_of_mem he')
          rw [depth?_congr (hlower _ hmem)]
          exact htop₁ e' he'
        · rcases List.mem_append.mp hi with hi | hi
          · rw [hlower i hi] at hm
            have hmem : e'.child ∈ below.handles :=
              (hd.spans (fun _ _ => rfl) hbelow).mem_of_mem_children hi
                (children?_eq_some_iff.mpr ⟨m, hm, rfl⟩) (List.mem_map_of_mem he')
            rw [depth?_congr (hlower _ hmem)]
            exact hin₁ i hi m hm e' he'
          · exact hin₂ i hi m hm e' he'

/-! ### Trees in a linked arena -/

namespace Linked

/-- Of two slots above a third, one is above the other. -/
theorem above_or_above (hp : p.Linked) (hi : p.Above i c) (hj : p.Above j c) :
    p.Above i j ∨ p.Above j i := by
  have hunique : Relator.RightUnique (Function.swap p.Leads) := fun _ _ _ hi hj => hp.unique hi hj
  have htotal := ReflTransGen.total_of_right_unique hunique (reflTransGen_swap.mpr hi)
    (reflTransGen_swap.mpr hj)
  exact htotal.symm.imp reflTransGen_swap.mp reflTransGen_swap.mp

/-- In a linked arena trees without a common slot on top have no common slot. -/
theorem nodup_handles (hp : p.Linked) (hf : p.Spans f) (hroots : f.roots.Nodup)
    (hapart : ∀ i ∈ f.roots, ∀ j ∈ f.roots, ¬ TransGen p.Leads i j) : f.handles.Nodup := by
  induction f with
  | nil => exact List.nodup_nil
  | cons h below rest ihb ihr =>
    obtain ⟨hh, hbelow, hrest⟩ := hf
    obtain ⟨n, hn, hchildren⟩ := children?_eq_some_iff.mp hh
    obtain ⟨hnew, hroots⟩ := List.nodup_cons.mp hroots
    have hlead : ∀ r ∈ below.roots, p.Leads h r := fun r hr => ⟨n, hn, hchildren ▸ hr⟩
    -- one edge leads to each child, so that no child is listed twice
    have hchildrenNodup : below.roots.Nodup := by
      rw [← hchildren, List.nodup_iff_count_le_one]
      intro c
      rw [← edgesTo_of_node? hn, hp.edgesTo_eq]
      split <;> omega
    have hchildrenApart : ∀ i ∈ below.roots, ∀ j ∈ below.roots, ¬ TransGen p.Leads i j := by
      intro i hi j hj hway
      obtain ⟨k, hik, hkj⟩ := TransGen.tail'_iff.mp hway
      rw [hp.unique hkj (hlead j hj)] at hik
      exact hp.acyclic h (.head' (hlead i hi) hik)
    have hself : h ∉ below.handles := by
      intro hmem
      obtain ⟨r, hr, habove⟩ := hbelow.exists_above hmem
      exact hp.acyclic h (.head' (hlead r hr) habove)
    -- a slot in another tree is not related to the top of this one
    have hother : ∀ r ∈ rest.roots, ¬ p.Above h r ∧ ¬ p.Above r h := by
      intro r hr
      have hne : r ≠ h := fun heq => hnew (heq ▸ hr)
      constructor
      · intro habove
        rcases reflTransGen_iff_eq_or_transGen.mp habove with heq | hway
        · exact hne heq
        · exact hapart h List.mem_cons_self r (List.mem_cons_of_mem _ hr) hway
      · intro habove
        rcases reflTransGen_iff_eq_or_transGen.mp habove with heq | hway
        · exact hne heq.symm
        · exact hapart r (List.mem_cons_of_mem _ hr) h List.mem_cons_self hway
    have hoff : h ∉ rest.handles := by
      intro hmem
      obtain ⟨r, hr, habove⟩ := hrest.exists_above hmem
      exact (hother r hr).2 habove
    have hdisjoint : List.Disjoint below.handles rest.handles := by
      intro c hc hc'
      obtain ⟨s, hs, hsc⟩ := hbelow.exists_above hc
      obtain ⟨r, hr, hrc⟩ := hrest.exists_above hc'
      rcases hp.above_or_above (.head (hlead s hs) hsc) hrc with habove | habove
      · -- a common slot would put one of the two tops above the other
        exact (hother r hr).1 habove
      · exact (hother r hr).2 habove
    have hnodup : (below.handles ++ rest.handles).Nodup :=
      List.nodup_append'.mpr ⟨ihb hbelow hchildrenNodup hchildrenApart,
        ihr hrest hroots fun i hi j hj =>
          hapart i (List.mem_cons_of_mem _ hi) j (List.mem_cons_of_mem _ hj), hdisjoint⟩
    exact List.nodup_cons.mpr ⟨by rw [List.mem_append, not_or]; exact ⟨hself, hoff⟩, hnodup⟩

theorem nodup_tree (hp : p.Linked) (hf : p.Spans (.cons c below .nil)) :
    (Forest.cons c below .nil).handles.Nodup := by
  refine hp.nodup_handles hf (List.nodup_singleton c) fun i hi j hj => ?_
  rw [List.mem_singleton.mp hi, List.mem_singleton.mp hj]
  exact hp.acyclic c

/-- The root is not below another slot. -/
theorem eq_root_of_above (hp : p.Linked) (hc : p.Above c p.root) : c = p.root := by
  rcases hc.cases_tail with heq | ⟨i, -, hlead⟩
  · exact heq.symm
  · have hlink := linksTo_iff.mp (hp.linked i p.root hlead)
    rw [hp.parent?_root] at hlink
    cases hlink

end Linked

/-! ### The operations -/

theorem depth?_root_addNode (hroot : p.root < p.size) :
    (p.addNode n).2.depth? (p.addNode n).2.root = p.depth? p.root := by
  rw [root_addNode, depth?, node?_addNode, if_neg (Nat.ne_of_lt hroot)]
  rfl

/-- Depths that fit along all edges fit along fewer. -/
theorem Graded.sparser (hp : p.Graded) (hpq : p.Sparser q) : q.Graded := by
  intro i m hm e he
  obtain ⟨n, hn, he⟩ := hpq.edges i m hm e he
  have hsame := hpq.depth i
  rw [depth?_of_node? hm, depth?_of_node? hn, Option.some.injEq] at hsame
  rw [hpq.depth, hp i n hn e he, hsame]

namespace Graded

theorem singleton (name : String) (n : Node) : (singleton name n).Graded := by
  intro h m hm e he
  rw [node?_singleton] at hm
  split at hm
  · cases hm
    cases he
  · cases hm

/-- No edge leads to the new node yet. -/
theorem addNode (hp : p.Graded) (n : Node) : (p.addNode n).2.Graded := by
  intro h m hm e he
  rw [node?_addNode] at hm
  split at hm
  · cases hm
    cases he
  · have hfit := hp h m hm e he
    obtain ⟨k, hk, -⟩ := Option.map_eq_some_iff.mp hfit
    rw [depth?, node?_addNode, if_neg (Nat.ne_of_lt (lt_size_of_node? hk))]
    exact hfit

/-- The depths below the new edge are recorded anew, and no other edge leads there. -/
theorem addEdge (hg : p.Graded) (hp : p.Linked) {flags : EdgeFlags} (hroot : c ≠ p.root)
    (hfree : p.parent? c = none) (hq : p.addEdge h c flags = some q) :
    q.Graded ∧ q.depth? q.root = p.depth? p.root := by
  have hlinked : q.Linked := hp.addEdge hroot hfree hq
  have hparent : q.parent? c = some h := by rw [parent?_addEdge hq, if_pos rfl]
  obtain ⟨p₁, owner, -, -, howner, hmaps, hdepth⟩ := addEdge_eq_some hq
  obtain ⟨below, hbelow⟩ := exists_spans_of_setDepth hdepth
  obtain ⟨d, hd⟩ := exists_maps_setDepth hdepth
  have hspans : q.Spans (.cons c below .nil) := hd.spans (fun _ _ => rfl) hbelow
  -- the tree is linked as the outcome is, so that no depth in it is recorded twice
  rw [← foldlM_setDepth_singleton] at hdepth
  obtain ⟨hout, htop, hin⟩ := hbelow.depths_of_setDepth (hlinked.nodup_tree hspans) rfl hdepth
  have hsame : ∀ i ∉ (Forest.cons c below .nil).handles, q.depth? i = p.depth? i := by
    intro i hi
    rw [depth?_congr (hout i hi), depth?, depth?, hmaps.nodes, Option.map_map]
    rfl
  constructor
  · intro i n hn e he
    -- a slot of the moved subtree has the depth just recorded for it
    by_cases hi : i ∈ (Forest.cons c below .nil).handles
    · exact hin i hi n hn e he
    have hlead : q.Leads i e.child := ⟨n, hn, List.mem_map_of_mem he⟩
    rw [hout i hi] at hn
    obtain ⟨m, hm, rfl⟩ := hmaps.exists_node hn
    have hedge : e ∈ m.edges ∨ h = i ∧ e = flags.to c := by
      dsimp only at he
      split at he
      case isTrue hhi =>
        rw [List.mem_append, List.mem_singleton] at he
        exact he.imp_right fun heq => ⟨hhi, heq⟩
      case isFalse => exact Or.inl he
    by_cases hj : e.child ∈ (Forest.cons c below .nil).handles
    · -- only the new edge leads into the subtree
      have hchild : e.child = c := by
        rcases hspans.exists_parent hj with htop | ⟨i', hi', cs, hcs, hmem⟩
        · exact List.mem_singleton.mp htop
        · obtain ⟨k, hk, rfl⟩ := children?_eq_some_iff.mp hcs
          rw [hlinked.unique hlead ⟨k, hk, hmem⟩] at hi
          exact absurd hi' hi
      rcases hedge with he | ⟨rfl, rfl⟩
      · have hlink := linksTo_iff.mp (hp.linked i e.child ⟨m, hm, List.mem_map_of_mem he⟩)
        rw [hchild, hfree] at hlink
        cases hlink
      · -- the new edge itself: the subtree was recorded from the depth of its owner
        cases howner.symm.trans hn
        exact (htop _ List.mem_cons_self).trans (congrArg some (UInt32.add_zero _))
    · rcases hedge with he | ⟨-, rfl⟩
      · rw [hsame _ hj]
        exact hg i m hm e he
      · exact absurd List.mem_cons_self hj
  · rw [hmaps.root.symm.trans hd.root.symm]
    -- the root is not in the subtree, or the moved node would be the root itself
    refine hsame _ fun hmem => ?_
    obtain ⟨r, hr, habove⟩ := hspans.exists_above hmem
    rw [List.mem_singleton.mp hr] at habove
    have hq_root : q.root = p.root := hd.root.trans hmaps.root
    exact hroot ((hlinked.eq_root_of_above habove).trans hq_root)

end Graded

/-! ### Drafting -/

/-- Edges and links match, depths fit along every edge, and the root is not nested. -/
structure Level (p : Pattern) : Prop where
  /-- Edges and links match. -/
  linked : p.Linked
  /-- Depths fit along every edge. -/
  graded : p.Graded
  /-- The root is not nested. -/
  root : p.depth? p.root = some 0

namespace Level

theorem singleton (name : String) (hn : n.Recorded) (hdepth : n.depth = 0) :
    (singleton name n).Level where
  linked := .singleton name hn
  graded := .singleton name n
  root := by rw [root_singleton, depth?, node?_singleton, if_pos rfl, Option.map_some, hdepth]

theorem addNode (hp : p.Level) (hn : n.Recorded) : (p.addNode n).2.Level where
  linked := hp.linked.addNode hn
  graded := hp.graded.addNode n
  root := (depth?_root_addNode hp.linked.root_lt).trans hp.root

theorem addEdge (hp : p.Level) {flags : EdgeFlags} (hroot : c ≠ p.root) (hfree : p.parent? c = none)
    (hq : p.addEdge h c flags = some q) : q.Level := by
  obtain ⟨hgraded, hdepth⟩ := hp.graded.addEdge hp.linked hroot hfree hq
  exact ⟨hp.linked.addEdge hroot hfree hq, hgraded, hdepth.trans hp.root⟩

theorem sparser (hp : p.Level) (hpq : p.Sparser q) (hq : q.Linked) : q.Level where
  linked := hq
  graded := hp.graded.sparser hpq
  root := by rw [hpq.root, hpq.depth, hp.root]

end Level

/-- Steps uphold depths, if patterns start with made nodes and roots are not replaced by deeper
nodes. -/
theorem upholds_level :
    Upholds (fun b s => s.Fits b ∧ s.StartsFresh ∧ s.KeepsTop b) Node.Recorded Level where
  lasting := lasting_recorded
  nodes p hp := hp.linked.recorded
  root_lt p hp := hp.linked.root_lt
  start b s name n hb hs htop hn := by
    refine .singleton name hn ?_
    have hdepth : ∀ {i : Nat} {p : Pattern} {m : Node}, b[i]? = some p →
        p.node? p.root = some m → m.depth = 0 := by
      intro i p m hp hm
      have hroot := (hb p (List.mem_of_getElem? hp)).root
      rwa [depth?_of_node? hm, Option.some.injEq] at hroot
    rcases Step.top?_cases htop with ⟨name, source, rfl, hn⟩ | ⟨i, p, m, -, hp, hm, rfl⟩ |
      ⟨i, old, j, new, p, source, m, rfl, hp, hsource, hm, rfl⟩
    · -- a made node, a clone of one, or a replacement at the root
      exact hs.2.1.depth_eq_zero hn
    · exact (hdepth hp hm : m.depth = 0)
    · split at hm
      case isTrue hroot => exact (hs.2.2 p source m hp hsource hroot hm : m.depth = 0)
      case isFalse => exact (hdepth hp hm : m.depth = 0)
  addNode p n hn hp := hp.addNode hn
  addEdge p q h c flags hroot hfree hq hp := hp.addEdge hroot hfree hq
  edit b i p q e hs hp hq hlevel := by
    have hlinked : q.Linked := upholds_linked.edit b i p q e hs.1 hp hq hlevel.linked
    rcases Edit.run_cases hq with ⟨F, hF, -⟩ | ⟨parent, child, flags, rfl, hq⟩ |
      ⟨parent, child, found, hq⟩ | ⟨h, hq⟩ | ⟨code, found, hq⟩
    · -- only a new edge records depths, and the other edits take edges away
      exact hlevel.sparser hF.sparser hlinked
    · obtain ⟨hroot, hfree⟩ := hs.1 p hp
      exact hlevel.addEdge hroot hfree hq
    · exact hlevel.sparser (sparser_removeEdge hq) hlinked
    · exact hlevel.sparser (sparser_clearEdges hq) hlinked
    · exact hlevel.sparser (sparser_pruneTo hq) hlinked
  ask p q h answer hq hp := by
    obtain ⟨F, hF⟩ := exists_alters_topReturning hq
    exact hp.sparser hF.sparser (hp.linked.alters hF)

/-- The root of a drafted pattern is not nested, and every reached node is as deep as there are nested
edges on the way to it, if patterns start with made nodes and roots are not replaced by deeper
nodes. -/
theorem depth?_of_made {ss : List Step} {b : List Pattern}
    (hb : Made (fun b s => s.Fits b ∧ s.StartsFresh ∧ s.KeepsTop b) ss b) (hp : p ∈ b) :
    p.depth? p.root = some 0 ∧ (∀ h, p.Reached h → ∃ k, p.NestedAt h k) ∧
      ∀ h k, p.NestedAt h k → p.depth? h = some (.ofNat k) := by
  have hlevel : p.Level := upholds_level.made hb p hp
  refine ⟨hlevel.root, fun h hh => hh.exists_nestedAt, fun h k hk => ?_⟩
  rw [hlevel.graded.depth?_eq hlevel.root hk, UInt32.zero_add]

/-- The title of a book is nested. -/
theorem depth?_of_made_book :
    Made (fun b s => s.Fits b ∧ s.StartsFresh ∧ s.KeepsTop b) catalogueSteps [catalogue, book] ∧
      book.NestedAt 1 1 ∧ book.depth? 1 = some 1 := by
  have hbook : Made (fun b s => s.Fits b ∧ s.StartsFresh ∧ s.KeepsTop b) catalogueSteps
      [catalogue, book] :=
    made_catalogue fun b => by
      simp [catalogueSteps, Step.Fits, Step.StartsFresh, Step.KeepsTop, NodeSource.Fresh]
  have hnested : book.NestedAt 1 1 :=
    .edge (e := ⟨⟨true, true, false⟩, 1⟩) .root rfl List.mem_cons_self
  exact ⟨hbook, hnested,
    (depth?_of_made hbook (List.mem_cons_of_mem _ List.mem_cons_self)).2.2 1 1 hnested⟩

/-- A copy of a catalogue in which a nested title replaces the root keeps the depth of the title. -/
theorem not_depth?_of_made_titleOnTop :
    ¬ ∀ ss b p, Made (fun b s => s.Fits b ∧ s.StartsFresh) ss b → p ∈ b →
      ∀ h k, p.NestedAt h k → p.depth? h = some (.ofNat k) := by
  intro hall
  have hbook : Made (fun b s => s.Fits b ∧ s.StartsFresh) catalogueSteps [catalogue, book] :=
    made_catalogue fun b => by
      simp [catalogueSteps, Step.Fits, Step.StartsFresh, NodeSource.Fresh]
  have hcopy := hbook.step (.copyReplacing 0 0 1 1) ⟨trivial, trivial⟩ rfl
  have hzero := hall _ _ _ hcopy (List.mem_append_right _ List.mem_cons_self) 0 0 .root
  revert hzero
  decide +kernel

end TwigAlgebra.Pattern
