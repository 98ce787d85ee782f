import TwigAlgebra.Proofs.Chains
import TwigAlgebra.Proofs.Lists

/-!
# Removing inert branches

The second rule removes optional branches that require, store and bind nothing.  It does so edge by
edge or, when what stays is a single chain, by pruning to the code at the end of the chain; either
way the branches are cut off and nothing else changes.

## Main definitions

* `Pattern.Inert` — nothing in a subtree matters.
* `Pattern.Removable`, `Pattern.Doomed` — the branches that may be removed, and their slots.

## Main results

* `Pattern.Unfolds.exists_pruneInert` — what removing inert branches from a finite tree does.
* `Pattern.Sound.exists_pruneInert` — removing inert branches cuts them off.
-/

namespace TwigAlgebra.Pattern

variable {p q r : Pattern} {f : Forest} {drop : List Handle}

/-! ### Branches that may be removed -/

/-- The nodes in the subtree of `c` bind, require and store nothing. -/
def Inert (p : Pattern) (c : Handle) : Prop :=
  ∀ i, p.Below c i → ∀ n, p.node? i = some n →
    n.vars = [] ∧ n.requires.any = false ∧ n.stores.any = false

/-- An optional edge leads from a slot of the forest to a child with an inert subtree. -/
structure Removable (p : Pattern) (f : Forest) (r : Handle × Handle) : Prop where
  /-- The parent is a slot of the forest. -/
  parent : r.1 ∈ f.handles
  /-- An optional edge leads to the child. -/
  edge : ∃ n e, p.node? r.1 = some n ∧ e ∈ n.edges ∧ e.optional = true ∧ e.child = r.2
  /-- The subtree of the child is inert. -/
  inert : p.Inert r.2

theorem Removable.child {r : Handle × Handle} (h : p.Removable f r) :
    ∃ n, p.node? r.1 = some n ∧ r.2 ∈ n.children := by
  obtain ⟨n, e, hn, he, -, hchild⟩ := h.edge
  exact ⟨n, hn, hchild ▸ List.mem_map_of_mem he⟩

theorem Removable.mem_handles (hf : p.Spans f) {r : Handle × Handle} (h : p.Removable f r) :
    r.2 ∈ f.handles := by
  obtain ⟨n, hn, hchild⟩ := h.child
  exact hf.mem_of_mem_children h.parent (children?_eq_some_iff.mpr ⟨n, hn, rfl⟩) hchild

/-- The slot is that of a removable branch. -/
def Doomed (p : Pattern) (f : Forest) (i : Handle) : Prop :=
  ∃ r, p.Removable f r ∧ p.Below r.2 i

namespace Spans

/-- The listing by levels has the slots of the subtree. -/
theorem exists_bfs_of_mem (hf : p.Spans f) {c : Handle} (hc : c ∈ f.handles) :
    ∃ l, p.bfs c = some l ∧ ∀ i, i ∈ l ↔ p.Below c i := by
  obtain ⟨below, hspans, -, -⟩ := hf.exists_subtree hc
  obtain ⟨l, hl, hperm⟩ := hspans.exists_bfs
  exact ⟨l, hl, fun i => by rw [hperm.mem_iff, hspans.below_iff]⟩

/-- A subtree is inert if all nodes in its slots are. -/
theorem inert_iff {c : Handle} {below : Forest} (hf : p.Spans (.cons c below .nil)) :
    p.Inert c ↔ ∀ n ∈ p.nodesOn (.cons c below .nil),
      n.vars = [] ∧ n.requires.any = false ∧ n.stores.any = false := by
  have hslots : ∀ i, i ∈ (Forest.cons c below .nil).handles ↔ p.Below c i := fun i => by
    rw [hf.below_iff, Forest.handles_cons, Forest.handles_nil, List.append_nil]
  constructor
  · intro hinert n hn
    obtain ⟨i, hi, hni⟩ := mem_nodesOn_iff.mp hn
    exact hinert i ((hslots i).mp hi) n hni
  · exact fun hall i hi n hn => hall n (mem_nodesOn_iff.mpr ⟨i, (hslots i).mpr hi, hn⟩)

/-- The listing by levels has the nodes of the subtree. -/
theorem exists_bindsNothing {c : Handle} {below : Forest} (hf : p.Spans (.cons c below .nil)) :
    p.bindsNothing c = some ((p.nodesOn (.cons c below .nil)).all (·.vars.isEmpty)) := by
  obtain ⟨l, hl, hperm⟩ := hf.exists_bfs
  have hslots : (Forest.cons c below .nil).handles = c :: below.handles := by
    rw [Forest.handles_cons, Forest.handles_nil, List.append_nil]
  have hnodes : l.mapM p.node? = some (l.filterMap p.node?) :=
    hf.mapM_node?_eq (hslots ▸ hperm.subset)
  rw [bindsNothing, hl]
  simp only [Option.bind_eq_bind, Option.bind_some, hnodes]
  rw [nodesOn, hslots, (hperm.filterMap p.node?).all_eq]
  rfl

theorem exists_isInert (hf : p.Spans f) {c : Handle} (hc : c ∈ f.handles) :
    ∃ b, p.isInert c = some b ∧ (b = true ↔ p.Inert c) := by
  obtain ⟨below, hspans, -, -⟩ := hf.exists_subtree hc
  have hiff := hspans.inert_iff
  rw [isInert, requiresBelow, hspans.someBelow_eq _, storesBelow, hspans.someBelow_eq _,
    hspans.exists_bindsNothing]
  cases hrequires : (p.nodesOn (.cons c below .nil)).any (·.requires.any) with
  | true =>
    -- a node below requires something
    refine ⟨false, rfl, iff_of_false nofun fun hinert => ?_⟩
    obtain ⟨n, hn, htrue⟩ := List.any_eq_true.mp hrequires
    rw [(hiff.mp hinert n hn).2.1] at htrue
    cases htrue
  | false =>
    cases hstores : (p.nodesOn (.cons c below .nil)).any (·.stores.any) with
    | true =>
      -- a node below stores something
      refine ⟨false, rfl, iff_of_false nofun fun hinert => ?_⟩
      obtain ⟨n, hn, htrue⟩ := List.any_eq_true.mp hstores
      rw [(hiff.mp hinert n hn).2.2] at htrue
      cases htrue
    | false =>
      -- what is left to be seen is that no node below binds a variable
      refine ⟨_, rfl, ?_⟩
      rw [hiff, List.all_eq_true]
      rw [List.any_eq_false] at hrequires hstores
      refine forall₂_congr fun n hn => ?_
      simp [hrequires n hn, hstores n hn]

theorem exists_inertChildren (hf : p.Spans f) {h : Handle} (hh : h ∈ f.handles) :
    ∃ l, p.inertChildren h = some l ∧ ∀ r, r ∈ l ↔ r.1 = h ∧ p.Removable f r := by
  obtain ⟨n, hn⟩ := hf.exists_node hh
  have hchild : ∀ e ∈ n.edges, e.child ∈ f.handles := fun e he =>
    hf.mem_of_mem_children hh (children?_eq_some_iff.mpr ⟨n, hn, rfl⟩) (List.mem_map_of_mem he)
  have hdecided : ∀ e ∈ n.edges,
      ∃ b, (if e.optional then p.isInert e.child else some false) = some b ∧
        (b = true ↔ e.optional = true ∧ p.Inert e.child) := by
    intro e he
    split
    case isTrue hoptional =>
      obtain ⟨b, hb, hiff⟩ := hf.exists_isInert (hchild e he)
      exact ⟨b, hb, hiff.trans (and_iff_right hoptional).symm⟩
    case isFalse hrequired =>
      exact ⟨false, rfl, iff_of_false nofun fun hinert => hrequired hinert.1⟩
  obtain ⟨inert, hinert, hmem⟩ :=
    List.exists_filterM fun e he => (hdecided e he).imp fun _ hb => hb.1
  -- listed: an optional edge to an inert branch, as the filter has it
  refine ⟨inert.map fun e => (h, e.child), ?_, fun r => ?_⟩
  · rw [inertChildren, hn]
    simp only [Option.bind_eq_bind, Option.bind_some, hinert]
    rfl
  · rw [List.mem_map]
    constructor
    · rintro ⟨e, he, rfl⟩
      obtain ⟨he, htrue⟩ := (hmem e).mp he
      obtain ⟨b, hb, hiff⟩ := hdecided e he
      obtain rfl := Option.some.inj (hb.symm.trans htrue)
      obtain ⟨hoptional, hbranch⟩ := hiff.mp rfl
      exact ⟨rfl, hh, ⟨n, e, hn, he, hoptional, rfl⟩, hbranch⟩
    · rintro ⟨rfl, hremovable⟩
      obtain ⟨n', e, hn', he, hoptional, hchild⟩ := hremovable.edge
      cases hn.symm.trans hn'
      obtain ⟨b, hb, hiff⟩ := hdecided e he
      rw [hiff.mpr ⟨hoptional, hchild ▸ hremovable.inert⟩] at hb
      exact ⟨e, (hmem e).mpr ⟨he, hb⟩, by rw [hchild]⟩

/-- The branches found are those that may be removed. -/
theorem exists_removable (hf : p.Spans f) :
    ∃ ls, f.handles.mapM p.inertChildren = some ls ∧ ∀ r, r ∈ ls.flatten ↔ p.Removable f r := by
  obtain ⟨ls, hls, hmem⟩ := List.exists_mapM fun h hh =>
    (hf.exists_inertChildren hh).imp fun _ hl => hl.1
  refine ⟨ls, hls, fun r => ?_⟩
  rw [List.mem_flatten]
  constructor
  · rintro ⟨l, hl, hr⟩
    obtain ⟨h, hh, hl⟩ := (hmem l).mp hl
    obtain ⟨l', hl', hiff⟩ := hf.exists_inertChildren hh
    cases hl.symm.trans hl'
    exact ((hiff r).mp hr).2
  · intro hr
    obtain ⟨l, hl, hiff⟩ := hf.exists_inertChildren hr.parent
    exact ⟨l, (hmem l).mpr ⟨r.1, hr.parent, hl⟩, (hiff r).mpr ⟨rfl, hr⟩⟩

/-- The slots of removable branches. -/
theorem exists_dropped (hf : p.Spans f) {rs : List (Handle × Handle)}
    (hrs : ∀ r, r ∈ rs ↔ p.Removable f r) :
    ∃ ls, (rs.mapM fun r => p.bfs r.2) = some ls ∧ ∀ i, i ∈ ls.flatten ↔ p.Doomed f i := by
  have hbfs := fun r hr => hf.exists_bfs_of_mem (((hrs r).mp hr).mem_handles hf)
  obtain ⟨ls, hls, hmem⟩ := List.exists_mapM fun r hr => (hbfs r hr).imp fun _ hl => hl.1
  refine ⟨ls, hls, fun i => ?_⟩
  rw [List.mem_flatten]
  constructor
  · rintro ⟨l, hl, hi⟩
    obtain ⟨r, hr, hl⟩ := (hmem l).mp hl
    obtain ⟨l', hl', hbelow⟩ := hbfs r hr
    cases hl.symm.trans hl'
    exact ⟨r, (hrs r).mp hr, (hbelow i).mp hi⟩
  · rintro ⟨r, hr, hi⟩
    obtain ⟨l, hl, hbelow⟩ := hbfs r ((hrs r).mpr hr)
    exact ⟨l, (hmem l).mpr ⟨r, (hrs r).mpr hr, hl⟩, (hbelow i).mpr hi⟩

end Spans

namespace Sound

/-- The root has no parent. -/
theorem not_mem_children_root (hp : p.Sound f) {i : Handle} (hi : i ∈ f.handles) {n : Node}
    (hn : p.node? i = some n) : p.root ∉ n.children := by
  intro hchild
  obtain ⟨m, hm⟩ := hp.spans.exists_node
    (hp.spans.mem_of_mem_children hi (children?_eq_some_iff.mpr ⟨n, hn, rfl⟩) hchild)
  have hnone := hp.hangs.parent_eq_of_mem List.mem_cons_self hm
  have hsome := hp.hangs.parent_eq hi hn hchild hm
  rw [hnone] at hsome
  cases hsome

/-- The slots of removable branches may go. -/
theorem drops (hp : p.Sound f) (hdrop : ∀ i, i ∈ drop ↔ p.Doomed f i) : p.Drops drop where
  root hmem := by
    obtain ⟨r, hr, hbelow⟩ := (hdrop _).mp hmem
    -- the root is no child, neither of the parent of a branch nor of a slot in it
    rcases hbelow.exists_parent with heq | ⟨i, n, hi, hn, hchild⟩
    · obtain ⟨n, hn, hchild⟩ := hr.child
      exact hp.not_mem_children_root hr.parent hn (heq ▸ hchild)
    · exact hp.not_mem_children_root (hp.spans.mem_of_below (hr.mem_handles hp.spans) hi) hn hchild
  closed i hi cs hcs j hj := by
    obtain ⟨r, hr, hbelow⟩ := (hdrop i).mp hi
    obtain ⟨n, hn, rfl⟩ := children?_eq_some_iff.mp hcs
    exact (hdrop j).mpr ⟨r, hr, hbelow.of_mem_children hn hj⟩
  unbound i hi n hn := by
    obtain ⟨r, hr, hbelow⟩ := (hdrop i).mp hi
    exact (hr.inert i hbelow n hn).1

/-- A child that goes while its parent stays hangs on a removable edge. -/
theorem mem_drop_iff (hp : p.Sound f) (hdrop : ∀ i, i ∈ drop ↔ p.Doomed f i) {i c : Handle}
    (hi : i ∈ f.handles) (hmem : i ∉ drop) {n : Node} (hn : p.node? i = some n)
    (hc : c ∈ n.children) : c ∈ drop ↔ p.Removable f (i, c) := by
  have hcf : c ∈ f.handles :=
    hp.spans.mem_of_mem_children hi (children?_eq_some_iff.mpr ⟨n, hn, rfl⟩) hc
  obtain ⟨m, hm⟩ := hp.spans.exists_node hcf
  have hparent := hp.hangs.parent_eq hi hn hc hm
  constructor
  · intro hcd
    obtain ⟨r, hr, hbelow⟩ := (hdrop c).mp hcd
    rcases hbelow.exists_parent with rfl | ⟨j, k, hj, hk, hchild⟩
    · -- the child is the top of the branch, whose parent is this slot
      obtain ⟨k, hk, hchild⟩ := hr.child
      have hother := hp.hangs.parent_eq hr.parent hk hchild hm
      cases Option.some.inj (hparent.symm.trans hother)
      exact hr
    · -- the parent would go, too
      have hjf := hp.spans.mem_of_below (hr.mem_handles hp.spans) hj
      have hother := hp.hangs.parent_eq hjf hk hchild hm
      cases Option.some.inj (hparent.symm.trans hother)
      exact absurd ((hdrop i).mpr ⟨r, hr, hj⟩) hmem
  · exact fun hr => (hdrop c).mpr ⟨_, hr, hp.spans.below_self hcf⟩

end Sound

/-! ### Edge by edge -/

/-- Removing edges to slots that go takes just these edges from the nodes that stay. -/
theorem exists_removeEdges {rs : List (Handle × Handle)}
    (hrs : ∀ r ∈ rs, r.1 < p.size ∧ r.2 < p.size ∧ r.2 ∈ drop) :
    ∃ q, removeEdges drop rs p = some q ∧ q.name = p.name ∧ q.root = p.root ∧
      ∀ i ∉ drop, q.bare? i = (p.bare? i).map fun n =>
        { n with edges := n.edges.filter fun e => (i, e.child) ∉ rs } := by
  induction rs generalizing p with
  | nil =>
    refine ⟨p, rfl, rfl, rfl, fun i _ => ?_⟩
    cases p.bare? i <;> simp
  | cons r rs ih =>
    obtain ⟨h, c⟩ := r
    obtain ⟨hh, hc, hcd⟩ := hrs _ List.mem_cons_self
    have hrest := fun r hr => hrs r (List.mem_cons_of_mem _ hr)
    by_cases hd : h ∈ drop
    · -- the parent goes itself
      obtain ⟨q, hq, hname, hroot, hbare⟩ := ih hrest
      refine ⟨q, by simp [removeEdges, hd, hq], hname, hroot, fun i hi => ?_⟩
      have hne : i ≠ h := fun heq => hi (heq ▸ hd)
      simp [hbare i hi, hne]
    · -- the edges to the child go now, and the others later
      obtain ⟨n, hn⟩ := Option.isSome_iff_exists.mp (isSome_bare?.mpr hh)
      have hne : c ≠ h := fun heq => hd (heq ▸ hcd)
      obtain ⟨found, p', hp', hoff, hbare'⟩ := exists_removeEdge hn hc hne
      rw [← hoff.size] at hrest
      obtain ⟨q, hq, hname, hroot, hbare⟩ := ih hrest
      refine ⟨q, by simp [removeEdges, hd, hp', hq], hname.trans hoff.name,
        hroot.trans hoff.root, fun i hi => ?_⟩
      rw [hbare i hi]
      by_cases hih : i = h
      · subst hih
        rw [hbare', hn, Option.map_some, Option.map_some, List.filter_filter]
        refine congrArg some (congrArg (fun es => { n with edges := es }) ?_)
        refine List.filter_congr fun e _ => ?_
        by_cases hec : e.child = c <;> simp [hec]
      · have hic : i ≠ c := fun heq => hi (heq ▸ hcd)
        rw [hoff.bare i (by simp [hih, hic])]
        simp [hih]

/-- Removing the removable edges cuts the branches off. -/
theorem Sound.exists_removeEdges (hp : p.Sound f) {rs : List (Handle × Handle)}
    (hrs : ∀ r, r ∈ rs ↔ p.Removable f r) (hdrop : ∀ i, i ∈ drop ↔ p.Doomed f i) :
    ∃ q, removeEdges drop rs p = some q ∧ Cuts drop f p q := by
  have hsize : ∀ r ∈ rs, r.1 < p.size ∧ r.2 < p.size ∧ r.2 ∈ drop := by
    intro r hr
    have hremovable := (hrs r).mp hr
    have hmem := hremovable.mem_handles hp.spans
    exact ⟨hp.spans.lt_size hremovable.parent, hp.spans.lt_size hmem,
      (hdrop _).mpr ⟨r, hremovable, hp.spans.below_self hmem⟩⟩
  obtain ⟨q, hq, hname, hroot, hbare⟩ := Pattern.exists_removeEdges hsize
  refine ⟨q, hq, hname, hroot, fun i hi hmem => ?_⟩
  obtain ⟨n, hn⟩ := hp.spans.exists_node hi
  rw [hbare i hmem, bare?_eq_some_of_node? hn, Option.map_some, Option.map_some, Node.cut]
  refine congrArg some (congrArg (fun es => { n.bare with edges := es }) ?_)
  refine List.filter_congr fun e he => ?_
  have hiff := (hp.mem_drop_iff hdrop hi hmem hn (List.mem_map_of_mem he)).trans (hrs (i, e.child)).symm
  simp [hiff]

/-! ### The rule -/

/-- Removing inert branches from a finite tree without removable ones does nothing. -/
theorem Unfolds.pruneInert_eq (hp : p.Unfolds f) (hnone : ∀ r, ¬p.Removable f r) :
    p.pruneInert = some (0, p) := by
  obtain ⟨branches, hbranches, hremovable⟩ := hp.spans.exists_removable
  have hempty : branches.flatten = [] := List.eq_nil_iff_forall_not_mem.mpr fun r hr =>
    hnone r ((hremovable r).mp hr)
  rw [pruneInert, hp.count_eq, hp.spans.preorder_eq hp.roots_eq]
  simp only [Option.bind_eq_bind, Option.bind_some, hbranches, hempty]
  rfl

/-- Removing inert branches from a finite tree does nothing if there are none.  Otherwise it prunes to
the end of the chain of the nodes that stay, or it removes the edges to the branches.  It succeeds if
what it does succeeds and leaves a finite tree, and counts the slots that are gone. -/
theorem Unfolds.exists_pruneInert {P : Pattern → Forest → Prop} (hp : p.Unfolds f)
    (hP : ∀ q g, P q g → q.Unfolds g) (hself : (∀ r, ¬p.Removable f r) → P p f)
    (hchain : ∀ drop t, (∀ i, i ∈ drop ↔ p.Doomed f i) → p.Chain drop p.root t →
      ∃ k found q g, p.node? t = some k ∧ p.pruneTo k.code = some (found, q) ∧ P q g)
    (hedges : ∀ rs drop, (∀ r, r ∈ rs ↔ p.Removable f r) → (∀ i, i ∈ drop ↔ p.Doomed f i) →
      ∃ q g, removeEdges drop rs p = some q ∧ P q g) :
    ∃ q g, p.pruneInert = some (f.handles.length - g.handles.length, q) ∧ P q g := by
  by_cases hnone : ∀ r, ¬p.Removable f r
  · -- without inert branches the pattern is returned as it is
    refine ⟨p, f, ?_, hself hnone⟩
    rw [hp.pruneInert_eq hnone, Nat.sub_self]
  · -- otherwise the branches and their slots are listed, and the way to remove them is chosen
    obtain ⟨branches, hbranches, hremovable⟩ := hp.spans.exists_removable
    have hsome : ¬branches.flatten.isEmpty = true := fun hempty => hnone fun r hr => by
      have hmem := (hremovable r).mpr hr
      rw [List.isEmpty_iff.mp hempty] at hmem
      cases hmem
    obtain ⟨ls, hls, hdrop⟩ := hp.spans.exists_dropped hremovable
    obtain ⟨o, ho, hend⟩ := hp.exists_chainEnd ls.flatten
    rw [pruneInert, hp.count_eq, hp.spans.preorder_eq hp.roots_eq]
    simp only [Option.bind_eq_bind, Option.bind_some, hbranches]
    rw [if_neg hsome]
    simp only [hls, Option.bind_some, ho]
    cases o with
    | none =>
      obtain ⟨q, g, hq, hqg⟩ := hedges branches.flatten ls.flatten hremovable hdrop
      exact ⟨q, g, by simp [hq, (hP q g hqg).count_eq], hqg⟩
    | some t =>
      obtain ⟨k, found, q, g, hk, hq, hqg⟩ := hchain ls.flatten t hdrop (hend t rfl)
      exact ⟨q, g, by simp [hk, hq, (hP q g hqg).count_eq], hqg⟩

/-- Removing inert branches cuts them off and counts their slots. -/
theorem Sound.exists_pruneInert (hp : p.Sound f) :
    ∃ q drop, p.pruneInert = some (f.handles.length - (f.without drop).handles.length, q) ∧
      (∀ i, i ∈ drop ↔ p.Doomed f i) ∧ Cuts drop f p q := by
  have hcut : ∃ q g, p.pruneInert = some (f.handles.length - g.handles.length, q) ∧
      ∃ drop, g = f.without drop ∧ (∀ i, i ∈ drop ↔ p.Doomed f i) ∧ Cuts drop f p q := by
    refine hp.unfolds.exists_pruneInert ?_ ?_ ?_ ?_
    · -- what is cut is sound, and so unfolds; then the three ways in which this comes about
      rintro q g ⟨drop, rfl, hdrop, hcuts⟩
      exact (hcuts.reduces (hp.drops hdrop) hp).sound.unfolds
    · intro hnone
      refine ⟨[], (Forest.without_nil f).symm, fun i => ?_, .refl f p⟩
      exact iff_of_false List.not_mem_nil fun ⟨r, hr, _⟩ => hnone r hr
    · intro drop t hdrop hchain
      obtain ⟨k, q, hk, hq, hcuts⟩ := hp.exists_pruneTo (hp.drops hdrop) hchain
      exact ⟨k, true, q, _, hk, hq, drop, rfl, hdrop, hcuts⟩
    · intro rs drop hrs hdrop
      obtain ⟨q, hq, hcuts⟩ := hp.exists_removeEdges hrs hdrop
      exact ⟨q, _, hq, drop, rfl, hdrop, hcuts⟩
  obtain ⟨q, g, hq, drop, rfl, hdrop, hcuts⟩ := hcut
  exact ⟨q, drop, hq, hdrop, hcuts⟩

/-! ### Nothing remembered -/

theorem forget_pruneTo {code : Code} {found : Bool} (hq : p.pruneTo code = some (found, q)) :
    q.forget = q := by
  obtain ⟨r, -, hq⟩ := Option.bind_eq_some_iff.mp hq
  cases hq
  exact forget_forget r.2

theorem forget_removeEdge {h c : Handle} {found : Bool} (hp : p.forget = p)
    (hq : p.removeEdge h c = some (found, q)) : q.forget = q := by
  obtain ⟨n, -, hq⟩ := Option.bind_eq_some_iff.mp hq
  dsimp only at hq
  split at hq
  · cases hq
    exact hp
  · obtain ⟨p₁, -, hq⟩ := Option.bind_eq_some_iff.mp hq
    obtain ⟨p₂, -, hq⟩ := Option.bind_eq_some_iff.mp hq
    cases hq
    exact forget_forget p₂

theorem forget_removeEdges {rs : List (Handle × Handle)} (hp : p.forget = p)
    (hq : removeEdges drop rs p = some q) : q.forget = q := by
  induction rs generalizing p with
  | nil =>
    cases hq
    exact hp
  | cons r rs ih =>
    rw [removeEdges] at hq
    split at hq
    · exact ih hp hq
    · obtain ⟨⟨found, p₁⟩, hp₁, hq⟩ := Option.bind_eq_some_iff.mp hq
      exact ih (forget_removeEdge hp hp₁) hq

/-- Removing inert branches leaves nothing remembered if nothing was. -/
theorem forget_pruneInert {pruned : Nat} (hp : p.forget = p)
    (hq : p.pruneInert = some (pruned, q)) : q.forget = q := by
  obtain ⟨before, -, hq⟩ := Option.bind_eq_some_iff.mp hq
  obtain ⟨handles, -, hq⟩ := Option.bind_eq_some_iff.mp hq
  obtain ⟨branches, -, hq⟩ := Option.bind_eq_some_iff.mp hq
  dsimp only at hq
  split at hq
  · cases hq
    exact hp
  · obtain ⟨slots, -, hq⟩ := Option.bind_eq_some_iff.mp hq
    obtain ⟨o, -, hq⟩ := Option.bind_eq_some_iff.mp hq
    cases o with
    | none =>
      obtain ⟨r, hr, hq⟩ := Option.bind_eq_some_iff.mp hq
      obtain ⟨after, -, hq⟩ := Option.bind_eq_some_iff.mp hq
      cases hq
      exact forget_removeEdges hp hr
    | some t =>
      obtain ⟨n, -, hq⟩ := Option.bind_eq_some_iff.mp hq
      obtain ⟨⟨found, r⟩, hr, hq⟩ := Option.bind_eq_some_iff.mp hq
      obtain ⟨r', hr', hq⟩ := Option.bind_eq_some_iff.mp hq
      cases hr'
      obtain ⟨after, -, hq⟩ := Option.bind_eq_some_iff.mp hq
      cases hq
      exact forget_pruneTo hr

/-- Minimising applies each rule if asked to, and checks what is left. -/
theorem minimise_eq {m : Minimisation} {unread : Bool} {cleared pruned : Nat}
    {kept : Except PlanError Unit}
    (hcleared : (if (m.minimizeStorage && unread) = true then p.clearUnread else some (0, p))
      = some (cleared, q))
    (hpruned : (if m.pruneBranches = true then q.pruneInert else some (0, q)) = some (pruned, r))
    (hkept : p.checkKept r = some kept) :
    p.minimise m unread = some (r, ⟨1, cleared, pruned⟩, kept) := by
  rw [minimise]
  cases hstore : m.minimizeStorage && unread <;> cases hprune : m.pruneBranches <;>
    simp_all

end TwigAlgebra.Pattern
