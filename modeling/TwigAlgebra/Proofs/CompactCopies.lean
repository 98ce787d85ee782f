import TwigAlgebra.Proofs.Comparing
import TwigAlgebra.Proofs.Replacement

/-!
# Compact copies

A copy leaves behind the slots that the tree does not reach, and numbers the others anew, in
pre-order. Taking the tree out keeps no slot at all, so nothing in the copy refers to the arena it
came from: which slot was which is told by the two listings, and the edges of the copy are those
of the pattern with every slot replaced by its place in the listing.  Laying out and rendering
look at the attributes of nodes alone.  Hence a copy compares as equal to its pattern, and the
copy of a copy is the same in every slot.

## Main definitions

* `Forest.map` — a forest with other slots.
* `Pattern.Compacts` — a pattern in an arena of its own, in pre-order.

## Main results

* `Branches.map_slots_of_bears` — the slots of a copy are those of the tree, renamed.
* `Branches.hangs_of_holds` — the parent links of a layout.
* `Tree.toPattern_eq_of_matches` — copies of trees with the same attributes are the same.
* `Pattern.IsFinite.copy_exact` — what a copy is.
* `Pattern.exists_copy_iff` — what can be copied.
-/

namespace TwigAlgebra

/-! ### Forests with other slots -/

namespace Forest

/-- The forest with its slots replaced. -/
def map (τ : Handle → Handle) : Forest → Forest
  | nil => nil
  | cons h below rest => cons (τ h) (below.map τ) (rest.map τ)

@[simp] theorem map_nil (τ : Handle → Handle) : nil.map τ = nil := rfl

@[simp] theorem map_cons (τ : Handle → Handle) (h : Handle) (below rest : Forest) :
    (cons h below rest).map τ = cons (τ h) (below.map τ) (rest.map τ) := rfl

@[simp] theorem roots_map (τ : Handle → Handle) (f : Forest) : (f.map τ).roots = f.roots.map τ := by
  induction f with
  | nil => rfl
  | cons h below rest _ ih => rw [map_cons, roots_cons, roots_cons, ih, List.map_cons]

@[simp] theorem handles_map (τ : Handle → Handle) (f : Forest) :
    (f.map τ).handles = f.handles.map τ := by
  induction f with
  | nil => rfl
  | cons h below rest ihb ihr =>
    rw [map_cons, handles_cons, handles_cons, ihb, ihr, List.map_cons, List.map_append]

end Forest

namespace Pattern

variable {p q : Pattern} {f g : Forest} {h i : Handle} {τ : Handle → Handle}

/-- Where one arena spans a forest and another the same with other slots, children go with their
parents. -/
theorem Spans.children?_map (hg : q.Spans g) (hf : p.Spans (g.map τ)) (hi : i ∈ g.handles) :
    p.children? (τ i) = (q.children? i).map (List.map τ) := by
  induction g with
  | nil => cases hi
  | cons h below rest ihb ihr =>
    obtain ⟨hh, hbelow, hrest⟩ := hg
    obtain ⟨hh', hbelow', hrest'⟩ := hf
    rcases List.mem_cons.mp hi with rfl | hi
    · rw [hh, hh', Forest.roots_map, Option.map_some]
    · rcases List.mem_append.mp hi with hi | hi
      · exact ihb hbelow hbelow' hi
      · exact ihr hrest hrest' hi

/-- If the top slots correspond, then so do all the others. -/
theorem Spans.corresponds_map {S : Node → Node → Prop} (hg : q.Spans g) (hf : p.Spans (g.map τ))
    (htop : ∀ i ∈ g.roots, p.Corresponds S q (τ i) i) (hi : i ∈ g.handles) :
    p.Corresponds S q (τ i) i := by
  induction g with
  | nil => cases hi
  | cons h below rest ihb ihr =>
    obtain ⟨hh, hbelow, hrest⟩ := hg
    obtain ⟨hh', hbelow', hrest'⟩ := hf
    rw [Forest.roots_cons, List.forall_mem_cons] at htop
    obtain ⟨hfirst, hothers⟩ := htop
    rcases List.mem_cons.mp hi with rfl | hi
    · exact hfirst
    · rcases List.mem_append.mp hi with hi | hi
      · refine ihb hbelow hbelow' (fun c hc => ?_) hi
        -- the children of a slot that corresponds correspond one by one
        obtain ⟨m, hm, hchildren⟩ := children?_eq_some_iff.mp hh
        obtain ⟨n, hn, hchildren'⟩ := children?_eq_some_iff.mp hh'
        have hpairs := ((corresponds_iff hn hm).mp hfirst).2.2
        rw [hchildren, hchildren', Forest.roots_map, List.forall₂_map_left_iff] at hpairs
        exact List.forall₂_same.mp hpairs c hc
      · exact ihr hrest hrest' hothers hi

end Pattern

/-! ### Branches with the same attributes -/

theorem Node.placed_eq {n m : Node} (h : n.SameAttributes m) (owner : Handle) (depth : UInt32)
    (edges : List Edge) : n.placed owner depth edges = m.placed owner depth edges :=
  calc n.placed owner depth edges = n.attributes.placed owner depth edges := rfl
    _ = m.attributes.placed owner depth edges := congrArg (·.placed owner depth edges) h

theorem Node.full_eq {n m : Node} (h : n.SameAttributes m) : n.full = m.full :=
  calc n.full = n.attributes.full := rfl
    _ = m.attributes.full := congrArg Node.full h

namespace Branches

open Pattern

variable {p q : Pattern} {bs bs' : Branches} {owner start : Handle} {depth : UInt32} {f : Forest}
  {es : List Edge} {R : Node → Node → Prop} {τ : Handle → Handle}

theorem Matches.size_eq (h : bs.Matches R bs') : bs.size = bs'.size := by
  induction bs generalizing bs' with
  | nil =>
    cases bs' with
    | nil => rfl
    | cons flags n below rest => exact h.elim
  | cons flags n below rest ihb ihr =>
    cases bs' with
    | nil => exact h.elim
    | cons flags' n' below' rest' =>
      obtain ⟨-, -, hbelow, hrest⟩ := h
      rw [size_cons, size_cons, ihb hbelow, ihr hrest]

theorem Matches.links_eq (h : bs.Matches R bs') (start : Handle) :
    bs.links start = bs'.links start := by
  induction bs generalizing bs' start with
  | nil =>
    cases bs' with
    | nil => rfl
    | cons flags n below rest => exact h.elim
  | cons flags n below rest _ ihr =>
    cases bs' with
    | nil => exact h.elim
    | cons flags' n' below' rest' =>
      obtain ⟨rfl, -, hbelow, hrest⟩ := h
      rw [links, links, hbelow.size_eq, ihr hrest]

/-- A layout looks at attributes alone. -/
theorem Matches.layout_eq (h : bs.Matches Node.SameAttributes bs') (owner : Handle) (depth : UInt32)
    (start : Handle) : bs.layout owner depth start = bs'.layout owner depth start := by
  induction bs generalizing bs' owner depth start with
  | nil =>
    cases bs' with
    | nil => rfl
    | cons flags n below rest => exact h.elim
  | cons flags n below rest ihb ihr =>
    cases bs' with
    | nil => exact h.elim
    | cons flags' n' below' rest' =>
      obtain ⟨rfl, hn, hbelow, hrest⟩ := h
      rw [layout, layout, ihb hbelow, ihr hrest, hbelow.links_eq, hbelow.size_eq, Node.placed_eq hn]

/-- A rendering looks at attributes alone. -/
theorem Matches.chars_eq (h : bs.Matches Node.SameAttributes bs') : bs.chars = bs'.chars := by
  induction bs generalizing bs' with
  | nil =>
    cases bs' with
    | nil => rfl
    | cons flags n below rest => exact h.elim
  | cons flags n below rest ihb ihr =>
    cases bs' with
    | nil => exact h.elim
    | cons flags' n' below' rest' =>
      obtain ⟨rfl, hn, hbelow, hrest⟩ := h
      rw [chars, chars, ihb hbelow, ihr hrest, hbelow.width_eq, Node.full_eq hn]

/-! ### The slots of a layout -/

/-- Branches that a forest bears have as many nodes as this has slots. -/
theorem size_of_bears (hb : p.Bears R es bs) (hf : p.Spans f) (hes : es.map (·.child) = f.roots) :
    bs.size = f.handles.length := by
  induction bs generalizing es f with
  | nil =>
    cases es with
    | nil =>
      -- edges, branches and trees are gone through together
      cases f with
      | nil => rfl
      | cons h below rest => cases hes
    | cons e es => exact hb.elim
  | cons flags n below rest ihb ihr =>
    cases es with
    | nil => exact hb.elim
    | cons e es =>
      obtain ⟨below', rest', rfl, hrest⟩ := Forest.exists_eq_of_roots_cons hes.symm
      obtain ⟨-, ⟨m, hm, -, hbelow⟩, hothers⟩ := hb
      obtain ⟨hchildren, hspans, hspans'⟩ := hf
      obtain ⟨k, hk, hroots⟩ := children?_eq_some_iff.mp hchildren
      cases hm.symm.trans hk
      rw [size_cons, ihb hbelow hspans hroots, ihr hothers hspans' hrest.symm, Forest.handles_cons,
        List.length_cons, List.length_append]
      omega

/-- The slots of a layout, each replaced by the one in the same place of a forest that bears the
branches, are that forest. -/
theorem map_slots_of_bears (hb : p.Bears R es bs) (hf : p.Spans f)
    (hes : es.map (·.child) = f.roots) (hτ : (bs.slots start).handles.map τ = f.handles) :
    (bs.slots start).map τ = f := by
  induction bs generalizing es f start with
  | nil =>
    cases es with
    | nil =>
      cases f with
      | nil => rfl
      | cons h below rest => cases hes
    | cons e es => exact hb.elim
  | cons flags n below rest ihb ihr =>
    cases es with
    | nil => exact hb.elim
    | cons e es =>
      obtain ⟨below', rest', rfl, hrest⟩ := Forest.exists_eq_of_roots_cons hes.symm
      obtain ⟨-, ⟨m, hm, -, hbelow⟩, hothers⟩ := hb
      obtain ⟨hchildren, hspans, hspans'⟩ := hf
      obtain ⟨k, hk, hroots⟩ := children?_eq_some_iff.mp hchildren
      cases hm.symm.trans hk
      rw [slots, Forest.handles_cons, Forest.handles_cons, List.map_cons, List.map_append,
        List.cons.injEq] at hτ
      obtain ⟨htop, hτ⟩ := hτ
      -- the lengths say where the slots below the first one end
      have hlength : ((below.slots (start + 1)).handles.map τ).length = below'.handles.length := by
        rw [List.length_map, handles_slots, List.length_range', size_of_bears hbelow hspans hroots]
      obtain ⟨hfirst, hsecond⟩ := List.append_inj hτ hlength
      rw [slots, Forest.map_cons, htop, ihb hbelow hspans hroots hfirst,
        ihr hothers hspans' hrest.symm hsecond]

/-- The nodes of a layout link to the owners of their edges. -/
theorem hangs_of_holds (h : q.Holds start (bs.layout owner depth start)) :
    q.Hangs ((bs.links start).map fun e => (e.child, some owner)) (bs.slots start) := by
  induction bs generalizing owner start depth with
  | nil => trivial
  | cons flags n below rest ihb ihr =>
    rw [layout, holds_cons_iff, holds_append_iff, length_layout] at h
    obtain ⟨hn, hbelow, hrest⟩ := h
    obtain ⟨m, hm, hmn⟩ := exists_node_of_bare? hn
    have hedges : m.edges = below.links (start + 1) := congrArg Node.edges hmn
    refine ⟨rfl, m, hm, congrArg Node.parent hmn, ?_, ihr hrest⟩
    rw [Node.children, hedges, List.map_map]
    exact ihb hbelow

end Branches

/-! ### Copies of trees -/

namespace Pattern

/-- Slots that hold a list from the first one on hold nothing else, if there are no more of them. -/
theorem Holds.bare?_eq {q : Pattern} {l : List Node} (h : q.Holds 0 l) (hsize : q.size = l.length)
    (i : Handle) : q.bare? i = l[i]? := by
  cases hn : l[i]? with
  | some n =>
    have hbare := h i n hn
    rwa [Nat.zero_add] at hbare
  | none =>
    rw [bare?, node?_eq_none_iff.mpr (hsize ▸ List.getElem?_eq_none_iff.mp hn), Option.map_none]

end Pattern

namespace Tree

open Pattern

variable {q r : Pattern} {t u : Tree} {name : String}

theorem Matches.chars_eq (h : t.Matches Node.SameAttributes u) : t.chars = u.chars := by
  rw [chars, chars, Node.full_eq h.1, h.2.width_eq, h.2.chars_eq]

/-- Nothing is remembered in a copy if its top node remembers nothing. -/
theorem forget_toPattern (hlabel : t.label.topMemo = none) (hq : t.toPattern name = some q) :
    q.forget = q := by
  refine toPattern_invariant (I := fun r => r.forget = r) ?_
    (fun _ _ _ _ _ _ _ hr _ => forget_addChild hr) hq
  refine eq_of_node? rfl rfl fun h => ?_
  rw [node?_forget, node?_singleton]
  split
  · rw [Option.map_some, hlabel]
  · rfl

/-- The nodes of a copy link to the owners of their edges, and the top node to none. -/
theorem hangs_of_toPattern (hq : t.toPattern name = some q) :
    q.Hangs [(q.root, none)] (.cons q.root (t.below.slots 1) .nil) := by
  obtain ⟨-, hroot, -, hholds⟩ := holds_of_toPattern hq
  obtain ⟨htop, hbelow⟩ := holds_cons_iff.mp hholds
  obtain ⟨n, hn, hnbare⟩ := exists_node_of_bare? htop
  have hedges : n.edges = t.below.links 1 := congrArg Node.edges hnbare
  refine ⟨rfl, n, hroot ▸ hn, congrArg Node.parent hnbare, ?_, trivial⟩
  rw [Node.children, hedges, List.map_map, hroot]
  exact Branches.hangs_of_holds hbelow

/-- The nodes of a copy are those of its tree, apart from where they hang. -/
theorem nodesOn_of_toPattern (hq : t.toPattern name = some q) :
    (q.nodesOn (.cons q.root (t.below.slots 1) .nil)).map Node.attributes
      = t.labels.map Node.attributes := by
  obtain ⟨-, hroot, -, hholds⟩ := holds_of_toPattern hq
  obtain ⟨htop, hbelow⟩ := holds_cons_iff.mp hholds
  obtain ⟨n, hn, hnbare⟩ := exists_node_of_bare? htop
  have hsame : n.attributes = t.label.attributes :=
    (congrArg Node.attributes hnbare : n.bare.attributes = _)
  rw [nodesOn_cons (hroot ▸ hn), nodesOn_nil, List.append_nil, List.map_cons, labels, List.map_cons,
    Branches.nodesOn_of_holds hbelow]
  exact congrArg (· :: _) hsame

/-- Copies of trees with the same attributes are the same, if their top nodes are as deep. -/
theorem toPattern_eq_of_matches (hq : t.toPattern name = some q) (hr : u.toPattern name = some r)
    (htop : t.label.detached = u.label.detached) (hmemo : t.label.topMemo = none)
    (hmemo' : u.label.topMemo = none) (hbelow : t.below.Matches Node.SameAttributes u.below) :
    q = r := by
  have hdepth : t.label.detached.depth = u.label.detached.depth := congrArg Node.depth htop
  have hdepth : t.label.depth = u.label.depth := hdepth
  obtain ⟨hname, hroot, hsize, hholds⟩ := holds_of_toPattern hq
  obtain ⟨hname', hroot', hsize', hholds'⟩ := holds_of_toPattern hr
  rw [htop, hdepth, hbelow.links_eq, hbelow.layout_eq] at hholds
  rw [size, hbelow.size_eq] at hsize
  rw [size] at hsize'
  refine eq_of_bare? (hname.trans hname'.symm) (hroot.trans hroot'.symm) (fun i => ?_)
    (forget_toPattern hmemo' hr) (forget_toPattern hmemo hq)
  have hlength : (({ u.label.detached with edges := u.below.links 1 } : Node) ::
      u.below.layout 0 u.label.depth 1).length = 1 + u.below.size := by
    rw [List.length_cons, Branches.length_layout, Nat.add_comm]
  rw [hholds.bare?_eq (hsize.trans hlength.symm), hholds'.bare?_eq (hsize'.trans hlength.symm)]

end Tree

/-! ### Copies of patterns -/

namespace Pattern

variable {p q : Pattern} {f : Forest} {t u : Tree} {l : List Handle}

/-- The pattern `q` is the tree of `p` in an arena of its own: its slots are numbered as the slots
`l` of `p` are listed, in pre-order. -/
structure Compacts (p : Pattern) (l : List Handle) (q : Pattern) : Prop where
  /-- The name is the same. -/
  name : q.name = p.name
  /-- The tree has as many nodes as there are slots. -/
  count : p.count p.root = some q.size
  /-- The slots of the pattern are listed in pre-order. -/
  listed : p.preorder = some l
  /-- So are all slots of the copy, in the order of their numbers. -/
  compact : q.preorder = some (List.range q.size)
  /-- A node and everything below it is found again in the slot of the same place, and its edges
  lead to the slots of its children. -/
  slot : ∀ i h, l[i]? = some h → p.Corresponds Node.SameAttributes q h i ∧
    (q.children? i).map (List.map (l[·]?)) = (p.children? h).map (List.map some)
  /-- A node links to the owner of the edge that leads to it, and to nothing else. -/
  linked : ∀ c h, q.LinksTo c h ↔ q.Leads h c

/-- The slots of a copy are all that there are, in pre-order. -/
theorem handles_of_toPattern {name : String} (hq : t.toPattern name = some q) :
    (Forest.cons q.root (t.below.slots 1) .nil).handles = List.range q.size := by
  obtain ⟨-, hroot, hsize, -⟩ := Tree.holds_of_toPattern hq
  rw [Forest.handles_cons, Forest.handles_nil, List.append_nil, Branches.handles_slots, hroot,
    hsize, Tree.size, List.range_eq_range', Nat.add_comm, List.range'_succ]

/-- In a copy, links and edges are converse to each other. -/
theorem linksTo_iff_leads {name : String} (hq : t.toPattern name = some q) (c h : Handle) :
    q.LinksTo c h ↔ q.Leads h c := by
  have hhangs := Tree.hangs_of_toPattern hq
  have hspans := Tree.spans_of_toPattern hq
  -- the slots of a copy are all in its tree
  have hmem : ∀ i < q.size, i ∈ (Forest.cons q.root (t.below.slots 1) .nil).handles := fun i hi =>
    handles_of_toPattern hq ▸ List.mem_range.mpr hi
  have hleads : ∀ h c, q.Leads h c → q.LinksTo c h := by
    rintro h c ⟨n, hn, hc⟩
    have hh := hmem h (lt_size_of_node? hn)
    obtain ⟨m, hm⟩ := hspans.exists_node
      (hspans.mem_of_mem_children hh (children?_eq_some_iff.mpr ⟨n, hn, rfl⟩) hc)
    exact ⟨m, hm, hhangs.parent_eq hh hn hc hm⟩
  refine ⟨fun hlink => ?_, hleads h c⟩
  rcases hspans.exists_parent (hmem c hlink.lt_size) with htop | ⟨i, -, cs, hcs, hmem⟩
  · -- the top node links to nothing
    obtain ⟨m, hm, hparent⟩ := hlink
    rw [List.mem_singleton.mp htop] at hm
    cases (hhangs.parent_eq_of_mem List.mem_cons_self hm).symm.trans hparent
  · -- the one slot that leads to `c` is its parent, and that is where the link goes
    obtain ⟨n, hn, rfl⟩ := children?_eq_some_iff.mp hcs
    rw [hlink.unique (hleads i c ⟨n, hn, hmem⟩)]
    exact ⟨n, hn, hmem⟩

/-- The slots of a copy are those of the tree, renamed: each stands for the slot in the same place
of the listing. -/
theorem Unfolds.exists_renaming (hp : p.Unfolds f) (ht : p.extract p.root = some t)
    (hq : t.toPattern p.name = some q) : ∃ τ : Handle → Handle,
      (∀ i < q.size, f.handles[i]? = some (τ i)) ∧
        (Forest.cons q.root (t.below.slots 1) .nil).map τ = f := by
  obtain ⟨below, rfl⟩ := Forest.exists_eq_of_roots_singleton hp.roots_eq
  obtain ⟨n, hn, -, hbears⟩ := bearsTree_of_extract ht
  obtain ⟨m, hm, hroots⟩ := children?_eq_some_iff.mp hp.spans.1
  cases hn.symm.trans hm
  have hlength : q.size = (Forest.cons p.root below .nil).handles.length := by
    rw [(Tree.holds_of_toPattern hq).2.2.1, hp.spans.size_of_extract ht]
    simp
  -- the `i`-th slot of the copy stands for the `i`-th in the listing
  let τ (i : Handle) : Handle := (Forest.cons p.root below .nil).handles[i]?.getD p.root
  have hτ : ∀ i < q.size, (Forest.cons p.root below .nil).handles[i]? = some (τ i) := by
    intro i hi
    have hget := List.getElem?_eq_getElem (hlength ▸ hi)
    rw [hget]
    exact congrArg some (congrArg (·.getD p.root) hget).symm
  have hrenamed : (Forest.cons q.root (t.below.slots 1) .nil).handles.map τ
      = (Forest.cons p.root below .nil).handles := by
    refine List.ext_getElem? fun i => ?_
    rw [handles_of_toPattern hq, List.getElem?_map]
    by_cases hi : i < q.size
    · rw [List.getElem?_range hi, Option.map_some, hτ i hi]
    · -- behind the last slot both listings are at an end
      rw [List.getElem?_eq_none (by simpa using hi), List.getElem?_eq_none (by omega),
        Option.map_none]
  refine ⟨τ, hτ, ?_⟩
  simp only [Forest.handles_cons, List.map_cons, List.cons.injEq, Forest.handles_nil,
    List.append_nil] at hrenamed
  rw [Forest.map_cons, hrenamed.1,
    Branches.map_slots_of_bears hbears hp.spans.2.1 hroots hrenamed.2, Forest.map_nil]

/-- A tree that was taken out is laid out in pre-order. -/
theorem Unfolds.compacts (hp : p.Unfolds f) (ht : p.extract p.root = some t)
    (hq : t.toPattern p.name = some q) : p.Compacts f.handles q := by
  obtain ⟨τ, hτ, rfl⟩ := hp.exists_renaming ht hq
  have hspans := Tree.spans_of_toPattern hq
  have hhandles := handles_of_toPattern hq
  have htop := extract_corresponds ht (Tree.bearsTree_of_toPattern hq)
  have hroot : τ q.root = p.root := (List.cons.inj hp.roots_eq).1
  have hlength : ((Forest.cons q.root (t.below.slots 1) .nil).map τ).handles.length = q.size := by
    rw [Forest.handles_map, hhandles, List.length_map, List.length_range]
  refine ⟨(Tree.holds_of_toPattern hq).1, ?_, hp.spans.preorder_eq hp.roots_eq, ?_, fun i h hi => ?_,
    linksTo_iff_leads hq⟩
  · rw [hp.count_eq, hlength]
  · rw [hspans.preorder_eq rfl, hhandles]
  · have hlt : i < q.size := hlength ▸ (List.getElem?_eq_some_iff.mp hi).1
    have hmem : i ∈ (Forest.cons q.root (t.below.slots 1) .nil).handles :=
      hhandles ▸ List.mem_range.mpr hlt
    obtain rfl : τ i = h := Option.some.inj ((hτ i hlt).symm.trans hi)
    refine ⟨hspans.corresponds_map hp.spans ?_ hmem, ?_⟩
    · rw [Forest.roots_cons, Forest.roots_nil, List.forall_mem_singleton, hroot]
      exact htop
    · -- the children are renamed with their edges
      obtain ⟨k, hk⟩ := hspans.exists_node hmem
      have hchildren := children?_eq_some_iff.mpr ⟨k, hk, rfl⟩
      rw [hspans.children?_map hp.spans hmem, hchildren, Option.map_some, Option.map_some,
        Option.map_some, List.map_map]
      refine congrArg some (List.map_congr_left fun c hc => ?_)
      have hc := hspans.mem_of_mem_children hmem hchildren hc
      rw [hhandles, List.mem_range] at hc
      exact hτ c hc

/-- The nodes of a copy are those of the pattern, in the same order, apart from where they hang. -/
theorem Unfolds.attributes_toPattern (hp : p.Unfolds f) (ht : p.extract p.root = some t)
    (hq : t.toPattern p.name = some q) :
    (q.nodesOn (.cons q.root (t.below.slots 1) .nil)).map Node.attributes
      = (p.nodesOn f).map Node.attributes := by
  obtain ⟨below, rfl⟩ := Forest.exists_eq_of_roots_singleton hp.roots_eq
  calc _ = t.labels.map Node.attributes := Tree.nodesOn_of_toPattern hq
    _ = ((p.nodesOn (.cons p.root below .nil)).map Node.detached).map Node.attributes := by
      rw [hp.spans.labels_of_extract ht]
    _ = _ := by
      rw [List.map_map]
      rfl

/-- A copy is sound if its pattern is. -/
theorem Sound.toPattern (hp : p.Sound f) (ht : p.extract p.root = some t)
    (hq : t.toPattern p.name = some q) : q.Sound (.cons q.root (t.below.slots 1) .nil) where
  hangs := Tree.hangs_of_toPattern hq
  nodup := handles_of_toPattern hq ▸ List.nodup_range
  codes := by
    have hcodes := congrArg (List.map Node.code)
      (Unfolds.attributes_toPattern ⟨hp.spans, hp.roots_eq⟩ ht hq)
    rw [List.map_map, List.map_map] at hcodes
    exact hcodes ▸ hp.codes
  recorded n hn := by
    have hmem := List.mem_map_of_mem (f := Node.attributes) hn
    rw [Unfolds.attributes_toPattern ⟨hp.spans, hp.roots_eq⟩ ht hq] at hmem
    obtain ⟨m, hm, hsame⟩ := List.mem_map.mp hmem
    have hvars : m.attributes.vars = n.attributes.vars := congrArg Node.vars hsame
    have hcode : m.attributes.code = n.attributes.code := congrArg Node.code hsame
    have hrecorded := hp.recorded m hm
    rwa [show m.vars = n.vars from hvars, show m.code = n.code from hcode] at hrecorded

/-- What the nodes bind, and their codes, do not depend on where they hang. -/
theorem nodesInOrder_congr {ns ms : List Node} (hp : p.nodesInOrder = some ns)
    (hq : q.nodesInOrder = some ms) (hsame : ms.map Node.attributes = ns.map Node.attributes) :
    q.codes = p.codes ∧ q.boundVars = p.boundVars := by
  constructor
  · have hcodes := congrArg (List.map Node.code) hsame
    rw [List.map_map, List.map_map] at hcodes
    rw [codes, codes, hp, hq]
    exact congrArg some hcodes
  · have hvars := congrArg (List.flatMap Node.vars) hsame
    rw [List.flatMap_map, List.flatMap_map] at hvars
    rw [boundVars, boundVars, hp, hq]
    exact congrArg some hvars

/-- What is taken out of a copy has the shape and the attributes of what was copied. -/
theorem matches_of_toPattern (ht : p.extract p.root = some t) (hq : t.toPattern p.name = some q)
    (hu : q.extract q.root = some u) : t.Matches Node.SameAttributes u := by
  have hcorresponds := extract_corresponds ht (Tree.bearsTree_of_toPattern hq)
  refine ((bearsTree_of_extract ht).corresponds_iff (bearsTree_of_extract hu) ?_).mp hcorresponds
  rintro n _ m _ rfl rfl
  exact Iff.rfl

/-- The top node keeps its depth, too. -/
theorem label_of_toPattern (hq : t.toPattern p.name = some q) (hu : q.extract q.root = some u) :
    u.label = t.label.detached := by
  obtain ⟨-, hroot, -, hholds⟩ := Tree.holds_of_toPattern hq
  obtain ⟨n, hn, hnbare⟩ := exists_node_of_bare? (holds_cons_iff.mp hholds).1
  obtain ⟨m, hm, hlabel⟩ := label_of_extract hu
  cases hn.symm.trans (hroot ▸ hm)
  exact hlabel.trans (congrArg Node.detached hnbare : n.bare.detached = _)

/-- A pattern compares as equal to a copy. -/
theorem compare_of_toPattern (ht : p.extract p.root = some t) (hq : t.toPattern p.name = some q)
    (hu : q.extract q.root = some u) : p.compare q = some .eq := by
  have hmatches := matches_of_toPattern ht hq hu
  obtain ⟨n, hn, hlabel⟩ := label_of_extract ht
  obtain ⟨m, hm, hlabel'⟩ := label_of_extract hu
  obtain ⟨s, hs, hchars⟩ := toList_render ht
  obtain ⟨s', hs', hchars'⟩ := toList_render hu
  have hfull : n.full = m.full := by
    have hsame := Node.full_eq hmatches.1
    rwa [hlabel, hlabel'] at hsame
  obtain ⟨o, ho, heq⟩ := compareNodes_eq_eq_iff hn hm hs hs' fun _ => hfull
  have hrendered : s = s' := String.toList_inj.mp (by rw [hchars, hchars', hmatches.chars_eq])
  rw [compare, ho, heq.mpr hrendered]

/-- The copy of a copy is the same. -/
theorem toPattern_toPattern (ht : p.extract p.root = some t) (hq : t.toPattern p.name = some q)
    (hu : q.extract q.root = some u) : u.toPattern q.name = some q := by
  obtain ⟨r, hr⟩ := u.exists_toPattern q.name
  obtain ⟨n, -, hlabel⟩ := label_of_extract ht
  obtain ⟨m, -, hlabel'⟩ := label_of_extract hu
  have hname : q.name = p.name := (Tree.holds_of_toPattern hq).1
  have htop : t.label.detached = u.label.detached := by
    rw [label_of_toPattern hq hu, Node.detached_detached]
  have hsame := Tree.toPattern_eq_of_matches hq (hname ▸ hr) htop (hlabel ▸ rfl) (hlabel' ▸ rfl)
    (matches_of_toPattern ht hq hu).2
  rw [hr, hsame]

/-- A finite pattern can be copied.  The copy holds the nodes of the tree and nothing else, slot
after slot in pre-order; it compares as equal, has the same codes and variables, is accepted by
the check if the pattern is, and copying it again changes nothing. -/
theorem IsFinite.copy_exact (hp : p.IsFinite) : ∃ l q, p.copy = some q ∧ p.Compacts l q ∧
    p.compare q = some .eq ∧ q.codes = p.codes ∧ q.boundVars = p.boundVars ∧
    (p.validate = .ok () → q.validate = .ok ()) ∧ q.copy = some q := by
  obtain ⟨f, hf⟩ := hp
  obtain ⟨below, rfl⟩ := Forest.exists_eq_of_roots_singleton hf.roots_eq
  obtain ⟨t, ht⟩ := hf.spans.exists_extract
  obtain ⟨q, hq⟩ := t.exists_toPattern p.name
  have hspans := Tree.spans_of_toPattern hq
  obtain ⟨u, hu⟩ := hspans.exists_extract
  obtain ⟨hcodes, hvars⟩ := nodesInOrder_congr hf.nodesInOrder_eq (hspans.nodesInOrder_eq rfl)
    (hf.attributes_toPattern ht hq)
  refine ⟨_, q, ?_, hf.compacts ht hq, compare_of_toPattern ht hq hu, hcodes, hvars, fun hok => ?_, ?_⟩
  · rw [copy, ht]
    exact hq
  · obtain ⟨g, hg⟩ := validate_eq_ok_iff.mp hok
    exact validate_eq_ok_iff.mpr ⟨_, hg.toPattern ht hq⟩
  · rw [copy, hu]
    exact toPattern_toPattern ht hq hu

/-- Copying comes to an end in finite patterns only. -/
theorem exists_copy_iff : (∃ q, p.copy = some q) ↔ p.IsFinite := by
  constructor
  · rintro ⟨q, hq⟩
    obtain ⟨t, ht, -⟩ := copy_eq_some hq
    obtain ⟨below, hbelow, -⟩ := exists_spans_of_extract ht
    exact ⟨_, hbelow, rfl⟩
  · rintro ⟨f, hf⟩
    obtain ⟨below, rfl⟩ := Forest.exists_eq_of_roots_singleton hf.roots_eq
    obtain ⟨t, ht⟩ := hf.spans.exists_extract
    obtain ⟨q, hq⟩ := t.exists_toPattern p.name
    exact ⟨q, by rw [copy, ht]; exact hq⟩

/-- A shelf with a book and its author and with a journal.  A review was taken off the book, and the
slots are in no order. -/
def scatteredShelf : Pattern where
  name := "shelf"
  nodes := #[{ Node.make ⟨2⟩ "" "author" with
      parent := some 2, stores := ⟨false, false, true, false⟩,
      vars := [⟨⟨0⟩, "a", .value, some ⟨2⟩⟩] },
    Node.make ⟨4⟩ "" "review",
    { Node.make ⟨1⟩ "" "book" with parent := some 3, edges := [⟨⟨false, true, false⟩, 0⟩] },
    { Node.make ⟨0⟩ "" "shelf" with
      edges := [⟨⟨true, false, false⟩, 2⟩, ⟨⟨true, false, true⟩, 4⟩] },
    { Node.make ⟨3⟩ "" "journal" with parent := some 3, requires := ⟨true, false, false⟩ }]
  root := 3

/-- The theorem at a shelf with five slots, one of them left behind. -/
theorem copy_exact_scatteredShelf : ∃ q, scatteredShelf.copy = some q ∧
    scatteredShelf.Compacts [3, 2, 0, 4] q ∧ q.size = 4 ∧ scatteredShelf.compare q = some .eq ∧
    q.codes = some [⟨0⟩, ⟨1⟩, ⟨2⟩, ⟨3⟩] ∧ q.validate = .ok () ∧ q.copy = some q := by
  have hfinite : scatteredShelf.IsFinite := by
    refine ⟨.cons 3 (.cons 2 (.cons 0 .nil .nil) (.cons 4 .nil .nil)) .nil, ?_, rfl⟩
    simp only [Spans]
    decide
  obtain ⟨l, q, hq, hcompacts, hcompare, hcodes, -, hvalid, hagain⟩ := hfinite.copy_exact
  have hlisted : scatteredShelf.preorder = some [3, 2, 0, 4] := by decide
  have hcount : scatteredShelf.count 3 = some 4 := by decide
  obtain rfl : [3, 2, 0, 4] = l := Option.some.inj (hlisted.symm.trans hcompacts.listed)
  have hsize : 4 = q.size := Option.some.inj (hcount.symm.trans hcompacts.count)
  exact ⟨q, hq, hcompacts, hsize.symm, hcompare, hcodes.trans (by decide), hvalid (by decide),
    hagain⟩

end Pattern

end TwigAlgebra
