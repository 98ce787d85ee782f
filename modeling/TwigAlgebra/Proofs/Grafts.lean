import TwigAlgebra.Proofs.Growth
import TwigAlgebra.Proofs.Layout

/-!
# Grafts give back what was taken out

A subtree that is taken out of one arena and grafted in another is found there again: taking it out
at its new slot gives the same tree, in which only the depths are counted from the node that it
hangs under.  In the arena that grows, the new slots come last, the node that the tree hangs under
gets one more edge, and nothing else changes.

The branches below a node are a list of trees.  Copying them is grafting this list, one tree after
the other, although each is taken out by a descent of its own.

## Main definitions

* `Branches.toList` — the trees side by side, each with the flags of the edge to it.
* `Branches.rebased`, `Tree.rebased` — the same subtree at another depth.
* `Pattern.linksFrom` — the edges to trees that fill the slots from one on.
* `Pattern.Adopts` — what it means that trees were grafted and nothing else happened.

## Main results

* `Pattern.gather_eq_some_iff` — what is gathered along edges is what the descents find.
* `Branches.gather_of_holds` — what is taken out of a layout.
* `Pattern.graft_eq_map`, `Pattern.copyChildren_eq_graft` — grafting a tree and copying branches are
  grafting branches.
* `Pattern.Spans.graft_exact` — what grafts and copies of branches do.
-/

namespace TwigAlgebra

open Pattern

namespace Branches

/-- The trees of the branches, each with the flags of the edge to it. -/
def toList : Branches → List (EdgeFlags × Tree)
  | nil => []
  | cons flags n below rest => (flags, ⟨n, below⟩) :: rest.toList

/-- The branches below a node that is `depth` nested edges deep. -/
def rebased : Branches → UInt32 → Branches
  | nil, _ => nil
  | cons flags n below rest, depth =>
    cons flags { n with depth := depth + flags.levels } (below.rebased (depth + flags.levels))
      (rest.rebased depth)

@[simp] theorem toList_nil : nil.toList = [] := rfl

@[simp] theorem toList_cons (flags : EdgeFlags) (n : Node) (below rest : Branches) :
    (cons flags n below rest).toList = (flags, ⟨n, below⟩) :: rest.toList := rfl

end Branches

/-- The tree whose top node is `depth` nested edges deep. -/
def Tree.rebased (t : Tree) (depth : UInt32) : Tree :=
  ⟨{ t.label with depth }, t.below.rebased depth⟩

namespace Branches

theorem toList_rebased (bs : Branches) (depth : UInt32) :
    (bs.rebased depth).toList = bs.toList.map fun c => (c.1, c.2.rebased (depth + c.1.levels)) := by
  induction bs with
  | nil => rfl
  | cons flags n below rest _ ih =>
    rw [rebased, toList_cons, ih]
    rfl

theorem size_eq_sum (bs : Branches) : bs.size = (bs.toList.map fun c => c.2.size).sum := by
  induction bs with
  | nil => rfl
  | cons flags n below rest _ ih =>
    rw [size_cons, ih]
    rfl

end Branches

namespace Pattern

/-- The edges to trees that fill the slots from `start` on, one after the other. -/
def linksFrom : Handle → List (EdgeFlags × Tree) → List Edge
  | _, [] => []
  | start, (flags, t) :: ts => flags.to start :: linksFrom (start + t.size) ts

theorem linksFrom_toList (bs : Branches) (start : Handle) :
    linksFrom start bs.toList = bs.links start := by
  induction bs generalizing start with
  | nil => rfl
  | cons flags n below rest _ ih =>
    rw [Branches.toList_cons, linksFrom, ih, Branches.links, Tree.size, Nat.add_assoc]

/-! ### Taking out -/

variable {p q source : Pattern} {h target start : Handle} {owner : Node} {t : Tree} {bs : Branches}
  {es : List Edge} {fuel : Nat}

/-- The branches that are gathered along edges are the trees that are found there. -/
theorem gather_eq_some_iff {visit : Handle → Option Tree} : gather visit es = some bs ↔
    List.Forall₂ (fun e c => e.toEdgeFlags = c.1 ∧ visit e.child = some c.2) es bs.toList := by
  induction es generalizing bs with
  | nil =>
    cases bs with
    | nil => simp [gather]
    | cons flags n below rest => simp [gather]
  | cons e es ih =>
    cases bs with
    | nil =>
      simp only [gather, Branches.toList_nil, List.forall₂_nil_right_iff, reduceCtorEq, iff_false]
      intro hbs
      -- gathering along an edge yields a branch
      obtain ⟨t, -, hbs⟩ := Option.bind_eq_some_iff.mp hbs
      obtain ⟨rest, -, hbs⟩ := Option.bind_eq_some_iff.mp hbs
      cases hbs
    | cons flags n below rest =>
      rw [Branches.toList_cons, List.forall₂_cons, ← ih]
      constructor
      · intro hbs
        obtain ⟨t, ht, hbs⟩ := Option.bind_eq_some_iff.mp hbs
        obtain ⟨rest, hrest, hbs⟩ := Option.bind_eq_some_iff.mp hbs
        cases hbs
        exact ⟨⟨rfl, ht⟩, hrest⟩
      · rintro ⟨⟨rfl, ht⟩, hrest⟩
        rw [gather, ht, hrest]
        rfl

/-- A deeper descent finds the same. -/
theorem extractWith_succ {hole : Handle → Option (Option Tree)}
    (ht : p.extractWith hole fuel h = some t) : p.extractWith hole (fuel + 1) h = some t := by
  induction fuel generalizing h t with
  | zero => cases ht
  | succ fuel ih =>
    rw [extractWith] at ht ⊢
    obtain ⟨o, ho, ht⟩ := Option.bind_eq_some_iff.mp ht
    rw [ho]
    cases o with
    | some u => exact ht
    | none =>
      -- the node at the top is the same, and each child is found again by induction
      obtain ⟨n, hn, ht⟩ := Option.bind_eq_some_iff.mp ht
      obtain ⟨bs, hbs, ht⟩ := Option.bind_eq_some_iff.mp ht
      have hdeeper : gather (p.extractWith hole (fuel + 1)) n.edges = some bs :=
        gather_eq_some_iff.mpr ((gather_eq_some_iff.mp hbs).imp fun e c hc => ⟨hc.1, ih hc.2⟩)
      simp only [Option.bind_eq_bind, Option.bind_some, hn, hdeeper]
      exact ht

/-- A subtree is its top node with the subtrees of the children, each taken out on its own. -/
theorem exists_gather_of_extract (ht : source.extract h = some t) : ∃ n, source.node? h = some n ∧
    t.label = n.detached ∧ gather source.extract n.edges = some t.below := by
  unfold extract at ht ⊢
  generalize hsize : source.size = fuel at ht ⊢
  cases fuel with
  | zero => cases ht
  | succ fuel =>
    rw [extractWith] at ht
    simp only [Option.bind_eq_bind, Option.bind_some] at ht
    obtain ⟨n, hn, ht⟩ := Option.bind_eq_some_iff.mp ht
    obtain ⟨bs, hbs, ht⟩ := Option.bind_eq_some_iff.mp ht
    cases ht
    refine ⟨n, hn, rfl, gather_eq_some_iff.mpr ?_⟩
    exact (gather_eq_some_iff.mp hbs).imp fun e c hc => ⟨hc.1, extractWith_succ hc.2⟩

end Pattern

/-! ### Taking out of a layout -/

namespace Branches

variable {p : Pattern} {start owner : Handle} {depth : UInt32} {bs : Branches} {fuel : Nat}

/-- Branches that were laid out are taken out again, with the depths of the layout. -/
theorem gather_of_holds (hdetached : ∀ n ∈ bs.labels, n.detached = n)
    (h : p.Holds start (bs.layout owner depth start)) (hfuel : (bs.slots start).height ≤ fuel) :
    gather (p.extractWith (fun _ => some none) fuel) (bs.links start)
      = some (bs.rebased depth) := by
  induction bs generalizing owner start depth fuel with
  | nil => rfl
  | cons flags n below rest ihb ihr =>
    rw [layout, holds_cons_iff, holds_append_iff, length_layout] at h
    obtain ⟨hn, hbelow, hrest⟩ := h
    rw [labels_cons] at hdetached
    rw [slots, Forest.height] at hfuel
    obtain ⟨fuel, rfl⟩ : ∃ k, fuel = k + 1 := ⟨fuel - 1, by omega⟩
    -- the inner branches stand right after their node, the others after these
    have hinner := ihb (fun m hm => hdetached m (by simp [hm])) hbelow
      (by omega : (below.slots (start + 1)).height ≤ fuel)
    have hothers := ihr (fun m hm => hdetached m (by simp [hm])) hrest
      (by omega : (rest.slots (start + 1 + below.size)).height ≤ fuel + 1)
    obtain ⟨m, hm, hmn⟩ := exists_node_of_bare? hn
    have hedges : m.edges = below.links (start + 1) := congrArg Node.edges hmn
    -- what was laid out had no parent and no edges, and takes its depth from the layout
    have hlabel : m.detached = { n with depth := depth + flags.levels } := by
      calc m.detached = m.bare.detached := rfl
        _ = { n.detached with depth := depth + flags.levels } := by rw [hmn]; rfl
        _ = { n with depth := depth + flags.levels } := by rw [hdetached n List.mem_cons_self]
    have htree : p.extractWith (fun _ => some none) (fuel + 1) start
        = some ⟨{ n with depth := depth + flags.levels }, below.rebased (depth + flags.levels)⟩ := by
      rw [extractWith]
      simp only [Option.bind_eq_bind, Option.bind_some, hm, hedges, hinner, hlabel]
      rfl
    rw [links, gather, EdgeFlags.child_to, htree]
    simp only [Option.bind_eq_bind, Option.bind_some, hothers]
    rfl

end Branches

/-! ### What grafts do -/

namespace Pattern

variable {p q source : Pattern} {h target : Handle} {owner : Node} {t : Tree} {bs : Branches}
  {es : List Edge}

/-- The pattern `q` is `p` with the trees as the last children of `target`, which held `owner`, and
nothing else. -/
structure Adopts (p : Pattern) (target : Handle) (owner : Node) (ts : List (EdgeFlags × Tree))
    (q : Pattern) : Prop where
  /-- The name is the same. -/
  name : q.name = p.name
  /-- The root is the same. -/
  root : q.root = p.root
  /-- There is a new slot for each node of the trees. -/
  size_eq : q.size = p.size + (ts.map fun c => c.2.size).sum
  /-- The target leads to the trees, after its children, and is the same otherwise. -/
  grown : q.bare? target = some { owner.bare with edges := owner.edges ++ linksFrom p.size ts }
  /-- The other old slots are the same. -/
  old : ∀ i < p.size, i ≠ target → q.bare? i = p.bare? i
  /-- The trees are found again, with depths that go on from that of the target. -/
  restored : List.Forall₂
    (fun e c => q.extract e.child = some (c.2.rebased (owner.depth + c.1.levels)))
    (linksFrom p.size ts) ts

/-- Branches of nodes without surroundings are found again where they were grafted. -/
theorem adopts_of_graft (hdetached : ∀ n ∈ bs.labels, n.detached = n)
    (howner : p.node? target = some owner) (hq : bs.graft target p = some q) :
    p.Adopts target owner bs.toList q := by
  have hgrafted := Branches.grafted_of_graft hq (bare?_eq_some_of_node? howner)
  have hspans := Branches.spans_of_holds hgrafted.new
  have hgather : gather q.extract (bs.links p.size) = some (bs.rebased owner.depth) :=
    Branches.gather_of_holds hdetached hgrafted.new hspans.height_le_size
  have hfound := gather_eq_some_iff.mp hgather
  rw [Branches.toList_rebased, List.forall₂_map_right_iff] at hfound
  refine ⟨hgrafted.name, hgrafted.root, ?_, ?_, hgrafted.old, ?_⟩
  · rw [hgrafted.size, bs.size_eq_sum]
  · rw [linksFrom_toList]
    exact hgrafted.grown
  · rw [linksFrom_toList]
    exact hfound.imp fun e c hc => hc.2

/-- Grafting trees one after the other is grafting the branches that they make. -/
theorem foldlM_graft {visit : Handle → Option Tree} (hbs : gather visit es = some bs)
    (p : Pattern) : es.foldlM (fun p e => do
      let t ← visit e.child
      return (← t.graft target e.toEdgeFlags p).2) p = bs.graft target p := by
  induction es generalizing bs p with
  | nil =>
    cases hbs
    rfl
  | cons e es ih =>
    obtain ⟨t, ht, hbs⟩ := Option.bind_eq_some_iff.mp hbs
    obtain ⟨rest, hrest, hbs⟩ := Option.bind_eq_some_iff.mp hbs
    cases hbs
    rw [List.foldlM_cons, ht, Branches.graft]
    simp only [Option.bind_eq_bind, Option.bind_some, Tree.graft]
    cases p.addChild target t.label e.toEdgeFlags with
    | none => rfl
    | some added =>
      simp only [Option.bind_some]
      cases t.below.graft added.1 added.2 with
      | none => rfl
      | some q => exact ih hrest q

/-- Copying the branches below a node is grafting them. -/
theorem copyChildren_eq_graft (ht : source.extract h = some t) (p : Pattern) (target : Handle) :
    p.copyChildren target source h = t.below.graft target p := by
  obtain ⟨n, hn, -, hbs⟩ := exists_gather_of_extract ht
  rw [copyChildren, hn]
  exact foldlM_graft hbs p

/-- A tree is grafted as a single branch, and its top node goes into the first new slot. -/
theorem graft_eq_map (t : Tree) (flags : EdgeFlags) (target : Handle) (p : Pattern) :
    t.graft target flags p
      = ((Branches.cons flags t.label t.below .nil).graft target p).map fun q => (p.size, q) := by
  rw [Tree.graft, Branches.graft]
  cases hadd : p.addChild target t.label flags with
  | none => rfl
  | some added =>
    obtain ⟨c, p₁⟩ := added
    obtain ⟨rfl, -⟩ := addChild_eq_some hadd
    simp only [Option.bind_eq_bind, Option.bind_some, Branches.graft_nil]
    cases t.below.graft p.size p₁ <;> rfl

/-- A tree of nodes without surroundings is found again where it was grafted. -/
theorem exists_adopts_of_graft (hdetached : ∀ n ∈ t.labels, n.detached = n)
    (howner : p.node? target = some owner) (flags : EdgeFlags) :
    ∃ q, t.graft target flags p = some (p.size, q) ∧ p.Adopts target owner [(flags, t)] q := by
  let branch : Branches := .cons flags t.label t.below .nil
  have hlabels : branch.labels = t.labels := congrArg (t.label :: ·) (List.append_nil _)
  obtain ⟨q, hq, -⟩ := branch.exists_graft (lt_size_of_node? howner)
  refine ⟨q, ?_, adopts_of_graft (hlabels ▸ hdetached) howner hq⟩
  rw [graft_eq_map, hq, Option.map_some]

/-- The subtree of any node of a finite tree can be taken out: its top node, and the subtrees of the
children along the edges to them.  Grafting it under any node of any pattern, on any edge, answers
the first new slot; the pattern then has the tree there as one more child of the target, each node
of it in a new slot, and nothing else changes.  Copying the branches below the node grafts the
subtrees of its children, in their order, in the same way. -/
theorem Spans.graft_exact {below : Forest} (hf : source.Spans (.cons h below .nil))
    (howner : p.node? target = some owner) :
    ∃ n t, source.node? h = some n ∧ source.extract h = some t ∧ t.label = n.detached ∧
      List.Forall₂ (fun e c => e.toEdgeFlags = c.1 ∧ source.extract e.child = some c.2)
        n.edges t.below.toList ∧
      source.count h = some t.size ∧
      (∀ flags, ∃ q, t.graft target flags p = some (p.size, q) ∧
        p.Adopts target owner [(flags, t)] q) ∧
      ∃ q, p.copyChildren target source h = some q ∧ p.Adopts target owner t.below.toList q := by
  obtain ⟨t, ht⟩ := hf.exists_extract
  obtain ⟨n, hn, hlabel, hbs⟩ := exists_gather_of_extract ht
  have hdetached : ∀ m ∈ t.labels, m.detached = m := by
    intro m hm
    obtain ⟨i, m', -, rfl⟩ := mem_labels_extract ht hm
    rfl
  obtain ⟨q, hq, -⟩ := t.below.exists_graft (lt_size_of_node? howner)
  refine ⟨n, t, hn, ht, hlabel, gather_eq_some_iff.mp hbs, count_of_extract ht,
    exists_adopts_of_graft hdetached howner, q, (copyChildren_eq_graft ht p target).trans hq, ?_⟩
  exact adopts_of_graft (fun m hm => hdetached m (List.mem_cons_of_mem _ hm)) howner hq

/-- The theorem at a book that is grafted into a catalogue, one nested edge down. -/
theorem graft_exact_book : ∃ t q, book.extract 0 = some t ∧ t.size = 2 ∧
    t.graft 0 ⟨true, true, false⟩ catalogue = some (1, q) ∧ q.size = 3 ∧
    q.extract 1 = some (t.rebased 1) ∧
    ∃ r, catalogue.copyChildren 0 book 0 = some r ∧ r.size = 2 := by
  have hbook : book.Spans (.cons 0 (.cons 1 .nil .nil) .nil) := by
    simp only [Spans]
    decide
  have htop : catalogue.node? 0 = some (.make ⟨0⟩ "" "catalogue") := rfl
  obtain ⟨n, t, hn, ht, hlabel, hchildren, hcount, hgraft, r, hr, hadopts⟩ := hbook.graft_exact htop
  have hsize : 2 = t.size := Option.some.inj ((by decide : book.count 0 = some 2).symm.trans hcount)
  obtain ⟨q, hq, hq'⟩ := hgraft ⟨true, true, false⟩
  refine ⟨t, q, ht, hsize.symm, hq, ?_, ?_, r, hr, ?_⟩
  · exact hq'.size_eq.trans (by simp [← hsize, catalogue, singleton, size])
  · exact (List.forall₂_cons.mp hq'.restored).1
  · have hbelow : t.below.size = 1 := by
      rw [Tree.size] at hsize
      omega
    rw [hadopts.size_eq, ← Branches.size_eq_sum, hbelow]
    rfl

end Pattern

end TwigAlgebra
