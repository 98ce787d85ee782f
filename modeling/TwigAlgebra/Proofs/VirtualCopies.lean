import TwigAlgebra.Proofs.Layout
import TwigAlgebra.Proofs.Sprouting

/-!
# Virtual copies

A virtual copy stands for a subtree as it is reached inside stored content.  It hangs under its target
like the subtree under its parent, has the same shape and the same attributes, but new codes, and it
neither stores identifiers nor binds variables.  The source may be the pattern that grows, and the
target may lie in the subtree: the subtree is taken out before anything changes.

## Main definitions

* `Node.IsVirtualCopy` — a node as it is reached inside stored content.
* `Pattern.CopiedVirtually` — what a virtual copy changes.

## Main results

* `Tree.matches_asVirtual` — the shape and the attributes of a virtual copy.
* `Pattern.Spans.copyVirtual_exact` — a virtual copy of a finite subtree is made or refused, and what it
  changes.
-/

namespace TwigAlgebra

open Pattern

/-- The node `m` has the attributes of `n`, but it is virtual, has a code of its own, and neither stores
an identifier nor binds variables. -/
def Node.IsVirtualCopy (n m : Node) : Prop :=
  m.attributes = { n.attributes with
    code := m.code, isVirtual := true, stores := { n.stores with id := false }, vars := [] }

theorem Node.isVirtualCopy_asVirtual (n : Node) (code : Code) : n.IsVirtualCopy (n.asVirtual code) :=
  rfl

/-! ### Branches as seen inside stored content -/

namespace Branches

theorem matches_asVirtual (bs : Branches) (c : Counters) :
    bs.Matches Node.IsVirtualCopy (bs.asVirtual c).1 := by
  induction bs generalizing c with
  | nil => trivial
  | cons flags n below rest ihb ihr => exact ⟨rfl, n.isVirtualCopy_asVirtual _, ihb _, ihr _⟩

/-- Only codes are taken. -/
theorem counters_asVirtual (bs : Branches) (c : Counters) :
    (bs.asVirtual c).2.var = c.var ∧ (bs.asVirtual c).2.scan = c.scan := by
  induction bs generalizing c with
  | nil => exact ⟨rfl, rfl⟩
  | cons flags n below rest ihb ihr =>
    obtain ⟨hvar, hscan⟩ := ihr c
    obtain ⟨hvar', hscan'⟩ := ihb (rest.asVirtual c).2.freshCode.2
    exact ⟨hvar'.trans hvar, hscan'.trans hscan⟩

end Branches

namespace Tree

/-- A virtual copy has the shape of the tree, and the attributes that it keeps. -/
theorem matches_asVirtual (t : Tree) (c : Counters) :
    t.Matches Node.IsVirtualCopy (t.asVirtual c).1 :=
  ⟨t.label.isVirtualCopy_asVirtual _, t.below.matches_asVirtual _⟩

theorem counters_asVirtual (t : Tree) (c : Counters) :
    (t.asVirtual c).2.var = c.var ∧ (t.asVirtual c).2.scan = c.scan :=
  t.below.counters_asVirtual c.freshCode.2

theorem size_asVirtual (t : Tree) (c : Counters) : (t.asVirtual c).1.size = t.size :=
  congrArg (1 + ·) (t.below.size_asVirtual c.freshCode.2)

end Tree

/-- Nodes that are numbered without gaps have each code of the range once. -/
theorem Numbered.perm_range' {first : Nat} {ns : List Node}
    (h : Numbered first (first + ns.length) ns) :
    (ns.map (·.code.val.toNat)).Perm (List.range' first ns.length) := by
  have hinj : Function.Injective fun code : Code => code.val.toNat := fun a b hab =>
    congrArg Code.mk (UInt32.toNat_inj.mp hab)
  have hnodup : (ns.map (·.code.val.toNat)).Nodup := by
    have hmap := h.nodup.map hinj
    rwa [List.map_map] at hmap
  have hsub : ns.map (·.code.val.toNat) ⊆ List.range' first ns.length := by
    intro k hk
    obtain ⟨n, hn, rfl⟩ := List.mem_map.mp hk
    exact List.mem_range'_1.mpr (h.within n hn)
  refine (hnodup.subperm hsub).perm_of_length_le ?_
  rw [List.length_range', List.length_map]

/-! ### What a virtual copy changes -/

namespace Pattern

/-- The pattern `q` is `p` with a virtual copy of the subtree of `h` in `source`, of `size` nodes with
codes from `first` on, on an edge from `target` with the given flags. -/
structure CopiedVirtually (p : Pattern) (target : Handle) (source : Pattern) (h : Handle)
    (flags : EdgeFlags) (first size : Nat) (q : Pattern) : Prop where
  /-- The name is the same. -/
  name : q.name = p.name
  /-- The root is the same. -/
  root : q.root = p.root
  /-- There is a new slot for each node of the subtree. -/
  size_eq : q.size = p.size + size
  /-- The target leads to the copy, after its children. -/
  grown : ∀ owner, p.bare? target = some owner →
    q.bare? target = some { owner with edges := owner.edges ++ [flags.to p.size] }
  /-- The other old slots are the same. -/
  old : ∀ i < p.size, i ≠ target → q.bare? i = p.bare? i
  /-- Nothing is remembered. -/
  forgotten : q.forget = q
  /-- The copy links back to the target. -/
  linked : q.parent? p.size = some target
  /-- The copy corresponds to the subtree. -/
  copied : source.Corresponds Node.IsVirtualCopy q h p.size
  /-- The copy consists of the new slots, and each code is used once. -/
  numbered : ∃ below, q.Spans (.cons p.size below .nil) ∧
    (Forest.cons p.size below .nil).handles = List.range' p.size size ∧
    ((q.nodesOn (.cons p.size below .nil)).map (·.code.val.toNat)).Perm (List.range' first size)

variable {p q source : Pattern} {target h : Handle} {below : Forest} {t : Tree}

/-- Grafting a tree that was taken out and seen inside stored content is a virtual copy. -/
theorem copiedVirtually_of_graft {i : Handle} {flags : EdgeFlags} {c : Counters}
    (ht : source.extract h = some t) (hc : c.code.val.toNat + t.size < 2 ^ 32)
    (hq : (t.asVirtual c).1.graft target flags p = some (i, q)) (htarget : target < p.size) :
    i = p.size ∧ p.CopiedVirtually target source h flags c.code.val.toNat t.size q := by
  obtain ⟨n, hn⟩ := exists_node_of_lt_size htarget
  obtain ⟨rfl, hgrafted⟩ := Tree.grafted_of_graft hq (bare?_eq_some_of_node? hn)
  obtain ⟨-, hnumbered⟩ := t.numbered_asVirtual hc
  have hsize : 1 + (t.asVirtual c).1.below.size = t.size := t.size_asVirtual c
  have htop := (holds_cons_iff.mp hgrafted.new).1
  have hspans := Branches.spans_of_holds hgrafted.new
  have hbears : q.BearsTree Node.SameAttributes p.size (t.asVirtual c).1 :=
    (Branches.bears_of_holds hgrafted.new).2.1
  have hnodes := Branches.nodesOn_of_holds hgrafted.new
  refine ⟨rfl, hgrafted.name, hgrafted.root, ?_, fun owner howner => ?_, hgrafted.old,
    Tree.forget_graft hq, ?_, ?_, _, hspans, ?_, ?_⟩
  · -- one new slot for each node
    rw [hgrafted.size, Branches.size_cons, Branches.size_nil, hsize]
    rfl
  · cases howner.symm.trans (bare?_eq_some_of_node? hn)
    exact hgrafted.grown
  · obtain ⟨m, hm, hmbare⟩ := exists_node_of_bare? htop
    rw [parent?, hm]
    exact congrArg Node.parent hmbare
  · -- the relation looks at attributes only, which taking out and laying out keep
    refine ((bearsTree_of_extract ht).corresponds_iff hbears ?_).mpr (t.matches_asVirtual c)
    rintro n _ m l rfl hml
    have hcode : m.code = l.code := (congrArg Node.code hml : m.attributes.code = l.attributes.code)
    unfold Node.IsVirtualCopy
    rw [hml, hcode, Node.attributes_detached]
    rfl
  · -- the copy fills the new slots in pre-order
    have hhandles := Branches.handles_slots (.cons flags (t.asVirtual c).1.label
      (t.asVirtual c).1.below .nil) p.size
    rwa [Branches.size_cons, Branches.size_nil, hsize, Nat.add_zero] at hhandles
  · -- the codes are numbered, though not in pre-order
    have hcodes := congrArg (List.map (·.code.val.toNat)) hnodes
    rw [List.map_map, List.map_map] at hcodes
    refine (List.Perm.of_eq hcodes).trans ?_
    rw [Branches.labels_cons, Branches.labels_nil, List.append_nil]
    have hlength : (t.asVirtual c).1.labels.length = t.size := by
      rw [Tree.length_labels, Tree.size_asVirtual]
    rw [← hlength] at hnumbered ⊢
    exact hnumbered.perm_range'

/-- A virtual copy of a finite subtree is refused if no edge leads to the subtree, and then neither
the pattern nor the counters change.  Otherwise it goes into the first new slots, along an edge like
that one, and takes as many codes as the subtree has nodes. -/
theorem Spans.copyVirtual_exact (hf : source.Spans (.cons h below .nil)) (htarget : target < p.size)
    (c : Counters) :
    (source.incomingEdge h = some none → ∃ n, source.node? h = some n ∧
      p.copyVirtual target source h c
        = some (.error (.malformed n.code .noIncomingEdge), p, c) ∧
      (Change.copyVirtual target (some source) h).run p c = some (p, c)) ∧
    ∀ e, source.incomingEdge h = some (some e) →
      c.code.val.toNat + (h :: below.handles).length < 2 ^ 32 →
      ∃ q c', p.copyVirtual target source h c = some (.ok p.size, q, c') ∧
        p.CopiedVirtually target source h e.toEdgeFlags c.code.val.toNat
          (h :: below.handles).length q ∧
        c'.code.val.toNat = c.code.val.toNat + (h :: below.handles).length ∧
        c'.var = c.var ∧ c'.scan = c.scan := by
  obtain ⟨t, ht⟩ := hf.exists_extract
  have hsize : t.size = (h :: below.handles).length := hf.size_of_extract ht
  refine ⟨fun hnone => ?_, fun e he hc => ?_⟩
  · obtain ⟨n, hn⟩ := hf.exists_node List.mem_cons_self
    have hrefused : p.copyVirtual target source h c
        = some (.error (.malformed n.code .noIncomingEdge), p, c) :=
      copyVirtual_eq_refused hnone hn c
    refine ⟨n, hn, hrefused, ?_⟩
    rw [Change.run, Option.getD_some, hrefused]
    rfl
  · rw [← hsize] at hc ⊢
    obtain ⟨i, q, hq, -⟩ := (t.asVirtual c).1.exists_graft htarget e.toEdgeFlags
    obtain ⟨rfl, hcopied⟩ := copiedVirtually_of_graft ht hc hq htarget
    exact ⟨q, (t.asVirtual c).2, copyVirtual_eq_grafted he ht hq, hcopied,
      (t.numbered_asVirtual hc).1, t.counters_asVirtual c⟩

/-- Shelves with nested books and, optionally, the titles of these. -/
def shelves : Pattern where
  name := "shelves"
  nodes := #[{ Node.make ⟨0⟩ "" "shelf" with edges := [⟨⟨false, true, false⟩, 1⟩] },
    { Node.make ⟨1⟩ "" "book" with parent := some 0, edges := [⟨⟨true, false, true⟩, 2⟩] },
    { Node.make ⟨2⟩ "" "title" with
      parent := some 1, stores := ⟨true, false, true, false⟩,
      vars := [⟨⟨0⟩, "t", .value, some ⟨2⟩⟩] }]
  root := 0

/-- The theorem at the books of the shelves, which are copied below their own title, and at the
shelves themselves, to which no edge leads. -/
theorem copyVirtual_exact_shelves :
    ∃ q c', shelves.copyVirtual 2 shelves 1 (.startingAt ⟨3⟩) = some (.ok 3, q, c') ∧
      shelves.CopiedVirtually 2 shelves 1 ⟨false, true, false⟩ 3 2 q ∧ c'.code.val.toNat = 5 ∧
      shelves.copyVirtual 2 shelves 0 (.startingAt ⟨3⟩)
        = some (.error (.malformed ⟨0⟩ .noIncomingEdge), shelves, .startingAt ⟨3⟩) ∧
      (Change.copyVirtual 2 (some shelves) 0).run shelves (.startingAt ⟨3⟩)
        = some (shelves, .startingAt ⟨3⟩) := by
  have htop : shelves.Spans (.cons 0 (.cons 1 (.cons 2 .nil .nil) .nil) .nil) := by
    simp only [Spans]
    decide
  have hbooks : shelves.Spans (.cons 1 (.cons 2 .nil .nil) .nil) := htop.2.1
  have htarget : 2 < shelves.size := by decide
  obtain ⟨q, c', hq, hcopied, hcode, -⟩ :=
    (hbooks.copyVirtual_exact htarget (.startingAt ⟨3⟩)).2 ⟨⟨false, true, false⟩, 1⟩ (by decide)
      (by decide)
  obtain ⟨n, hn, hrefused, hsame⟩ :=
    (htop.copyVirtual_exact htarget (.startingAt ⟨3⟩)).1 (by decide)
  cases hn
  exact ⟨q, c', hq, hcopied, hcode, hrefused, hsame⟩

end Pattern

end TwigAlgebra
