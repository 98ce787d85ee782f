import TwigAlgebra.Proofs.Correspondence
import TwigAlgebra.Proofs.Drafting

/-!
# What grafts lay out

Grafting fills new slots only, one after the other and in pre-order, and adds edges only at the end of
the target's.  The nodes that it puts there are therefore a list that can be written down in advance:
each with its parent, its depth, and the edges to the slots of its children.  What holds of a graft, and
of a copy, is read off that list.

## Main definitions

* `Branches.links`, `Branches.slots`, `Branches.layout` — the edges, the slots and the nodes of branches
  that are laid out from a slot on.
* `Pattern.Holds` — the slots from one on hold the nodes of a list.
* `Pattern.Grafted` — what a graft changes.

## Main results

* `Branches.grafted_of_graft`, `Tree.grafted_of_graft`, `Tree.holds_of_toPattern` — grafts and copies
  lay their branches out.
* `Branches.spans_of_holds`, `Branches.bears_of_holds` — the slots of a layout are a forest, and bear
  the branches.
-/

namespace TwigAlgebra

/-- The node as it hangs under a parent. -/
def Node.placed (n : Node) (owner : Handle) (depth : UInt32) (edges : List Edge) : Node :=
  { n.detached with parent := some owner, depth, edges }

@[simp] theorem Node.attributes_placed (n : Node) (owner : Handle) (depth : UInt32)
    (edges : List Edge) : (n.placed owner depth edges).attributes = n.attributes := rfl

@[simp] theorem Node.bare_placed (n : Node) (owner : Handle) (depth : UInt32) (edges : List Edge) :
    (n.placed owner depth edges).bare = n.placed owner depth edges := rfl

theorem Node.attributes_eq_of_bare_eq {m n : Node} (h : m.bare = n.bare) :
    m.attributes = n.attributes :=
  (congrArg attributes h : m.bare.attributes = n.bare.attributes)

namespace Branches

/-- The edges to the branches, whose nodes are in the slots from `start` on, in pre-order. -/
def links : Branches → Handle → List Edge
  | nil, _ => []
  | cons flags _ below rest, start => flags.to start :: rest.links (start + 1 + below.size)

/-- The slots of the branches, from `start` on. -/
def slots : Branches → Handle → Forest
  | nil, _ => .nil
  | cons _ _ below rest, start =>
    .cons start (below.slots (start + 1)) (rest.slots (start + 1 + below.size))

/-- The nodes of the branches as they hang under `owner`, which is `depth` nested edges deep, in the
slots from `start` on. -/
def layout : Branches → Handle → UInt32 → Handle → List Node
  | nil, _, _, _ => []
  | cons flags n below rest, owner, depth, start =>
    n.placed owner (depth + flags.levels) (below.links (start + 1)) ::
      (below.layout start (depth + flags.levels) (start + 1)
        ++ rest.layout owner depth (start + 1 + below.size))

variable (bs : Branches) (owner start : Handle) (depth : UInt32)

/-- The layout keeps the attributes of the nodes. -/
@[simp] theorem attributes_layout :
    (bs.layout owner depth start).map Node.attributes = bs.labels.map Node.attributes := by
  induction bs generalizing owner start depth with
  | nil => rfl
  | cons flags n below rest ihb ihr =>
    rw [layout, List.map_cons, List.map_append, ihb, ihr, labels_cons, List.map_cons,
      List.map_append, Node.attributes_placed]

@[simp] theorem length_layout : (bs.layout owner depth start).length = bs.size := by
  induction bs generalizing owner start depth with
  | nil => rfl
  | cons flags n below rest ihb ihr =>
    rw [layout, List.length_cons, List.length_append, ihb, ihr, size_cons]
    omega

@[simp] theorem roots_slots : (bs.slots start).roots = (bs.links start).map (·.child) := by
  induction bs generalizing start with
  | nil => rfl
  | cons flags n below rest ihb ihr => rw [slots, Forest.roots_cons, ihr, links, List.map_cons,
      EdgeFlags.child_to]

/-- The slots are filled in pre-order. -/
@[simp] theorem handles_slots : (bs.slots start).handles = List.range' start bs.size := by
  induction bs generalizing start with
  | nil => rfl
  | cons flags n below rest ihb ihr =>
    rw [slots, Forest.handles_cons, ihb, ihr, size_cons]
    have hsplit : 1 + below.size + rest.size = below.size + rest.size + 1 := by omega
    rw [hsplit, List.range'_succ, List.range'_append_1]

end Branches

/-! ### Slots that hold a list -/

namespace Pattern

/-- The slots from `start` on hold the nodes of the list. -/
def Holds (p : Pattern) (start : Handle) (l : List Node) : Prop :=
  ∀ k n, l[k]? = some n → p.bare? (start + k) = some n

variable {p q : Pattern} {start : Handle} {n : Node} {l l' : List Node}

theorem holds_nil : p.Holds start [] := fun k n h => by simp at h

theorem holds_cons_iff :
    p.Holds start (n :: l) ↔ p.bare? start = some n ∧ p.Holds (start + 1) l := by
  constructor
  · refine fun h => ⟨h 0 n rfl, fun k m hm => ?_⟩
    rw [Nat.add_assoc, Nat.add_comm 1 k]
    exact h (k + 1) m (by rwa [List.getElem?_cons_succ])
  · rintro ⟨hfirst, hrest⟩ k m hm
    cases k with
    | zero =>
      rw [List.getElem?_cons_zero] at hm
      rw [Nat.add_zero, hfirst, hm]
    | succ k =>
      have hk := hrest k m (by rwa [List.getElem?_cons_succ] at hm)
      rwa [Nat.add_assoc, Nat.add_comm 1 k] at hk

theorem holds_append_iff :
    p.Holds start (l ++ l') ↔ p.Holds start l ∧ p.Holds (start + l.length) l' := by
  induction l generalizing start with
  | nil => simp [holds_nil]
  | cons n l ih =>
    rw [List.cons_append, holds_cons_iff, holds_cons_iff, ih, List.length_cons, and_assoc,
      Nat.add_right_comm, Nat.add_assoc]

/-- Only the slots of the list matter. -/
theorem Holds.congr (h : p.Holds start l)
    (hpq : ∀ i, start ≤ i → i < start + l.length → q.bare? i = p.bare? i) : q.Holds start l := by
  intro k n hn
  have hk : k < l.length := (List.getElem?_eq_some_iff.mp hn).1
  rw [hpq _ (Nat.le_add_right _ _) (Nat.add_lt_add_left hk _), h k n hn]

/-- The slots hold the nodes of the list in this order. -/
theorem Holds.filterMap_bare? (h : p.Holds start l) :
    (List.range' start l.length).filterMap p.bare? = l := by
  induction l generalizing start with
  | nil => rfl
  | cons n l ih =>
    obtain ⟨hn, hl⟩ := holds_cons_iff.mp h
    rw [List.length_cons, List.range'_succ, List.filterMap_cons_some hn, ih hl]

end Pattern

namespace Branches

open Pattern

variable {p q : Pattern} {owner start : Handle} {depth : UInt32}

/-- The slots of a layout are a forest. -/
theorem spans_of_holds {bs : Branches} (h : p.Holds start (bs.layout owner depth start)) :
    p.Spans (bs.slots start) := by
  induction bs generalizing owner start depth with
  | nil => trivial
  | cons flags n below rest ihb ihr =>
    rw [layout, holds_cons_iff, holds_append_iff, length_layout] at h
    obtain ⟨hn, hbelow, hrest⟩ := h
    refine ⟨?_, ihb hbelow, ihr hrest⟩
    rw [children?_eq_bare?, hn, roots_slots]
    rfl

/-- The slots of a layout bear the branches. -/
theorem bears_of_holds {bs : Branches} (h : p.Holds start (bs.layout owner depth start)) :
    p.Bears Node.SameAttributes (bs.links start) bs := by
  induction bs generalizing owner start depth with
  | nil => trivial
  | cons flags n below rest ihb ihr =>
    rw [layout, holds_cons_iff, holds_append_iff, length_layout] at h
    obtain ⟨hn, hbelow, hrest⟩ := h
    obtain ⟨m, hm, hmn⟩ := exists_node_of_bare? hn
    have hattributes := Node.attributes_eq_of_bare_eq (hmn.trans (Node.bare_placed ..).symm)
    refine ⟨rfl, ⟨m, hm, hattributes, ?_⟩, ihr hrest⟩
    have hedges : m.edges = below.links (start + 1) :=
      Node.edges_eq_of_bare_eq (hmn.trans (Node.bare_placed ..).symm)
    rw [hedges]
    exact ihb hbelow

/-- The nodes of a layout are those of the branches. -/
theorem nodesOn_of_holds {bs : Branches} (h : p.Holds start (bs.layout owner depth start)) :
    (p.nodesOn (bs.slots start)).map Node.attributes = bs.labels.map Node.attributes := by
  have hbare := h.filterMap_bare?
  rw [length_layout, ← handles_slots] at hbare
  rw [← attributes_layout bs owner start depth, ← hbare, nodesOn, List.map_filterMap,
    List.map_filterMap]
  refine List.filterMap_congr fun i _ => ?_
  rw [bare?, Option.map_map]
  rfl

end Branches

/-! ### Grafts -/

namespace Pattern

/-- The pattern `q` is `p` with the branches laid out in new slots, under `target`, which held
`owner`. -/
structure Grafted (p : Pattern) (target : Handle) (owner : Node) (bs : Branches) (q : Pattern) :
    Prop where
  /-- The name is the same. -/
  name : q.name = p.name
  /-- The root is the same. -/
  root : q.root = p.root
  /-- There is a new slot for each node of the branches. -/
  size : q.size = p.size + bs.size
  /-- The target leads to the branches, after its children. -/
  grown : q.bare? target = some { owner with edges := owner.edges ++ bs.links p.size }
  /-- The other old slots are the same. -/
  old : ∀ i < p.size, i ≠ target → q.bare? i = p.bare? i
  /-- The new slots hold the branches. -/
  new : q.Holds p.size (bs.layout target owner.depth p.size)

variable {p q : Pattern} {h c : Handle} {n owner : Node} {flags : EdgeFlags}

/-- Where no edge starts, only the depth of one node is recorded. -/
theorem update_of_setDepth {fuel : Nat} {d : UInt32} (hq : setDepth fuel h d p = some q)
    (hn : p.bare? h = some n) (hedges : n.edges = []) :
    p.update h (fun n => { n with depth := d }) = some q := by
  cases fuel with
  | zero => cases hq
  | succ fuel =>
    obtain ⟨m, hm, hmn⟩ := exists_node_of_bare? hn
    have hleaf : m.edges = [] := (congrArg Node.edges hmn).trans hedges
    rw [setDepth, hm] at hq
    simp only [Option.bind_eq_bind, Option.bind_some, hleaf, List.foldlM_nil] at hq
    obtain ⟨q', hq', hlast⟩ := Option.bind_eq_some_iff.mp hq
    cases hlast
    exact hq'

theorem bare?_addNode (p : Pattern) (n : Node) (i : Handle) :
    (p.addNode n).2.bare? i = if i = p.size then some n.detached else p.bare? i := by
  rw [bare?, node?_addNode]
  split <;> rfl

/-- What the slots hold after a new child: its own, its parent's, and the others. -/
theorem bare?_addChild (hq : p.addChild h n flags = some (c, q)) (hh : p.bare? h = some owner)
    (i : Handle) :
    q.bare? i = if i = p.size then some (n.placed h (owner.depth + flags.levels) [])
      else if i = h then some { owner with edges := owner.edges ++ [flags.to p.size] }
      else p.bare? i := by
  obtain ⟨rfl, hedge⟩ := addChild_eq_some hq
  have hne : h ≠ p.size := Nat.ne_of_lt (lt_size_of_bare? hh)
  obtain ⟨p₁, m, -, -, hm, hmaps, hdepth⟩ := addEdge_eq_some hedge
  -- after the edge is added and before depths are recorded
  have hbare₁ : ∀ i, p₁.bare? i = ((p.addNode n).2.bare? i).map fun n => { n with
      edges := if h = i then n.edges ++ [flags.to p.size] else n.edges
      parent := if p.size = i then some h else n.parent } := by
    intro i
    rw [bare?, bare?, hmaps.nodes, Option.map_map, Option.map_map]
    rfl
  have howner : p₁.bare? h = some { owner with edges := owner.edges ++ [flags.to p.size] } := by
    rw [hbare₁, bare?_addNode, if_neg hne, hh, Option.map_some, if_pos rfl, if_neg hne.symm]
  have hnew : p₁.bare? p.size = some (n.placed h n.depth []) := by
    rw [hbare₁, bare?_addNode, if_pos rfl, Option.map_some, if_pos rfl, if_neg hne]
    rfl
  -- the owner keeps the depth that it had
  have hm' : m.depth = owner.depth := by
    have hbare := (bare?_eq_some_of_node? hm).symm.trans howner
    exact congrArg (fun o => (o.map Node.depth).getD 0) hbare
  rw [hm'] at hdepth
  rw [bare?_update (update_of_setDepth hdepth hnew rfl) fun _ => rfl]
  by_cases hi : i = p.size
  · subst i
    rw [if_pos rfl, if_pos rfl, hnew]
    rfl
  · rw [if_neg (Ne.symm hi), if_neg hi]
    by_cases hi' : i = h
    · subst i
      rw [if_pos rfl, howner]
    · rw [if_neg hi', hbare₁, bare?_addNode, if_neg hi]
      simp only [if_neg (Ne.symm hi'), if_neg (Ne.symm hi)]
      exact Option.map_id'

/-- Nothing is remembered after a new child. -/
theorem forget_addChild (hq : p.addChild h n flags = some (c, q)) : q.forget = q := by
  obtain ⟨-, hedge⟩ := addChild_eq_some hq
  obtain ⟨-, -, d, hmaps⟩ := exists_maps_addEdge hedge
  refine eq_of_node? rfl rfl fun i => ?_
  rw [node?_forget, hmaps.nodes, Option.map_map]
  rfl

/-- A new child is laid out in a new slot. -/
theorem grafted_of_addChild (hq : p.addChild h n flags = some (c, q)) (hh : p.bare? h = some owner) :
    Grafted p h owner (.cons flags n .nil .nil) q := by
  have hlt : h < p.size := lt_size_of_bare? hh
  have hbare := bare?_addChild hq hh
  obtain ⟨rfl, hedge⟩ := addChild_eq_some hq
  obtain ⟨-, -, d, hmaps⟩ := exists_maps_addEdge hedge
  refine ⟨hmaps.name, hmaps.root, ?_, ?_, fun i hi hne => ?_, holds_cons_iff.mpr ⟨?_, holds_nil⟩⟩
  · rw [hmaps.size_eq, size_addNode]
    rfl
  · rw [hbare, if_neg (Nat.ne_of_lt hlt), if_pos rfl]
    rfl
  · rw [hbare, if_neg (Nat.ne_of_lt hi), if_neg hne]
  · rw [hbare, if_pos rfl]
    rfl

end Pattern

namespace Branches

open Pattern

variable {p q : Pattern} {target : Handle} {owner : Node}

/-- Grafts lay their branches out. -/
theorem grafted_of_graft {bs : Branches} (hq : bs.graft target p = some q)
    (ht : p.bare? target = some owner) : Grafted p target owner bs q := by
  induction bs generalizing p q target owner with
  | nil =>
    cases hq
    refine ⟨rfl, rfl, rfl, ?_, fun _ _ _ => rfl, holds_nil⟩
    rw [ht, links, List.append_nil]
  | cons flags n below rest ihb ihr =>
    obtain ⟨⟨c, p₁⟩, hp₁, hq⟩ := Option.bind_eq_some_iff.mp hq
    have htarget : target < p.size := lt_size_of_bare? ht
    have h₁ := grafted_of_addChild hp₁ ht
    obtain rfl : c = p.size := (addChild_eq_some hp₁).1
    obtain ⟨p₂, hp₂, hrest⟩ := Option.bind_eq_some_iff.mp hq
    have hsize₁ : p₁.size = p.size + 1 := h₁.size
    -- the branches below go under the new slot, and the others under the target again
    have h₂ := ihb hp₂ (holds_cons_iff.mp h₁.new).1
    have hsize₂ : p₂.size = p.size + 1 + below.size := hsize₁ ▸ h₂.size
    have hle₁ : p.size ≤ p₁.size := by omega
    have hle₂ : p₁.size ≤ p₂.size := by omega
    have ht₂ : p₂.bare? target = some { owner with edges := owner.edges ++ [flags.to p.size] } := by
      rw [h₂.old target (htarget.trans_le hle₁) (Nat.ne_of_lt htarget)]
      exact h₁.grown
    have h₃ := ihr hrest ht₂
    -- the three layouts one after the other; each leaves the slots before it as they are
    refine ⟨?_, ?_, ?_, ?_, fun i hi hne => ?_, ?_⟩
    · rw [h₃.name, h₂.name, h₁.name]
    · rw [h₃.root, h₂.root, h₁.root]
    · rw [h₃.size, hsize₂, size_cons]
      omega
    · rw [h₃.grown, hsize₂, links, List.append_assoc, List.singleton_append]
    · rw [h₃.old i (by omega) hne, h₂.old i (by omega) (Nat.ne_of_lt hi), h₁.old i hi hne]
    · rw [layout, holds_cons_iff, holds_append_iff, length_layout]
      refine ⟨?_, ?_, ?_⟩
      · -- the node of the branch
        rw [h₃.old p.size (by omega) (Nat.ne_of_gt htarget), h₂.grown, hsize₁]
        rfl
      · -- what is below it, which the later branches do not touch
        have hbelow := h₂.new
        rw [hsize₁] at hbelow
        refine hbelow.congr fun i hi hlt => h₃.old i ?_ (Nat.ne_of_gt (htarget.trans hi))
        rwa [length_layout, ← hsize₂] at hlt
      · -- the later branches
        have hlast := h₃.new
        rwa [hsize₂] at hlast

end Branches

namespace Tree

open Pattern

variable {p q : Pattern} {target c : Handle} {owner : Node} {t : Tree} {flags : EdgeFlags}
  {name : String}

/-- A tree is grafted as a single branch, and its top node goes into the first new slot. -/
theorem grafted_of_graft (hq : t.graft target flags p = some (c, q))
    (ht : p.bare? target = some owner) :
    c = p.size ∧ Grafted p target owner (.cons flags t.label t.below .nil) q := by
  obtain ⟨⟨i, p₁⟩, hp₁, hq⟩ := Option.bind_eq_some_iff.mp hq
  obtain ⟨p₂, hp₂, hq⟩ := Option.bind_eq_some_iff.mp hq
  cases hq
  obtain ⟨hc, -⟩ := addChild_eq_some hp₁
  refine ⟨hc, Branches.grafted_of_graft ?_ ht⟩
  rw [Branches.graft, hp₁]
  simp only [Option.bind_eq_bind, Option.bind_some, hp₂, Branches.graft_nil]

/-- Nothing is remembered after a graft. -/
theorem forget_graft (hq : t.graft target flags p = some (c, q)) : q.forget = q := by
  obtain ⟨⟨i, p₁⟩, hp₁, hq⟩ := Option.bind_eq_some_iff.mp hq
  obtain ⟨p₂, hp₂, hq⟩ := Option.bind_eq_some_iff.mp hq
  cases hq
  exact Branches.graft_invariant (I := fun r => r.forget = r)
    (fun _ _ _ _ _ _ _ hr _ => forget_addChild hr) hp₂ (forget_addChild hp₁)

/-- A copy is the top node with the branches laid out behind it. -/
theorem holds_of_toPattern (hq : t.toPattern name = some q) :
    q.name = name ∧ q.root = 0 ∧ q.size = t.size ∧
      q.Holds 0 ({ t.label.detached with edges := t.below.links 1 } ::
        t.below.layout 0 t.label.depth 1) := by
  have hroot : (singleton name t.label).bare? 0 = some t.label.detached := by
    rw [bare?, node?_singleton, if_pos rfl]
    rfl
  have h := Branches.grafted_of_graft hq hroot
  exact ⟨h.name, h.root, h.size, holds_cons_iff.mpr ⟨h.grown, h.new⟩⟩

/-- A copy bears the tree. -/
theorem bearsTree_of_toPattern (hq : t.toPattern name = some q) :
    q.BearsTree Node.SameAttributes q.root t := by
  obtain ⟨-, hroot, -, hholds⟩ := holds_of_toPattern hq
  obtain ⟨htop, hbelow⟩ := holds_cons_iff.mp hholds
  obtain ⟨n, hn, hnbare⟩ := exists_node_of_bare? htop
  have hattributes : n.attributes = t.label.attributes :=
    (congrArg Node.attributes hnbare : n.bare.attributes = _)
  have hedges : n.edges = t.below.links 1 := congrArg Node.edges hnbare
  refine ⟨n, hroot ▸ hn, hattributes, ?_⟩
  rw [hedges]
  exact Branches.bears_of_holds hbelow

/-- The slots of a copy are those of its tree. -/
theorem spans_of_toPattern (hq : t.toPattern name = some q) :
    q.Spans (.cons q.root (t.below.slots 1) .nil) := by
  obtain ⟨-, hroot, -, hholds⟩ := holds_of_toPattern hq
  obtain ⟨htop, hbelow⟩ := holds_cons_iff.mp hholds
  refine ⟨?_, Branches.spans_of_holds hbelow, trivial⟩
  rw [hroot, children?_eq_bare?, htop, Branches.roots_slots]
  rfl

theorem count_of_toPattern (hq : t.toPattern name = some q) : q.count q.root = some t.size := by
  rw [(spans_of_toPattern hq).count_eq, Branches.handles_slots, List.length_range', size, Nat.add_comm]

end Tree

end TwigAlgebra
