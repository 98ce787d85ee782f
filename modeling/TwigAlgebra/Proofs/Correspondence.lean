import Mathlib.Data.List.Forall2
import TwigAlgebra.Proofs.Copies

/-!
# Subtrees that correspond

Two subtrees correspond if they have the same shape, in child order, the same flags on their edges,
and related nodes.  The slots do not matter for that, so that a subtree can be compared with a copy of
it elsewhere.  An owned tree stands between the two: it matches what was taken out of the one arena,
and the other arena bears it.

## Main definitions

* `Node.attributes`, `Node.SameAttributes` — a node apart from where it hangs.
* `Branches.Matches`, `Tree.Matches` — owned subtrees of the same shape.
* `Pattern.Bears`, `Pattern.BearsTree` — edges, and a slot, of an arena lead to what is owned.
* `Pattern.Corresponds` — subtrees of two arenas of the same shape.

## Main results

* `Pattern.bearsTree_of_extract` — an arena bears what is taken out of it.
* `Pattern.BearsTree.corresponds_iff` — subtrees correspond if the trees that they bear match.
-/

namespace TwigAlgebra

/-- The node apart from where it hangs and what it remembers: without parent, edges and depth. -/
def Node.attributes (n : Node) : Node := { n.detached with depth := 0 }

@[simp] theorem Node.attributes_detached (n : Node) : n.detached.attributes = n.attributes := rfl

/-- Two nodes are the same apart from where they hang. -/
def Node.SameAttributes (n m : Node) : Prop := n.attributes = m.attributes

/-- Branches of the same shape with the same flags on their edges, whose nodes are related. -/
def Branches.Matches (R : Node → Node → Prop) : Branches → Branches → Prop
  | .nil, .nil => True
  | .cons flags n below rest, .cons flags' n' below' rest' =>
    flags = flags' ∧ R n n' ∧ below.Matches R below' ∧ rest.Matches R rest'
  | _, _ => False

theorem Branches.Matches.refl {R : Node → Node → Prop} (hR : ∀ n, R n n) (bs : Branches) :
    bs.Matches R bs := by
  induction bs with
  | nil => trivial
  | cons flags n below rest ihb ihr => exact ⟨rfl, hR n, ihb, ihr⟩

/-- Trees of the same shape with the same flags on their edges, whose nodes are related. -/
def Tree.Matches (R : Node → Node → Prop) (t u : Tree) : Prop :=
  R t.label u.label ∧ t.below.Matches R u.below

namespace Pattern

/-- The edges lead to nodes, and these lead on, as the branches say; what the arena holds is related to
what the branches hold. -/
def Bears (p : Pattern) (R : Node → Node → Prop) : List Edge → Branches → Prop
  | [], .nil => True
  | e :: es, .cons flags n below rest =>
    e.toEdgeFlags = flags ∧ (∃ m, p.node? e.child = some m ∧ R m n ∧ p.Bears R m.edges below) ∧
      p.Bears R es rest
  | _, _ => False

/-- The slot holds the top node of the tree, and its edges lead to the branches. -/
def BearsTree (p : Pattern) (R : Node → Node → Prop) (h : Handle) (t : Tree) : Prop :=
  ∃ n, p.node? h = some n ∧ R n t.label ∧ p.Bears R n.edges t.below

/-- The subtree of `i` in `p` and the subtree of `j` in `q` have the same shape, edges that correspond
have the same flags, and nodes that correspond are related. -/
inductive Corresponds (p : Pattern) (R : Node → Node → Prop) (q : Pattern) : Handle → Handle → Prop
  /-- The nodes are related, and their children correspond one by one. -/
  | node {i j : Handle} {n m : Node} (hn : p.node? i = some n) (hm : q.node? j = some m) (hR : R n m)
      (hflags : n.edges.map Edge.toEdgeFlags = m.edges.map Edge.toEdgeFlags)
      (hchildren : List.Forall₂ (Corresponds p R q) n.children m.children) : Corresponds p R q i j

variable {p q : Pattern} {R : Node → Node → Prop} {es es' : List Edge} {bs bs' : Branches}
  {h i j : Handle} {fuel : Nat}

theorem corresponds_iff {n m : Node} (hn : p.node? i = some n) (hm : q.node? j = some m) :
    p.Corresponds R q i j ↔ R n m ∧ n.edges.map Edge.toEdgeFlags = m.edges.map Edge.toEdgeFlags ∧
      List.Forall₂ (p.Corresponds R q) n.children m.children := by
  constructor
  · rintro ⟨hn', hm', hR, hflags, hchildren⟩
    cases hn.symm.trans hn'
    cases hm.symm.trans hm'
    exact ⟨hR, hflags, hchildren⟩
  · rintro ⟨hR, hflags, hchildren⟩
    exact .node hn hm hR hflags hchildren

/-! ### Taking out and bearing -/

theorem bears_of_gather {visit : Handle → Option Tree}
    (hvisit : ∀ h t, visit h = some t → p.BearsTree R h t) (hbs : gather visit es = some bs) :
    p.Bears R es bs := by
  induction es generalizing bs with
  | nil =>
    cases hbs
    trivial
  | cons e es ih =>
    obtain ⟨t, ht, hbs⟩ := Option.bind_eq_some_iff.mp hbs
    obtain ⟨rest, hrest, hbs⟩ := Option.bind_eq_some_iff.mp hbs
    cases hbs
    exact ⟨rfl, hvisit e.child t ht, ih hrest⟩

/-- An arena bears what is taken out of it. -/
theorem bearsTree_of_extract {t : Tree} (ht : p.extract h = some t) :
    p.BearsTree (fun n k => k = n.detached) h t := by
  rw [extract] at ht
  generalize p.size = fuel at ht
  induction fuel generalizing h t with
  | zero => cases ht
  | succ fuel ih =>
    rw [extractWith] at ht
    simp only [Option.bind_eq_bind, Option.bind_some] at ht
    obtain ⟨n, hn, ht⟩ := Option.bind_eq_some_iff.mp ht
    obtain ⟨bs, hbs, ht⟩ := Option.bind_eq_some_iff.mp ht
    cases ht
    exact ⟨n, hn, rfl, bears_of_gather (fun _ _ => ih) hbs⟩

/-- What edges lead to corresponds if, and only if, the branches that they bear match. -/
theorem Bears.corresponds_iff {R₁ R₂ S : Node → Node → Prop} (hp : p.Bears R₁ es bs)
    (hq : q.Bears R₂ es' bs')
    (hR : ∀ n k m l, R₁ n k → R₂ m l → (S n m ↔ R k l)) :
    es.map Edge.toEdgeFlags = es'.map Edge.toEdgeFlags ∧
        List.Forall₂ (p.Corresponds S q) (es.map (·.child)) (es'.map (·.child)) ↔
      bs.Matches R bs' := by
  induction bs generalizing es es' bs' with
  | nil =>
    cases es <;> cases es' <;> cases bs' <;> simp_all [Bears, Branches.Matches]
  | cons flags k below rest ihb ihr =>
    cases es with
    | nil => exact hp.elim
    | cons e es =>
    cases bs' with
    | nil =>
      cases es' with
      | nil => simp [Branches.Matches]
      | cons e' es' => exact hq.elim
    | cons flags' l below' rest' =>
    cases es' with
    | nil => exact hq.elim
    | cons e' es' =>
    -- first the top nodes, then what is below them, then the other trees
    obtain ⟨rfl, ⟨n, hn, hnk, hbelow⟩, hrest⟩ := hp
    obtain ⟨rfl, ⟨m, hm, hml, hbelow'⟩, hrest'⟩ := hq
    have hchildren := ihb hbelow hbelow'
    simp only [List.map_cons, List.cons.injEq, List.forall₂_cons, Branches.Matches,
      Pattern.corresponds_iff hn hm, hR n k m l hnk hml, ← ihr hrest hrest', ← hchildren, Node.children]
    tauto

/-- Subtrees correspond if, and only if, the trees that they bear match. -/
theorem BearsTree.corresponds_iff {R₁ R₂ S : Node → Node → Prop} {t u : Tree}
    (hp : p.BearsTree R₁ i t) (hq : q.BearsTree R₂ j u)
    (hR : ∀ n k m l, R₁ n k → R₂ m l → (S n m ↔ R k l)) :
    p.Corresponds S q i j ↔ t.Matches R u := by
  obtain ⟨n, hn, hnt, hbelow⟩ := hp
  obtain ⟨m, hm, hmu, hbelow'⟩ := hq
  rw [Pattern.corresponds_iff hn hm, hR n t.label m u.label hnt hmu, Node.children, Node.children,
    hbelow.corresponds_iff hbelow' hR]
  rfl

end Pattern

end TwigAlgebra
