import TwigAlgebra.Proofs.Shrinking

/-!
# Changes of a tree under fresh codes

A pattern of a plan is changed while codes are taken from counters: it takes new nodes and virtual
copies, is copied, loses edges and is pruned.  Whatever is done, each node that is reached afterwards
has the code and the variables of a node that was reached before, or it is new, binds nothing and has
a code that was taken for it.

## Main definitions

* `Change`, `Change.run` — what is done, and what comes of it.
* `Change.taken` — the codes that a change takes.
* `Change.FromTree`, `Change.Owned`, `Change.Within` — conditions on changes.
* `Pattern.Sprouts` — the pattern is a tree, of old nodes and new ones.

## Main results

* `Change.sprouts` — what a change can do.
* `Change.exists_run` — a change that names slots of a tree comes to an end.
-/

namespace TwigAlgebra

open Pattern

/-! ### Changes -/

/-- What is done to a pattern while codes are taken from counters. -/
inductive Change where
  /-- A node without variables, under a fresh code, becomes the last child of another. -/
  | addChild (parent : Handle) (n : Node) (flags : EdgeFlags) : Change
  /-- A virtual copy of the subtree of `h`, in another pattern or in the same, goes under `target`. -/
  | copyVirtual (target : Handle) (source : Option Pattern) (h : Handle) : Change
  /-- A compact copy takes the place of the pattern. -/
  | copy : Change
  /-- The edges from one node to another are removed. -/
  | removeEdge (parent child : Handle) : Change
  /-- Only the path to a code is kept. -/
  | pruneTo (code : Code) : Change
  deriving DecidableEq, Repr

namespace Change

/-- The pattern and the counters after a change. -/
def run (p : Pattern) (c : Counters) : Change → Option (Pattern × Counters)
  | addChild parent n flags => do
    let (code, c) := c.freshCode
    return ((← p.addChild parent { n with code, vars := [] } flags).2, c)
  | copyVirtual target source h => do return (← p.copyVirtual target (source.getD p) h c).2
  | copy => do return (← p.copy, c)
  | removeEdge parent child => do return ((← p.removeEdge parent child).2, c)
  | pruneTo code => do return ((← p.pruneTo code).2, c)

/-- The number of codes that a change takes: one for each new node. -/
def taken (p : Pattern) : Change → Nat
  | addChild _ _ _ => 1
  | copyVirtual _ source h =>
    match (source.getD p).incomingEdge h with
    | some (some _) => ((source.getD p).count h).getD 0
    | _ => 0
  | _ => 0

/-- Another pattern that is copied from is a tree of slots. -/
def FromTree : Change → Prop
  | copyVirtual _ source _ => ∀ r ∈ source, r.Orderly
  | _ => True

/-- An edge is removed from a node of the tree, unless the child is the root or outside of it. -/
def Owned (p : Pattern) : Change → Prop
  | removeEdge parent child => p.Owns parent child
  | _ => True

/-- The slots that a change names exist, and a subtree that is copied is reached in a tree. -/
def Within (p : Pattern) : Change → Prop
  | addChild parent _ _ => parent < p.size
  | copyVirtual target source h =>
    target < p.size ∧ (∀ r ∈ source, r.Orderly) ∧ (source.getD p).Reached h
  | removeEdge parent child => parent < p.size ∧ child < p.size
  | copy | pruneTo _ => True

end Change

/-! ### What a change can do -/

namespace Pattern

variable {p q : Pattern} {h i : Handle} {first next : Nat} {ns : List Node}

/-- A reached node of `q` has the code and the variables of a reached node of `p`, or it binds nothing
and has a code in the range; and different reached nodes have different codes. -/
structure Sprouts (first next : Nat) (p q : Pattern) : Prop where
  /-- The reached slots are a tree. -/
  tree : q.IsTree
  /-- Reached nodes are old, or new. -/
  stem : ∀ i m, q.Reached i → q.node? i = some m →
    (∃ j n, p.Reached j ∧ p.node? j = some n ∧ n.stem = m.stem) ∨
      m.vars = [] ∧ first ≤ m.code.val.toNat ∧ m.code.val.toNat < next

/-- The codes of the reached nodes are below a number. -/
def CodesBelow (p : Pattern) (next : Nat) : Prop :=
  ∀ i n, p.Reached i → p.node? i = some n → n.code.val.toNat < next

namespace Sprouts

theorem refl (hp : p.IsTree) (first next : Nat) : p.Sprouts first next p :=
  ⟨hp, fun i m hi hm => Or.inl ⟨i, m, hi, hm, rfl⟩⟩

/-- A tree that loses edges. -/
theorem of_shrinksTo (hp : p.IsTree) (hpq : p.ShrinksTo q) (first next : Nat) :
    p.Sprouts first next q := by
  have hold : ∀ i m, q.Reached i → q.node? i = some m →
      ∃ n, p.Reached i ∧ p.node? i = some n ∧ n.stem = m.stem := by
    intro i m hi hm
    obtain ⟨n, hn⟩ := hp.exists_node (hpq.reached hi)
    have hstem := getElem?_stems_of_node? hm
    rw [hpq.stems, getElem?_stems_of_node? hn, Option.some.injEq] at hstem
    exact ⟨n, hpq.reached hi, hn, hstem⟩
  refine ⟨⟨hpq.orderly hp.toOrderly, fun i j m m' hi hj hm hm' hcode => ?_⟩, fun i m hi hm => ?_⟩
  · obtain ⟨n, hi, hn, hstem⟩ := hold i m hi hm
    obtain ⟨n', hj, hn', hstem'⟩ := hold j m' hj hm'
    refine hp.distinct i j n n' hi hj hn hn' ?_
    rw [(Prod.mk.inj hstem).1, (Prod.mk.inj hstem').1, hcode]
  · obtain ⟨n, hi, hn, hstem⟩ := hold i m hi hm
    exact Or.inl ⟨i, n, hi, hn, hstem⟩

/-- A reached node of a tree that has grown is an old node in its slot, or one of the new nodes. -/
theorem exists_stem_of_growsTo (hp : p.IsTree) (hpq : p.GrowsTo q)
    (hstems : q.stems = p.stems ++ ns.map Node.stem) {m : Node} (hi : q.Reached i)
    (hm : q.node? i = some m) :
    (∃ n, p.Reached i ∧ p.node? i = some n ∧ n.stem = m.stem) ∨
      p.size ≤ i ∧ ∃ n, ns[i - p.size]? = some n ∧ n.stem = m.stem := by
  have hstem := getElem?_stems_of_node? hm
  rw [hstems] at hstem
  rcases hpq.reached i hi with hi | hi
  · obtain ⟨n, hn⟩ := hp.exists_node hi
    have hlt : i < p.stems.length := length_stems p ▸ lt_size_of_node? hn
    rw [List.getElem?_append_left hlt, getElem?_stems_of_node? hn, Option.some.injEq] at hstem
    exact Or.inl ⟨n, hi, hn, hstem⟩
  · rw [List.getElem?_append_right (length_stems p ▸ hi), length_stems, List.getElem?_map] at hstem
    exact Or.inr ⟨hi, Option.map_eq_some_iff.mp hstem⟩

/-- A tree that grows by nodes which bind nothing, under fresh codes. -/
theorem of_growsTo (hp : p.IsTree) (hbelow : p.CodesBelow first) (hpq : p.GrowsTo q)
    (hstems : q.stems = p.stems ++ ns.map Node.stem) (hns : Numbered first next ns)
    (hvars : ∀ n ∈ ns, n.vars = []) : p.Sprouts first next q := by
  have hfresh : ∀ {k : Nat} {n : Node}, ns[k]? = some n → first ≤ n.code.val.toNat ∧ n.code.val.toNat < next :=
    fun hk => hns.within _ (List.mem_of_getElem? hk)
  have hsame : ∀ {n n' m m' : Node}, n.stem = m.stem → n'.stem = m'.stem → m.code = m'.code →
      n.code = n'.code := fun hn hn' hcode =>
    (Prod.mk.inj hn).1.trans (hcode.trans (Prod.mk.inj hn').1.symm)
  refine ⟨⟨hpq.orderly, fun i j m m' hi hj hm hm' hcode => ?_⟩, fun i m hi hm => ?_⟩
  · rcases exists_stem_of_growsTo hp hpq hstems hi hm with ⟨n, hi, hn, hstem⟩ | ⟨hi, n, hn, hstem⟩
    · rcases exists_stem_of_growsTo hp hpq hstems hj hm' with
        ⟨n', hj, hn', hstem'⟩ | ⟨-, n', hn', hstem'⟩
      · -- both are old
        exact hp.distinct i j n n' hi hj hn hn' (hsame hstem hstem' hcode)
      · -- an old code is below all that are taken
        have hlt := hbelow i n hi hn
        rw [hsame hstem hstem' hcode] at hlt
        exact absurd (hfresh hn').1 (Nat.not_le.mpr hlt)
    · rcases exists_stem_of_growsTo hp hpq hstems hj hm' with
        ⟨n', hj, hn', hstem'⟩ | ⟨hj, n', hn', hstem'⟩
      · have hlt := hbelow j n' hj hn'
        rw [← hsame hstem hstem' hcode] at hlt
        exact absurd (hfresh hn).1 (Nat.not_le.mpr hlt)
      · -- both are new, and a new code is at one position of the list
        have hlt : i - p.size < (ns.map (·.code)).length := by
          rw [List.length_map]
          exact (List.getElem?_eq_some_iff.mp hn).1
        have hindex : i - p.size = j - p.size := by
          refine (List.getElem?_inj hlt hns.nodup).mp ?_
          rw [List.getElem?_map, List.getElem?_map, hn, hn', Option.map_some, Option.map_some,
            hsame hstem hstem' hcode]
        rw [← Nat.sub_add_cancel hi, hindex, Nat.sub_add_cancel hj]
  · rcases exists_stem_of_growsTo hp hpq hstems hi hm with ⟨n, hi, hn, hstem⟩ | ⟨-, n, hn, hstem⟩
    · exact Or.inl ⟨i, n, hi, hn, hstem⟩
    · obtain ⟨hcode, hvarsEq⟩ := Prod.mk.inj hstem
      rw [← hcode, ← hvarsEq]
      exact Or.inr ⟨hvars n (List.mem_of_getElem? hn), hfresh hn⟩

/-- A tree that is copied. -/
theorem of_copy (hp : p.IsTree) (hq : p.copy = some q) (first next : Nat) :
    p.Sprouts first next q := by
  obtain ⟨f, hf⟩ := hp.exists_sound
  obtain ⟨t, ht, hq⟩ := copy_eq_some hq
  obtain ⟨below, rfl⟩ := Forest.exists_eq_of_roots_singleton hf.roots_eq
  have hlabels := hf.spans.labels_of_extract ht
  have hstems : q.stems = (p.nodesOn (.cons p.root below .nil)).map Node.stem := by
    rw [Tree.stems_toPattern hq, hlabels, List.map_map]
    rfl
  have horderly : q.Orderly := by
    refine Tree.orderly_toPattern (fun n hn => ?_) hq
    rw [hlabels] at hn
    obtain ⟨k, hk, rfl⟩ := List.mem_map.mp hn
    exact hf.recorded k hk
  have hget : ∀ {i m}, q.node? i = some m →
      ((p.nodesOn (.cons p.root below .nil)).map Node.stem)[i]? = some m.stem := fun hm => by
    rw [← hstems, getElem?_stems_of_node? hm]
  have hcodes : ∀ {i m}, q.node? i = some m →
      ((p.nodesOn (.cons p.root below .nil)).map (·.code))[i]? = some m.code := by
    intro i m hm
    have hstem := hget hm
    rw [List.getElem?_map] at hstem ⊢
    obtain ⟨n, hn, hnm⟩ := Option.map_eq_some_iff.mp hstem
    rw [hn, Option.map_some, (Prod.mk.inj hnm).1]
  refine ⟨⟨horderly, fun i j m m' _ _ hm hm' hcode => ?_⟩, fun i m _ hm => Or.inl ?_⟩
  · -- the copy lists the codes in pre-order, each once
    have hi := hcodes hm
    refine (List.getElem?_inj (List.getElem?_eq_some_iff.mp hi).1 hf.codes).mp ?_
    rw [hi, hcodes hm', hcode]
  · obtain ⟨n, hn, hstem⟩ := List.mem_map.mp (List.mem_of_getElem? (hget hm))
    obtain ⟨j, hj, hnj⟩ := mem_nodesOn_iff.mp hn
    exact ⟨j, n, hf.reached_iff.mpr hj, hnj, hstem⟩

end Sprouts

end Pattern

namespace Change

variable {p q : Pattern} {c c' : Counters} {s : Change}

/-- A new child takes one code. -/
theorem sprouts_addChild (hp : p.IsTree) (hbelow : p.CodesBelow c.code.val.toNat) {parent h : Handle}
    {n : Node} {flags : EdgeFlags} (hwrap : c.code.val.toNat + 1 < 2 ^ 32)
    (hq : p.addChild parent { n with code := c.code, vars := [] } flags = some (h, q)) :
    c.freshCode.2.code.val.toNat = c.code.val.toNat + 1 ∧
      p.Sprouts c.code.val.toNat c.freshCode.2.code.val.toNat q := by
  rw [Counters.toNat_freshCode hwrap]
  have hgrows : p.GrowsTo q := hp.addChild (fun _ hv => by cases hv) hq
  have hstems : q.stems = p.stems ++ [{ n with code := c.code, vars := [] }].map Node.stem :=
    stems_addChild hq
  have hnumbered : Numbered c.code.val.toNat (c.code.val.toNat + 1)
      [{ n with code := c.code, vars := [] }] := .singleton { n with code := c.code, vars := [] }
  refine ⟨rfl, .of_growsTo hp hbelow hgrows hstems hnumbered fun m hm => ?_⟩
  rw [List.mem_singleton.mp hm]

/-- A virtual copy takes as many codes as the subtree that is copied has nodes. -/
theorem sprouts_graft (hp : p.IsTree) (hbelow : p.CodesBelow c.code.val.toNat) {target new : Handle}
    {flags : EdgeFlags} {t : Tree} (hwrap : c.code.val.toNat + t.size < 2 ^ 32)
    (hq : (t.asVirtual c).1.graft target flags p = some (new, q)) :
    (t.asVirtual c).2.code.val.toNat = c.code.val.toNat + t.size ∧
      p.Sprouts c.code.val.toNat (t.asVirtual c).2.code.val.toNat q := by
  obtain ⟨hnext, hnumbered⟩ := t.numbered_asVirtual hwrap
  have hvars : ∀ n ∈ (t.asVirtual c).1.labels, n.vars = [] := by
    intro n hn
    obtain ⟨m, -, code, rfl⟩ := Tree.mem_labels_asVirtual hn
    rfl
  rw [hnext]
  refine ⟨rfl, .of_growsTo hp hbelow (Tree.growsTo_graft (fun n hn v hv => ?_) hq
    hp.toOrderly) (Tree.stems_graft hq) hnumbered hvars⟩
  rw [hvars n hn] at hv
  cases hv

/-- A change keeps the tree, and what is new in it has codes that were taken. -/
theorem sprouts (hp : p.IsTree) (hbelow : p.CodesBelow c.code.val.toNat) (hs : s.Owned p)
    (hwrap : c.code.val.toNat + s.taken p < 2 ^ 32) (hrun : s.run p c = some (q, c')) :
    c'.code.val.toNat = c.code.val.toNat + s.taken p ∧
      p.Sprouts c.code.val.toNat c'.code.val.toNat q := by
  cases s with
  | addChild parent n flags =>
    obtain ⟨⟨h, r⟩, hr, hrun⟩ := Option.bind_eq_some_iff.mp hrun
    cases hrun
    exact sprouts_addChild hp hbelow hwrap hr
  | copyVirtual target source h =>
    obtain ⟨⟨answer, q', k⟩, hr, hrun⟩ := Option.bind_eq_some_iff.mp hrun
    cases hrun
    rcases copyVirtual_cases hr with ⟨n, hnone, -, -, rfl, rfl⟩ |
      ⟨e, t, new, he, ht, hgraft, -, rfl⟩
    · -- refused
      have htaken : (copyVirtual target source h).taken q = 0 := by rw [taken, hnone]
      exact ⟨by rw [htaken, Nat.add_zero], .refl hp _ _⟩
    · -- one code for each node of the tree that is grafted
      have htaken : (copyVirtual target source h).taken p = t.size := by
        rw [taken, he]
        dsimp only
        rw [count_of_extract ht, Option.getD_some]
      rw [htaken] at hwrap ⊢
      exact sprouts_graft hp hbelow hwrap hgraft
  | copy =>
    obtain ⟨r, hr, hrun⟩ := Option.bind_eq_some_iff.mp hrun
    cases hrun
    exact ⟨rfl, .of_copy hp hr _ _⟩
  | removeEdge parent child =>
    obtain ⟨⟨found, r⟩, hr, hrun⟩ := Option.bind_eq_some_iff.mp hrun
    cases hrun
    exact ⟨rfl, .of_shrinksTo hp (hp.toOrderly.removeEdge hs hr) _ _⟩
  | pruneTo code =>
    obtain ⟨⟨found, r⟩, hr, hrun⟩ := Option.bind_eq_some_iff.mp hrun
    cases hrun
    exact ⟨rfl, .of_shrinksTo hp (hp.toOrderly.pruneTo hr) _ _⟩

/-- A change that names slots of a tree comes to an end. -/
theorem exists_run (hp : p.IsTree) (hs : s.Within p) (c : Counters) : ∃ r, s.run p c = some r := by
  cases s with
  | addChild parent n flags =>
    obtain ⟨q, hq, -⟩ := exists_addChild hs { n with code := c.code, vars := [] } flags
    exact ⟨(q, c.freshCode.2), by rw [run]; simp [hq]⟩
  | copyVirtual target source h =>
    -- a subtree is taken from the pattern itself or from another tree
    obtain ⟨htarget, hsource, hh⟩ := hs
    have horderly : (source.getD p).Orderly := by
      cases source with
      | none => exact hp.toOrderly
      | some r => exact hsource r rfl
    obtain ⟨r, hr⟩ := horderly.exists_copyVirtual hh htarget c
    exact ⟨r.2, by rw [run, hr]; rfl⟩
  | copy =>
    obtain ⟨q, hq⟩ := hp.walkable.copy
    exact ⟨(q, c), by rw [run, hq]; rfl⟩
  | removeEdge parent child =>
    obtain ⟨found, q, hq, -⟩ := (Sheds.refl p).exists_removeEdge hs.1 hs.2
    exact ⟨(q, c), by rw [run, hq]; rfl⟩
  | pruneTo code =>
    obtain ⟨found, q, hq⟩ := hp.walkable.pruneTo code
    exact ⟨(q, c), by rw [run, hq]; rfl⟩

end Change

end TwigAlgebra
