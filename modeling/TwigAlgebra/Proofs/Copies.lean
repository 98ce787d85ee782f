import TwigAlgebra.Pattern.Tree
import TwigAlgebra.Proofs.Effects

/-!
# Copies and grafts

A copy takes a tree out of one arena and grafts it, branch by branch, in another.  Taking out needs
a finite tree, and grafting needs a slot to graft under; then neither fails.  What holds of an arena
and survives a new child holds after grafting, so that an invariant need not follow the recursion of
the branches again.

## Main definitions

* `Branches.labels`, `Tree.labels` — the nodes of owned subtrees.

## Main results

* `Pattern.Spans.exists_descent` — recursive descents into a finite tree answer.
* `Pattern.Spans.exists_addEdge` — an edge to the top of a finite tree can be added above it.
* `Branches.exists_graft`, `Branches.graft_invariant` — grafting is possible, and keeps what new
  children keep.
* `Pattern.mem_labels_extractWith` — the nodes of a tree that was taken out.
-/

namespace TwigAlgebra

open Pattern

/-! ### The nodes of owned subtrees -/

namespace Branches

/-- The nodes on the branches, in pre-order. -/
def labels : Branches → List Node
  | nil => []
  | cons _ n below rest => n :: (below.labels ++ rest.labels)

@[simp] theorem labels_nil : nil.labels = [] := rfl

@[simp] theorem labels_cons (flags : EdgeFlags) (n : Node) (below rest : Branches) :
    (cons flags n below rest).labels = n :: (below.labels ++ rest.labels) := rfl

/-- The nodes seen inside stored content are nodes of the branches under new codes. -/
theorem mem_labels_asVirtual {bs : Branches} {c : Counters} {m : Node}
    (hm : m ∈ (bs.asVirtual c).1.labels) : ∃ n ∈ bs.labels, ∃ code, m = n.asVirtual code := by
  induction bs generalizing c with
  | nil => cases hm
  | cons flags n below rest ihb ihr =>
    rw [asVirtual, labels_cons] at hm
    rcases List.mem_cons.mp hm with rfl | hm
    · exact ⟨n, List.mem_cons_self, _, rfl⟩
    · rcases List.mem_append.mp hm with hm | hm
      · obtain ⟨k, hk, code, rfl⟩ := ihb hm
        exact ⟨k, List.mem_cons_of_mem _ (List.mem_append_left _ hk), code, rfl⟩
      · obtain ⟨k, hk, code, rfl⟩ := ihr hm
        exact ⟨k, List.mem_cons_of_mem _ (List.mem_append_right _ hk), code, rfl⟩

end Branches

/-- The nodes of the tree, in pre-order. -/
def Tree.labels (t : Tree) : List Node := t.label :: t.below.labels

theorem Tree.mem_labels_asVirtual {t : Tree} {c : Counters} {m : Node}
    (hm : m ∈ (t.asVirtual c).1.labels) : ∃ n ∈ t.labels, ∃ code, m = n.asVirtual code := by
  rcases List.mem_cons.mp hm with rfl | hm
  · exact ⟨t.label, List.mem_cons_self, _, rfl⟩
  · obtain ⟨n, hn, code, rfl⟩ := Branches.mem_labels_asVirtual hm
    exact ⟨n, List.mem_cons_of_mem _ hn, code, rfl⟩

namespace Pattern

variable {p q : Pattern} {f below : Forest} {h c : Handle} {fuel : Nat}

/-! ### Taking trees out -/

/-- A descent that answers at a node whenever it answers at the children answers at the top of a
finite tree. -/
theorem Spans.exists_descent {α : Type} {w : Nat → Handle → Option α}
    (hw : ∀ fuel h n, p.node? h = some n → (∀ e ∈ n.edges, ∃ a, w fuel e.child = some a) →
      ∃ a, w (fuel + 1) h = some a)
    (hf : p.Spans f) (hfuel : f.height ≤ fuel) (hh : h ∈ f.roots) : ∃ a, w fuel h = some a := by
  induction f generalizing fuel h with
  | nil => cases hh
  | cons i below rest ihb ihr =>
    obtain ⟨hi, hbelow, hrest⟩ := hf
    rw [Forest.height] at hfuel
    rcases List.mem_cons.mp hh with rfl | hh
    · obtain ⟨n, hn, hchildren⟩ := children?_eq_some_iff.mp hi
      obtain ⟨fuel, rfl⟩ : ∃ k, fuel = k + 1 := ⟨fuel - 1, by omega⟩
      refine hw fuel h n hn fun e he => ihb hbelow (by omega) ?_
      rw [← hchildren]
      exact List.mem_map_of_mem he
    · exact ihr hrest (by omega) hh

theorem exists_gather {visit : Handle → Option Tree} {es : List Edge}
    (hes : ∀ e ∈ es, ∃ t, visit e.child = some t) : ∃ bs, gather visit es = some bs := by
  induction es with
  | nil => exact ⟨.nil, rfl⟩
  | cons e es ih =>
    obtain ⟨t, ht⟩ := hes e List.mem_cons_self
    obtain ⟨bs, hbs⟩ := ih fun e he => hes e (List.mem_cons_of_mem _ he)
    exact ⟨.cons e.toEdgeFlags t.label t.below bs, by rw [gather, ht, hbs]; rfl⟩

/-- A finite tree can be taken out, also with other trees in place of some subtrees. -/
theorem Spans.exists_extractWith {hole : Handle → Option (Option Tree)}
    (hhole : ∀ h, ∃ o, hole h = some o) (hf : p.Spans (.cons h below .nil)) (hfuel : p.size ≤ fuel) :
    ∃ t, p.extractWith hole fuel h = some t := by
  refine hf.exists_descent ?_ (hf.height_le_size.trans hfuel) List.mem_cons_self
  intro fuel h n hn hchildren
  obtain ⟨o, ho⟩ := hhole h
  rw [extractWith, ho]
  cases o with
  | some t => exact ⟨t, rfl⟩
  | none =>
    obtain ⟨bs, hbs⟩ := exists_gather hchildren
    exact ⟨⟨n.detached, bs⟩, by simp [hn, hbs]⟩

theorem Spans.exists_extract (hf : p.Spans (.cons h below .nil)) : ∃ t, p.extract h = some t :=
  hf.exists_extractWith (fun _ => ⟨none, rfl⟩) (Nat.le_refl _)

theorem mem_labels_gather {visit : Handle → Option Tree} {es : List Edge} {bs : Branches} {m : Node}
    (hbs : gather visit es = some bs) (hm : m ∈ bs.labels) :
    ∃ e ∈ es, ∃ t, visit e.child = some t ∧ m ∈ t.labels := by
  induction es generalizing bs with
  | nil =>
    cases hbs
    cases hm
  | cons e es ih =>
    obtain ⟨t, ht, hbs⟩ := Option.bind_eq_some_iff.mp hbs
    obtain ⟨bs', hbs', hbs⟩ := Option.bind_eq_some_iff.mp hbs
    cases hbs
    rw [Branches.labels_cons, ← List.cons_append] at hm
    rcases List.mem_append.mp hm with hm | hm
    · exact ⟨e, List.mem_cons_self, t, ht, hm⟩
    · obtain ⟨e', he', t', ht', hm⟩ := ih hbs' hm
      exact ⟨e', List.mem_cons_of_mem _ he', t', ht', hm⟩

/-- The nodes of a tree that was taken out come from the arena, or from what stood in for a
subtree. -/
theorem mem_labels_extractWith {hole : Handle → Option (Option Tree)} {t : Tree} {m : Node}
    (ht : p.extractWith hole fuel h = some t) (hm : m ∈ t.labels) :
    (∃ i n, p.node? i = some n ∧ m = n.detached) ∨
      ∃ i t', hole i = some (some t') ∧ m ∈ t'.labels := by
  induction fuel generalizing h t m with
  | zero => cases ht
  | succ fuel ih =>
    rw [extractWith] at ht
    obtain ⟨o, ho, ht⟩ := Option.bind_eq_some_iff.mp ht
    cases o with
    | some t' =>
      -- something stands in for the subtree
      cases ht
      exact Or.inr ⟨h, t, ho, hm⟩
    | none =>
      obtain ⟨n, hn, ht⟩ := Option.bind_eq_some_iff.mp ht
      obtain ⟨bs, hbs, ht⟩ := Option.bind_eq_some_iff.mp ht
      cases ht
      -- the node itself, or one from the branches below it
      rcases List.mem_cons.mp hm with rfl | hm
      · exact Or.inl ⟨h, n, hn, rfl⟩
      · obtain ⟨e, -, t', ht', hm⟩ := mem_labels_gather hbs hm
        exact ih ht' hm

theorem mem_labels_extract {t : Tree} {m : Node} (ht : p.extract h = some t) (hm : m ∈ t.labels) :
    ∃ i n, p.node? i = some n ∧ m = n.detached := by
  rcases mem_labels_extractWith ht hm with hnode | ⟨i, t', ht', -⟩
  · exact hnode
  · cases ht'

/-- The top node of a tree that was taken out, unless another tree stood in for all of it. -/
theorem label_of_extractWith {hole : Handle → Option (Option Tree)} {t : Tree}
    (hhole : hole h = some none) (ht : p.extractWith hole fuel h = some t) :
    ∃ n, p.node? h = some n ∧ t.label = n.detached := by
  cases fuel with
  | zero => cases ht
  | succ fuel =>
    rw [extractWith, hhole] at ht
    simp only [Option.bind_eq_bind, Option.bind_some] at ht
    obtain ⟨n, hn, ht⟩ := Option.bind_eq_some_iff.mp ht
    obtain ⟨bs, -, ht⟩ := Option.bind_eq_some_iff.mp ht
    cases ht
    exact ⟨n, hn, rfl⟩

theorem label_of_extract {t : Tree} (ht : p.extract h = some t) :
    ∃ n, p.node? h = some n ∧ t.label = n.detached :=
  label_of_extractWith rfl ht

/-! ### New edges -/

/-- Depths can be recorded in a finite tree. -/
theorem Spans.exists_setDepth (hf : p.Spans f) (hfuel : f.height ≤ fuel) {es : List Edge}
    (hes : es.map (·.child) = f.roots) (depth : UInt32) :
    ∃ q, es.foldlM (fun p e => setDepth fuel e.child (depth + e.levels) p) p = some q := by
  induction f generalizing p fuel es depth with
  | nil => exact ⟨p, by rw [List.map_eq_nil_iff.mp hes]; rfl⟩
  | cons h below rest ihb ihr =>
    obtain ⟨e, es, rfl, rfl, hrestes⟩ := exists_edges_of_roots_cons hes
    obtain ⟨hh, hbelow, hrest⟩ := hf
    obtain ⟨n, hn, hchildren⟩ := children?_eq_some_iff.mp hh
    rw [Forest.height] at hfuel
    obtain ⟨fuel, rfl⟩ : ∃ k, fuel = k + 1 := ⟨fuel - 1, by omega⟩
    -- first the node, then what is below it, then the other trees
    obtain ⟨p₁, hp₁⟩ := exists_update (lt_size_of_node? hn)
      fun n : Node => { n with depth := depth + e.levels }
    have hedges : ∀ i (n : Node),
        (if e.child = i then { n with depth := depth + e.levels } else n).edges = n.edges :=
      fun i n => by split <;> rfl
    obtain ⟨p₂, hp₂⟩ := ihb ((maps_update hp₁).spans hedges hbelow)
      (by omega : below.height ≤ fuel) hchildren (depth + e.levels)
    have hfirst : setDepth (fuel + 1) e.child (depth + e.levels) p = some p₂ := by
      rw [setDepth, hn]
      simp only [Option.bind_eq_bind, Option.bind_some, hp₁]
      exact hp₂
    obtain ⟨d, hd⟩ := exists_maps_setDepth hfirst
    obtain ⟨q, hq⟩ := ihr (hd.spans (fun _ _ => rfl) hrest) (by omega : rest.height ≤ fuel + 1)
      hrestes depth
    exact ⟨q, by rw [List.foldlM_cons, hfirst]; exact hq⟩

/-- An edge can be added from a slot above a finite tree to its top. -/
theorem Spans.exists_addEdge (hf : p.Spans (.cons c below .nil)) (hh : h < p.size)
    (hnew : h ∉ (Forest.cons c below .nil).handles) (flags : EdgeFlags) :
    ∃ q, p.addEdge h c flags = some q := by
  obtain ⟨p₁, hp₁⟩ := exists_update (p := p.forget) (by rwa [size_forget])
    fun n => { n with edges := n.edges ++ [flags.to c] }
  have hedit := maps_edit hp₁
  obtain ⟨owner, howner⟩ := exists_node_of_lt_size (hedit.size_eq ▸ hh)
  obtain ⟨p₂, hp₂⟩ := exists_update (hedit.size_eq ▸ hf.lt_size List.mem_cons_self)
    fun n : Node => { n with parent := some h }
  have hmaps := hedit.trans (maps_update hp₂)
  -- the tree stays as it was, for the new edge starts outside
  have hspans : p₂.Spans (.cons c below .nil) := by
    refine hf.congr fun i hi => ?_
    have hne : h ≠ i := fun heq => hnew (heq ▸ hi)
    rw [children?, children?, hmaps.nodes, Option.map_map]
    refine congrArg (fun g => (p.node? i).map g) (funext fun n => ?_)
    by_cases hc : c = i <;> simp [hne, hc, Node.children]
  have htop : [(⟨false, false, false⟩ : EdgeFlags).to c].map (·.child)
      = (Forest.cons c below .nil).roots := rfl
  obtain ⟨q, hq⟩ := hspans.exists_setDepth hspans.height_le_size htop (owner.depth + flags.levels)
  rw [foldlM_setDepth_singleton] at hq
  refine ⟨q, ?_⟩
  rw [addEdge, edit, hp₁]
  simp only [Option.bind_eq_bind, Option.bind_some, howner, hp₂]
  exact hq

/-- A new child can be added to every node. -/
theorem exists_addChild (hh : h < p.size) (n : Node) (flags : EdgeFlags) :
    ∃ q, p.addChild h n flags = some (p.size, q) ∧ p.size < q.size := by
  have hchildren : (p.addNode n).2.children? p.size = some [] := by
    rw [children?, node?_addNode, if_pos rfl]
    rfl
  have hspans : (p.addNode n).2.Spans (.cons p.size .nil .nil) := ⟨hchildren, trivial, trivial⟩
  have hnew : h ∉ (Forest.cons p.size .nil .nil).handles := by
    simpa using Nat.ne_of_lt hh
  have hh' : h < (p.addNode n).2.size := size_addNode p n ▸ Nat.lt_succ_of_lt hh
  obtain ⟨q, hq⟩ := hspans.exists_addEdge hh' hnew flags
  obtain ⟨-, -, d, hmaps⟩ := exists_maps_addEdge hq
  refine ⟨q, ?_, ?_⟩
  · show ((p.addNode n).2.addEdge h p.size flags).bind (fun q => some (p.size, q)) = _
    rw [hq, Option.bind_some]
  · rw [hmaps.size_eq, size_addNode]
    omega

end Pattern

/-! ### Grafting -/

namespace Branches

variable {p q : Pattern} {target : Handle}

/-- Branches can be grafted under every node. -/
theorem exists_graft (bs : Branches) (htarget : target < p.size) :
    ∃ q, bs.graft target p = some q ∧ p.size ≤ q.size := by
  induction bs generalizing p target with
  | nil => exact ⟨p, rfl, Nat.le_refl _⟩
  | cons flags n below rest ihb ihr =>
    obtain ⟨p₁, hp₁, hlt₁⟩ := exists_addChild htarget n flags
    obtain ⟨p₂, hp₂, hle₂⟩ := ihb hlt₁
    have hlt : target < p₂.size := by
      have hlt₂ : p.size < p₂.size := Nat.lt_of_lt_of_le hlt₁ hle₂
      exact Nat.lt_trans htarget hlt₂
    obtain ⟨q, hq, hle⟩ := ihr hlt
    exact ⟨q, by rw [graft, hp₁]; simp [hp₂, hq], by omega⟩

/-- Grafting keeps what every new child keeps. -/
theorem graft_invariant {I : Pattern → Prop} {bs : Branches}
    (hadd : ∀ p q h c n flags, n ∈ bs.labels → p.addChild h n flags = some (c, q) → I p → I q)
    (hq : bs.graft target p = some q) (hp : I p) : I q := by
  induction bs generalizing p q target with
  | nil =>
    cases hq
    exact hp
  | cons flags n below rest ihb ihr =>
    obtain ⟨⟨c, p₁⟩, hp₁, hq⟩ := Option.bind_eq_some_iff.mp hq
    obtain ⟨p₂, hp₂, hq⟩ := Option.bind_eq_some_iff.mp hq
    have hfirst : I p₁ := hadd p p₁ target c n flags List.mem_cons_self hp₁ hp
    have hbelow : I p₂ := ihb (fun p q h c n flags hn => hadd p q h c n flags
      (List.mem_cons_of_mem _ (List.mem_append_left _ hn))) hp₂ hfirst
    exact ihr (fun p q h c n flags hn => hadd p q h c n flags
      (List.mem_cons_of_mem _ (List.mem_append_right _ hn))) hq hbelow

end Branches

namespace Tree

variable {p q : Pattern} {target c : Handle}

theorem graft_invariant {I : Pattern → Prop} {t : Tree} {flags : EdgeFlags}
    (hadd : ∀ p q h c n flags, n ∈ t.labels → p.addChild h n flags = some (c, q) → I p → I q)
    (hq : t.graft target flags p = some (c, q)) (hp : I p) : I q := by
  obtain ⟨⟨i, p₁⟩, hp₁, hq⟩ := Option.bind_eq_some_iff.mp hq
  obtain ⟨p₂, hp₂, hq⟩ := Option.bind_eq_some_iff.mp hq
  cases hq
  exact Branches.graft_invariant
    (fun p q h c n flags hn => hadd p q h c n flags (List.mem_cons_of_mem _ hn)) hp₂
    (hadd p p₁ target c t.label flags List.mem_cons_self hp₁ hp)

/-- A tree can be grafted under every node. -/
theorem exists_graft (t : Tree) (htarget : target < p.size) (flags : EdgeFlags) :
    ∃ c q, t.graft target flags p = some (c, q) ∧ p.size ≤ q.size := by
  obtain ⟨p₁, hp₁, hlt⟩ := exists_addChild htarget t.label flags
  obtain ⟨q, hq, hle⟩ := t.below.exists_graft hlt
  exact ⟨p.size, q, by rw [graft, hp₁]; simp [hq], hlt.le.trans hle⟩

theorem exists_toPattern (t : Tree) (name : String) : ∃ q, t.toPattern name = some q := by
  have hroot : (singleton name t.label).root < (singleton name t.label).size := Nat.one_pos
  obtain ⟨q, hq, -⟩ := t.below.exists_graft hroot
  exact ⟨q, hq⟩

theorem toPattern_invariant {I : Pattern → Prop} {t : Tree} {name : String}
    (hstart : I (singleton name t.label))
    (hadd : ∀ p q h c n flags, n ∈ t.labels → p.addChild h n flags = some (c, q) → I p → I q)
    (hq : t.toPattern name = some q) : I q :=
  Branches.graft_invariant
    (fun p q h c n flags hn => hadd p q h c n flags (List.mem_cons_of_mem _ hn)) hq hstart

end Tree

/-! ### Copies -/

namespace Pattern

variable {p q source : Pattern} {target h old new c : Handle}

/-- A virtual copy is refused where no edge leads, and then nothing changes.  Otherwise a tree is
taken out, seen inside stored content and grafted. -/
theorem copyVirtual_cases {answer : Except PlanError Handle} {k k' : Counters}
    (hq : p.copyVirtual target source h k = some (answer, q, k')) :
    (∃ n, source.incomingEdge h = some none ∧ source.node? h = some n ∧
      answer = .error (.malformed n.code .noIncomingEdge) ∧ q = p ∧ k' = k) ∨
    ∃ e t c, source.incomingEdge h = some (some e) ∧ source.extract h = some t ∧
      (t.asVirtual k).1.graft target e.toEdgeFlags p = some (c, q) ∧ answer = .ok c ∧
      k' = (t.asVirtual k).2 := by
  obtain ⟨o, ho, hq⟩ := Option.bind_eq_some_iff.mp hq
  cases o with
  | none =>
    obtain ⟨n, hn, hq⟩ := Option.bind_eq_some_iff.mp hq
    cases hq
    exact Or.inl ⟨n, ho, hn, rfl, rfl, rfl⟩
  | some e =>
    obtain ⟨t, ht, hq⟩ := Option.bind_eq_some_iff.mp hq
    obtain ⟨⟨c, q'⟩, hq', hq⟩ := Option.bind_eq_some_iff.mp hq
    cases hq
    exact Or.inr ⟨e, t, c, ho, ht, hq', rfl, rfl⟩

/-- What no edge leads to is refused. -/
theorem copyVirtual_eq_refused {n : Node} (hnone : source.incomingEdge h = some none)
    (hn : source.node? h = some n) (k : Counters) :
    p.copyVirtual target source h k
      = some (.error (.malformed n.code .noIncomingEdge), p, k) := by
  rw [copyVirtual, hnone]
  simp [hn]

/-- What an edge leads to is grafted. -/
theorem copyVirtual_eq_grafted {e : Edge} {t : Tree} {k : Counters}
    (he : source.incomingEdge h = some (some e)) (ht : source.extract h = some t)
    (hgraft : (t.asVirtual k).1.graft target e.toEdgeFlags p = some (c, q)) :
    p.copyVirtual target source h k = some (.ok c, q, (t.asVirtual k).2) := by
  rw [copyVirtual, he]
  simp [ht, hgraft]

/-- A virtual copy comes to an end if the link up and the subtree can be followed. -/
theorem exists_copyVirtual (hincoming : ∃ o, source.incomingEdge h = some o)
    (htree : ∃ t, source.extract h = some t) (htarget : target < p.size) (k : Counters) :
    ∃ r, p.copyVirtual target source h k = some r := by
  obtain ⟨o, ho⟩ := hincoming
  obtain ⟨t, ht⟩ := htree
  cases o with
  | none =>
    obtain ⟨n, hn, -⟩ := label_of_extract ht
    exact ⟨_, copyVirtual_eq_refused ho hn k⟩
  | some e =>
    obtain ⟨c, q, hq, -⟩ := (t.asVirtual k).1.exists_graft htarget e.toEdgeFlags
    exact ⟨_, copyVirtual_eq_grafted ho ht hq⟩

/-- Copying branches keeps what grafting keeps. -/
theorem copyChildren_invariant {I : Pattern → Prop}
    (hgraft : ∀ p q t i c flags, source.extract i = some t →
      t.graft target flags p = some (c, q) → I p → I q)
    (hq : p.copyChildren target source h = some q) (hp : I p) : I q := by
  obtain ⟨n, -, hq⟩ := Option.bind_eq_some_iff.mp hq
  refine List.foldlM_invariant (fun p e r _ hr hp => ?_) hq hp
  obtain ⟨t, ht, hr⟩ := Option.bind_eq_some_iff.mp hr
  obtain ⟨⟨c, r'⟩, hr', hr⟩ := Option.bind_eq_some_iff.mp hr
  cases hr
  exact hgraft p _ t e.child c e.toEdgeFlags ht hr' hp

theorem copy_eq_some (hq : p.copy = some q) :
    ∃ t, p.extract p.root = some t ∧ t.toPattern p.name = some q :=
  Option.bind_eq_some_iff.mp hq

/-- A copy with a replacement has nodes of both patterns; its top node is that of the replacement if
the root is replaced. -/
theorem copyReplacing_eq_some (hq : p.copyReplacing old source new = some q) :
    ∃ (t : Tree) (n : Node), t.toPattern p.name = some q ∧
      (if p.root = old then source.node? new else p.node? p.root) = some n ∧ t.label = n.detached ∧
      ∀ m ∈ t.labels, (∃ i k, p.node? i = some k ∧ m = k.detached) ∨
        ∃ i k, source.node? i = some k ∧ m = k.detached := by
  obtain ⟨t, ht, hq⟩ := Option.bind_eq_some_iff.mp hq
  have hlabels : ∀ m ∈ t.labels, (∃ i k, p.node? i = some k ∧ m = k.detached) ∨
      ∃ i k, source.node? i = some k ∧ m = k.detached := by
    intro m hm
    rcases mem_labels_extractWith ht hm with hnode | ⟨i, t', ht', hm⟩
    · exact Or.inl hnode
    · -- the replacement stands in for the old subtree only
      split at ht'
      · obtain ⟨t'', ht'', heq⟩ := Option.map_eq_some_iff.mp ht'
        cases heq
        exact Or.inr (mem_labels_extract ht'' hm)
      · cases ht'
  have htop : ∃ n, (if p.root = old then source.node? new else p.node? p.root) = some n ∧
      t.label = n.detached := by
    by_cases hroot : p.root = old
    · -- the replacement stands in for the root
      rw [extractWith] at ht
      obtain ⟨o, ho, ht⟩ := Option.bind_eq_some_iff.mp ht
      rw [if_pos hroot] at ho ⊢
      obtain ⟨t', ht', rfl⟩ := Option.map_eq_some_iff.mp ho
      cases ht
      exact label_of_extract ht'
    · rw [if_neg hroot]
      exact label_of_extractWith (if_neg hroot) ht
  obtain ⟨n, hn, hlabel⟩ := htop
  exact ⟨t, n, hq, hn, hlabel, hlabels⟩

end Pattern

end TwigAlgebra
