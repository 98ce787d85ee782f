import TwigAlgebra.Proofs.Edits
import TwigAlgebra.Proofs.Links
import TwigAlgebra.Proofs.Lists

/-!
# What an operation does to every slot

An operation on a pattern changes a few fields of a few nodes.  Its effect is said once, slot by
slot: `q.Maps` tells what became of the node in each slot.  From the effect follows what became of
the edges between two slots and of a slot's parent link, and an invariant of arenas is checked
against these equations, without opening the operation again.

## Main definitions

* `Pattern.Maps` — what became of the node in each slot.
* `Pattern.edgesTo`, `Pattern.parent?` — the edges between two slots, and the link of a slot.
* `Pattern.Sparser` — slots lose edges at most.

## Main results

* `Pattern.exists_maps_addEdge`, `Pattern.removeEdge_cases`, `Pattern.maps_clearEdges`,
  `Pattern.maps_keepOnly`, `Pattern.exists_maps_storeOnlyFrom`, `Pattern.topReturning_cases` — the
  effects of the operations.
* `Pattern.not_above_of_addEdge`, `Pattern.Founded.addEdge` — no edge that was added closes a cycle.
* `Pattern.pruneTo_invariant` — pruning takes edges, and keeps what detaching children and keeping one
  child keep.
-/

namespace TwigAlgebra.Pattern

open Relation

variable {p q r : Pattern} {F G : Handle → Node → Node} {h c i : Handle} {fuel : Nat}

/-- The pattern `q` has the slots of `p`, and `F` tells what became of the node in each. -/
structure Maps (F : Handle → Node → Node) (p q : Pattern) : Prop where
  /-- The name is the same. -/
  name : q.name = p.name
  /-- The root is the same. -/
  root : q.root = p.root
  /-- What became of the node in each slot. -/
  nodes : ∀ i, q.node? i = (p.node? i).map (F i)

namespace Maps

theorem size_eq (hpq : Maps F p q) : q.size = p.size := by
  have hnone : ∀ i, q.size ≤ i ↔ p.size ≤ i := fun i => by
    rw [← node?_eq_none_iff, ← node?_eq_none_iff, hpq.nodes, Option.map_eq_none_iff]
  exact Nat.le_antisymm ((hnone _).mpr (Nat.le_refl _)) ((hnone _).mp (Nat.le_refl _))

theorem trans (hpq : Maps F p q) (hqr : Maps G q r) : Maps (fun i n => G i (F i n)) p r where
  name := hqr.name.trans hpq.name
  root := hqr.root.trans hpq.root
  nodes i := by
    rw [hqr.nodes, hpq.nodes, Option.map_map]
    rfl

/-- Only what becomes of the nodes at hand matters. -/
theorem congr (hpq : Maps F p q) (hFG : ∀ i n, p.node? i = some n → F i n = G i n) :
    Maps G p q where
  name := hpq.name
  root := hpq.root
  nodes i := by
    rw [hpq.nodes]
    exact Option.map_congr fun n hn => hFG i n hn

theorem refl (p : Pattern) : Maps (fun _ n => n) p p := ⟨rfl, rfl, fun _ => Option.map_id'.symm⟩

theorem node?_eq_some {n : Node} (hpq : Maps F p q) (hn : p.node? i = some n) :
    q.node? i = some (F i n) := by
  rw [hpq.nodes, hn, Option.map_some]

theorem exists_node {m : Node} (hpq : Maps F p q) (hm : q.node? i = some m) :
    ∃ n, p.node? i = some n ∧ F i n = m :=
  Option.map_eq_some_iff.mp (hpq.nodes i ▸ hm)

end Maps

theorem maps_forget (p : Pattern) : Maps (fun _ n => { n with topMemo := none }) p p.forget :=
  ⟨rfl, rfl, node?_forget p⟩

theorem maps_update {f : Node → Node} (hq : p.update h f = some q) :
    Maps (fun i n => if h = i then f n else n) p q where
  name := name_update hq
  root := root_update hq
  nodes i := by
    rw [node?_update hq]
    split
    · rfl
    · exact Option.map_id'.symm

theorem lt_size_of_update {f : Node → Node} (hq : p.update h f = some q) : h < p.size := by
  have hsome := isSome_update p h f
  rw [hq, Option.isSome_some, eq_comm, Option.isSome_iff_exists] at hsome
  obtain ⟨n, hn⟩ := hsome
  exact lt_size_of_node? hn

theorem maps_edit {f : Node → Node} (hq : p.edit h f = some q) :
    Maps (fun i n => if h = i then f { n with topMemo := none } else { n with topMemo := none })
      p q :=
  (maps_forget p).trans (maps_update hq)

theorem lt_size_of_edit {f : Node → Node} (hq : p.edit h f = some q) : h < p.size :=
  size_forget p ▸ lt_size_of_update hq

/-! ### Edges between two slots, and links -/

/-- The number of edges that lead from `h` to `c`. -/
def edgesTo (p : Pattern) (h c : Handle) : Nat :=
  ((p.node? h).map fun n => n.children.count c).getD 0

/-- The parent that the node in a slot links to. -/
def parent? (p : Pattern) (c : Handle) : Option Handle := (p.node? c).bind (·.parent)

theorem edgesTo_of_node? {n : Node} (hn : p.node? h = some n) :
    p.edgesTo h c = n.children.count c := by
  rw [edgesTo, hn, Option.map_some, Option.getD_some]

theorem leads_iff : p.Leads h c ↔ 0 < p.edgesTo h c := by
  unfold Leads edgesTo
  cases p.node? h with
  | none => simp
  | some n => simp [List.count_pos_iff]

theorem linksTo_iff : p.LinksTo c h ↔ p.parent? c = some h := Option.bind_eq_some_iff.symm

theorem edgesTo_eq_zero_iff : p.edgesTo h c = 0 ↔ ¬ p.Leads h c := by
  rw [leads_iff]
  omega

theorem Maps.edgesTo_congr (hpq : Maps F p q) (hF : ∀ n, (F h n).edges = n.edges) :
    q.edgesTo h c = p.edgesTo h c := by
  unfold edgesTo Node.children
  rw [hpq.nodes, Option.map_map]
  exact congrArg (fun g => ((p.node? h).map g).getD 0) (funext fun n => by simp [hF])

theorem Maps.parent?_congr (hpq : Maps F p q) (hF : ∀ n, (F c n).parent = n.parent) :
    q.parent? c = p.parent? c := by
  unfold parent?
  rw [hpq.nodes, Option.bind_map]
  exact congrArg (fun g => (p.node? c).bind g) (funext hF)

/-- A forest stays if no edges change. -/
theorem Maps.spans {f : Forest} (hpq : Maps F p q) (hF : ∀ i n, (F i n).edges = n.edges)
    (hf : p.Spans f) : q.Spans f := by
  refine hf.congr fun i _ => ?_
  rw [children?, children?, hpq.nodes, Option.map_map]
  exact congrArg (fun g => (p.node? i).map g) (funext fun n => by simp [Node.children, hF])

/-- What a slot becomes when its link is set. -/
theorem Maps.parent?_const {l : Option Handle} (hpq : Maps F p q) (hc : c < p.size)
    (hF : ∀ n, (F c n).parent = l) : q.parent? c = l := by
  obtain ⟨n, hn⟩ := exists_node_of_lt_size hc
  rw [parent?, hpq.node?_eq_some hn, Option.bind_some, hF]

/-! ### Depths -/

/-- The depth that the node in a slot has recorded. -/
def depth? (p : Pattern) (h : Handle) : Option UInt32 := (p.node? h).map (·.depth)

theorem depth?_of_node? {n : Node} (hn : p.node? h = some n) : p.depth? h = some n.depth := by
  rw [depth?, hn, Option.map_some]

theorem depth?_congr (hpq : q.node? h = p.node? h) : q.depth? h = p.depth? h := by
  rw [depth?, depth?, hpq]

/-- The slots of `p` have kept their depths, and lost edges at most. -/
structure Sparser (p q : Pattern) : Prop where
  /-- The root is the same. -/
  root : q.root = p.root
  /-- Depths are the same. -/
  depth : ∀ i, q.depth? i = p.depth? i
  /-- Every edge that is left was there. -/
  edges : ∀ i m, q.node? i = some m → ∀ e ∈ m.edges, ∃ n, p.node? i = some n ∧ e ∈ n.edges

namespace Sparser

theorem refl (p : Pattern) : p.Sparser p := ⟨rfl, fun _ => rfl, fun _ m hm _ he => ⟨m, hm, he⟩⟩

theorem trans (hpq : p.Sparser q) (hqr : q.Sparser r) : p.Sparser r where
  root := hqr.root.trans hpq.root
  depth i := (hqr.depth i).trans (hpq.depth i)
  edges i m hm e he := by
    obtain ⟨n, hn, he⟩ := hqr.edges i m hm e he
    exact hpq.edges i n hn e he

theorem of_maps (hpq : Maps F p q) (hdepth : ∀ i n, (F i n).depth = n.depth)
    (hedges : ∀ i n, (F i n).edges ⊆ n.edges) : p.Sparser q where
  root := hpq.root
  depth i := by
    rw [depth?, depth?, hpq.nodes, Option.map_map]
    exact congrArg (fun g => (p.node? i).map g) (funext (hdepth i))
  edges i m hm e he := by
    obtain ⟨n, hn, rfl⟩ := hpq.exists_node hm
    exact ⟨n, hn, hedges i n he⟩

theorem forget (p : Pattern) : p.Sparser p.forget :=
  of_maps (maps_forget p) (fun _ _ => rfl) fun _ _ => List.Subset.refl _

theorem leads (hpq : p.Sparser q) (hlead : q.Leads h c) : p.Leads h c := by
  obtain ⟨m, hm, hc⟩ := hlead
  obtain ⟨e, he, rfl⟩ := List.mem_map.mp hc
  obtain ⟨n, hn, he⟩ := hpq.edges h m hm e he
  exact ⟨n, hn, List.mem_map_of_mem he⟩

theorem size_eq (hpq : p.Sparser q) : q.size = p.size := by
  have hnone : ∀ i, q.size ≤ i ↔ p.size ≤ i := fun i => by
    have hdepth := hpq.depth i
    rw [← node?_eq_none_iff, ← node?_eq_none_iff]
    rw [depth?, depth?] at hdepth
    rw [← Option.map_eq_none_iff (f := fun n : Node => n.depth), hdepth, Option.map_eq_none_iff]
  exact Nat.le_antisymm ((hnone _).mpr (Nat.le_refl _)) ((hnone _).mp (Nat.le_refl _))

/-- Fewer edges stay in the arena and never come back. -/
theorem founded (hpq : p.Sparser q) (hp : p.Founded) : q.Founded :=
  hp.mono (Nat.le_of_eq hpq.size_eq.symm) fun _ _ hlead => hpq.leads hlead

end Sparser

/-! ### New nodes -/

/-- A node on its own has no edges. -/
theorem edgesTo_singleton (name : String) (n : Node) : (singleton name n).edgesTo h c = 0 := by
  unfold edgesTo
  rw [node?_singleton]
  split <;> rfl

theorem parent?_singleton (name : String) (n : Node) : (singleton name n).parent? c = none := by
  unfold parent?
  rw [node?_singleton]
  split <;> rfl

theorem Founded.singleton (name : String) (n : Node) : (Pattern.singleton name n).Founded := by
  have hnone : ∀ h c, ¬ (Pattern.singleton name n).Leads h c := fun h c =>
    edgesTo_eq_zero_iff.mp (edgesTo_singleton name n)
  refine ⟨fun h c hlead => absurd hlead (hnone h c), fun h hway => ?_⟩
  obtain ⟨c, hlead, -⟩ := TransGen.head'_iff.mp hway
  exact hnone h c hlead

theorem edgesTo_addNode (p : Pattern) (n : Node) : (p.addNode n).2.edgesTo h c = p.edgesTo h c := by
  unfold edgesTo
  rw [node?_addNode]
  split
  · subst h
    rw [node?_eq_none_iff.mpr (Nat.le_refl _)]
    rfl
  · rfl

theorem parent?_addNode (p : Pattern) (n : Node) : (p.addNode n).2.parent? c = p.parent? c := by
  unfold parent?
  rw [node?_addNode]
  split
  · subst c
    rw [node?_eq_none_iff.mpr (Nat.le_refl _)]
    rfl
  · rfl

/-- No edge leads from or to a new node. -/
theorem Founded.addNode (hp : p.Founded) (n : Node) : (p.addNode n).2.Founded := by
  refine hp.mono ?_ fun h c hlead => ?_
  · rw [size_addNode]
    exact Nat.le_succ _
  · rwa [leads_iff, edgesTo_addNode, ← leads_iff] at hlead

/-! ### Recording depths -/

/-- Recording depths changes nothing but depths. -/
theorem exists_maps_setDepth {depth : UInt32} (hq : setDepth fuel h depth p = some q) :
    ∃ d : Handle → UInt32, Maps (fun i n => { n with depth := d i }) p q := by
  induction fuel generalizing h depth p q with
  | zero => cases hq
  | succ fuel ih =>
    obtain ⟨n, hn, hq⟩ := Option.bind_eq_some_iff.mp hq
    obtain ⟨p₁, hp₁, hq⟩ := Option.bind_eq_some_iff.mp hq
    refine List.foldlM_invariant (I := fun q => ∃ d : Handle → UInt32,
      Maps (fun i n => { n with depth := d i }) p q) ?_ hq ?_
    · rintro b e b' - hb' ⟨d, hd⟩
      obtain ⟨d', hd'⟩ := ih hb'
      exact ⟨d', hd.trans hd'⟩
    · refine ⟨fun i => if h = i then depth else ((p.node? i).map (·.depth)).getD 0,
        (maps_update hp₁).congr fun i m hm => ?_⟩
      by_cases hi : h = i <;> simp [hi, hm]

/-- Recording the depths of one tree is recording them along a plain edge to it. -/
theorem foldlM_setDepth_singleton (fuel : Nat) (h : Handle) (depth : UInt32) (p : Pattern) :
    [(⟨false, false, false⟩ : EdgeFlags).to h].foldlM
      (fun p e => setDepth fuel e.child (depth + e.levels) p) p = setDepth fuel h depth p := by
  have hplain : depth + (⟨false, false, false⟩ : EdgeFlags).levels = depth := UInt32.add_zero depth
  rw [List.foldlM_cons, EdgeFlags.child_to, EdgeFlags.flags_to, hplain]
  cases setDepth fuel h depth p <;> rfl

/-- Depths are recorded in finite trees only. -/
theorem exists_spans_of_setDepth {depth : UInt32} (hq : setDepth fuel h depth p = some q) :
    ∃ below, p.Spans (.cons h below .nil) := by
  induction fuel generalizing h depth p q with
  | zero => cases hq
  | succ fuel ih =>
    -- the walk goes through each child, and is finite there by induction
    obtain ⟨n, hn, hq⟩ := Option.bind_eq_some_iff.mp hq
    obtain ⟨p₁, hp₁, hq⟩ := Option.bind_eq_some_iff.mp hq
    refine exists_spans_of_children hn fun c hc => ?_
    obtain ⟨e, he, rfl⟩ := List.mem_map.mp hc
    obtain ⟨es, es', hes⟩ := List.append_of_mem he
    rw [hes, List.foldlM_append] at hq
    -- the walk comes to the child after some siblings, and changes depths only
    obtain ⟨p₂, hp₂, hq⟩ := Option.bind_eq_some_iff.mp hq
    rw [List.foldlM_cons] at hq
    obtain ⟨p₃, hp₃, -⟩ := Option.bind_eq_some_iff.mp hq
    have hsame : ∀ i, p₂.children? i = p.children? i := by
      refine List.foldlM_invariant (I := fun q => ∀ i, q.children? i = p.children? i) ?_ hp₂ ?_
      · intro b a b' _ hb' hb i
        obtain ⟨d, hd⟩ := exists_maps_setDepth hb'
        rw [← hb i, children?, children?, hd.nodes, Option.map_map]
        rfl
      · intro i
        rw [children?, children?, (maps_update hp₁).nodes, Option.map_map]
        refine congrArg (fun g => (p.node? i).map g) (funext fun m => ?_)
        rw [Function.comp_apply]
        split <;> rfl
    obtain ⟨below, hbelow⟩ := ih hp₃
    exact ⟨below, hbelow.congr fun i _ => (hsame i).symm⟩

/-! ### Attaching -/

/-- The steps of adding an edge. -/
theorem addEdge_eq_some {flags : EdgeFlags} (hq : p.addEdge h c flags = some q) :
    ∃ p₁ owner, h < p.size ∧ c < p.size ∧ p₁.node? h = some owner ∧
      Maps (fun i n => { n with
        edges := if h = i then n.edges ++ [flags.to c] else n.edges
        parent := if c = i then some h else n.parent
        topMemo := none }) p p₁ ∧
      setDepth p₁.size c (owner.depth + flags.levels) p₁ = some q := by
  obtain ⟨p₁, hp₁, hq⟩ := Option.bind_eq_some_iff.mp hq
  obtain ⟨owner, howner, hq⟩ := Option.bind_eq_some_iff.mp hq
  obtain ⟨p₂, hp₂, hq⟩ := Option.bind_eq_some_iff.mp hq
  have hedit := maps_edit hp₁
  have hlink := maps_update hp₂
  obtain ⟨m, hm⟩ := exists_node_of_lt_size (hlink.size_eq ▸ lt_size_of_node? howner)
  refine ⟨p₂, m, lt_size_of_edit hp₁, hedit.size_eq ▸ lt_size_of_update hp₂, hm,
    (hedit.trans hlink).congr fun i n _ => ?_, ?_⟩
  · -- the end may be the owner
    by_cases hh : h = i <;> by_cases hc : c = i <;> simp [hh, hc]
  · have hdepth : m.depth = owner.depth := by
      rw [hlink.node?_eq_some howner, Option.some.injEq] at hm
      rw [← hm]
      split <;> rfl
    rw [hdepth]
    exact hq

/-- An edge becomes the last of its owner, the child links back, and depths are recorded. -/
theorem exists_maps_addEdge {flags : EdgeFlags} (hq : p.addEdge h c flags = some q) :
    h < p.size ∧ c < p.size ∧ ∃ d : Handle → UInt32, Maps (fun i n => { n with
      edges := if h = i then n.edges ++ [flags.to c] else n.edges
      parent := if c = i then some h else n.parent
      depth := d i
      topMemo := none }) p q := by
  obtain ⟨p₁, owner, hh, hc, -, hmaps, hdepth⟩ := addEdge_eq_some hq
  obtain ⟨d, hd⟩ := exists_maps_setDepth hdepth
  exact ⟨hh, hc, d, hmaps.trans hd⟩

theorem edgesTo_addEdge {flags : EdgeFlags} (hq : p.addEdge h c flags = some q) (i j : Handle) :
    q.edgesTo i j = p.edgesTo i j + if h = i ∧ c = j then 1 else 0 := by
  obtain ⟨hh, -, d, hmaps⟩ := exists_maps_addEdge hq
  by_cases hi : h = i
  · subst i
    obtain ⟨n, hn⟩ := exists_node_of_lt_size hh
    rw [edgesTo_of_node? (hmaps.node?_eq_some hn), edgesTo_of_node? hn]
    simp [Node.children, List.count_singleton]
  · rw [if_neg fun h => hi h.1, Nat.add_zero]
    exact hmaps.edgesTo_congr fun n => by simp [hi]

theorem parent?_addEdge {flags : EdgeFlags} (hq : p.addEdge h c flags = some q) (j : Handle) :
    q.parent? j = if c = j then some h else p.parent? j := by
  obtain ⟨-, hc, d, hmaps⟩ := exists_maps_addEdge hq
  split
  case isTrue hj =>
    subst j
    exact hmaps.parent?_const hc fun n => by simp
  case isFalse hj => exact hmaps.parent?_congr fun n => by simp [hj]

/-- An edge that leads back up is never added: recording the depths would not come to an end. -/
theorem not_above_of_addEdge {flags : EdgeFlags} (hq : p.addEdge h c flags = some q) :
    ¬ p.Above c h := by
  obtain ⟨p₁, owner, hh, -, -, hmaps, hdepth⟩ := addEdge_eq_some hq
  obtain ⟨below, hbelow⟩ := exists_spans_of_setDepth hdepth
  -- a way from the end to the owner, closed by the new edge, would be a cycle below the end
  intro habove
  have hmono : ∀ i j, p.Leads i j → p₁.Leads i j := by
    rintro i j ⟨n, hn, hj⟩
    refine ⟨_, hmaps.node?_eq_some hn, ?_⟩
    by_cases hi : h = i
    · simpa [Node.children, hi] using Or.inl hj
    · simpa [Node.children, hi] using hj
  have hnew : p₁.Leads h c := by
    obtain ⟨n, hn⟩ := exists_node_of_lt_size hh
    refine ⟨_, hmaps.node?_eq_some hn, ?_⟩
    simp [Node.children]
  have hway : TransGen p₁.Leads c c := TransGen.tail' (ReflTransGen.mono hmono c h habove) hnew
  exact hbelow.not_transGen hway

/-- An added edge stays in the arena and closes no cycle. -/
theorem Founded.addEdge {flags : EdgeFlags} (hp : p.Founded) (hq : p.addEdge h c flags = some q) :
    q.Founded := by
  obtain ⟨-, hc, d, hmaps⟩ := exists_maps_addEdge hq
  refine hp.of_insert (h := h) (c := c) (Nat.le_of_eq hmaps.size_eq.symm) (hmaps.size_eq.symm ▸ hc)
    (fun i j hlead => ?_) (not_above_of_addEdge hq)
  rw [leads_iff, edgesTo_addEdge hq] at hlead
  by_cases hij : h = i ∧ c = j
  · exact Or.inr ⟨hij.1.symm, hij.2.symm⟩
  · rw [if_neg hij, Nat.add_zero] at hlead
    exact Or.inl (leads_iff.mpr hlead)

/-! ### Detaching -/

/-- Removing an edge takes every edge to the child from its owner and unlinks the child, unless there
is none. -/
theorem removeEdge_cases {found : Bool} (hq : p.removeEdge h c = some (found, q)) :
    q = p ∧ ¬ p.Leads h c ∨ p.Leads h c ∧ c < p.size ∧ Maps (fun i n => { n with
      edges := if h = i then n.edges.filter (·.child ≠ c) else n.edges
      parent := if c = i then none else n.parent
      topMemo := none }) p q := by
  obtain ⟨owner, howner, hq⟩ := Option.bind_eq_some_iff.mp hq
  dsimp only at hq
  split at hq
  case isTrue hlength =>
    cases hq
    -- nothing was filtered out
    refine Or.inl ⟨rfl, ?_⟩
    rintro ⟨n, hn, hmem⟩
    cases howner.symm.trans hn
    obtain ⟨e, he, rfl⟩ := List.mem_map.mp hmem
    have hkept := List.length_filter_eq_length_iff.mp hlength e he
    simp at hkept
  case isFalse hlength =>
    obtain ⟨p₁, hp₁, hq⟩ := Option.bind_eq_some_iff.mp hq
    obtain ⟨p₂, hp₂, hq⟩ := Option.bind_eq_some_iff.mp hq
    cases hq
    have hmaps := ((maps_update hp₁).trans (maps_update hp₂)).trans (maps_forget p₂)
    refine Or.inr ⟨?_, size_update hp₁ ▸ lt_size_of_update hp₂, hmaps.congr fun i n hn => ?_⟩
    · -- something was filtered out, so the child is there
      refine ⟨owner, howner, ?_⟩
      by_contra hmem
      refine hlength (List.length_filter_eq_length_iff.mpr fun e he => ?_)
      have hne : e.child ≠ c := fun heq => hmem (List.mem_map.mpr ⟨e, he, heq⟩)
      simpa using hne
    · by_cases hi : h = i
      · subst i
        cases howner.symm.trans hn
        by_cases hc : c = h <;> simp [hc]
      · by_cases hc : c = i <;> simp [hi, hc]

theorem edgesTo_removeEdge {found : Bool} (hq : p.removeEdge h c = some (found, q))
    (i j : Handle) : q.edgesTo i j = if h = i ∧ c = j then 0 else p.edgesTo i j := by
  have hfilter : ∀ n : Node, (n.edges.filter (·.child ≠ c)).map (·.child)
      = n.children.filter (· ≠ c) := fun n => by
    rw [Node.children, List.filter_map]
    rfl
  rcases removeEdge_cases hq with ⟨rfl, hlead⟩ | ⟨⟨n, hn, -⟩, -, hmaps⟩
  · split
    case isTrue hij =>
      obtain ⟨rfl, rfl⟩ := hij
      exact edgesTo_eq_zero_iff.mpr hlead
    case isFalse => rfl
  · by_cases hi : h = i
    · subst i
      rw [edgesTo_of_node? (hmaps.node?_eq_some hn), edgesTo_of_node? hn]
      simp only [Node.children, if_true, hfilter]
      by_cases hj : c = j
      · -- the edge itself
        simp [hj, List.count_eq_zero]
      · simp [hj, List.count_filter, Ne.symm hj]
    · rw [if_neg fun hij => hi hij.1]
      exact hmaps.edgesTo_congr fun n => by simp [hi]

theorem parent?_removeEdge {found : Bool} (hq : p.removeEdge h c = some (found, q)) (j : Handle) :
    q.parent? j = if 0 < p.edgesTo h c ∧ c = j then none else p.parent? j := by
  rcases removeEdge_cases hq with ⟨rfl, hlead⟩ | ⟨hlead, hc, hmaps⟩
  · rw [if_neg fun hj => hlead (leads_iff.mpr hj.1)]
  · have hpos := leads_iff.mp hlead
    by_cases hj : c = j
    · subst j
      rw [if_pos ⟨hpos, rfl⟩]
      exact hmaps.parent?_const hc fun n => by simp
    · rw [if_neg fun h => hj h.2]
      exact hmaps.parent?_congr fun n => by simp [hj]

/-- Unlinking one child after another. -/
theorem maps_unlink {es : List Edge}
    (hq : es.foldlM (fun p e => p.update e.child fun n => { n with parent := none }) p = some q) :
    Maps (fun i n => { n with
      parent := if i ∈ es.map (·.child) then none else n.parent }) p q := by
  induction es generalizing p with
  | nil =>
    cases hq
    exact (Maps.refl _).congr fun i n _ => by simp
  | cons e es ih =>
    rw [List.foldlM_cons] at hq
    obtain ⟨p₁, hp₁, hq⟩ := Option.bind_eq_some_iff.mp hq
    refine ((maps_update hp₁).trans (ih hq)).congr fun i n _ => ?_
    by_cases hi : e.child = i
    · simp [hi]
    · simp [hi, Ne.symm hi]

/-- Every child loses its link, and the node its edges. -/
theorem maps_clearEdges (hq : p.clearEdges h = some q) :
    ∃ owner, p.node? h = some owner ∧ Maps (fun i n => { n with
      edges := if h = i then [] else n.edges
      parent := if i ∈ owner.children then none else n.parent
      topMemo := none }) p q := by
  obtain ⟨owner, howner, hq⟩ := Option.bind_eq_some_iff.mp hq
  obtain ⟨p₁, hp₁, hq⟩ := Option.bind_eq_some_iff.mp hq
  obtain ⟨p₂, hp₂, hq⟩ := Option.bind_eq_some_iff.mp hq
  cases hq
  refine ⟨owner, howner, (((maps_update hp₁).trans (maps_unlink hp₂)).trans (maps_forget p₂)).congr
    fun i n _ => ?_⟩
  by_cases hi : h = i <;> simp [hi, Node.children]

/-- One child stays, linked to the node, and the others lose their links. -/
theorem maps_keepOnly {e : Edge} (hq : p.keepOnly h e = some q) :
    ∃ owner, p.node? h = some owner ∧ e.child < p.size ∧ Maps (fun i n => { n with
      edges := if h = i then [e] else n.edges
      parent := if e.child = i then some h else if i ∈ owner.children then none else n.parent
      topMemo := none }) p q := by
  obtain ⟨p₁, hp₁, hq⟩ := Option.bind_eq_some_iff.mp hq
  obtain ⟨p₂, hp₂, hq⟩ := Option.bind_eq_some_iff.mp hq
  obtain ⟨owner, howner, hclear⟩ := maps_clearEdges hp₁
  have hsize := (hclear.trans (maps_update hp₂)).size_eq
  refine ⟨owner, howner, hsize ▸ lt_size_of_update hq,
    ((hclear.trans (maps_update hp₂)).trans (maps_update hq)).congr fun i n _ => ?_⟩
  by_cases hi : h = i <;> by_cases hc : e.child = i <;> simp [hi, hc]

theorem edgesTo_clearEdges (hq : p.clearEdges h = some q) (i j : Handle) :
    q.edgesTo i j = if h = i then 0 else p.edgesTo i j := by
  obtain ⟨owner, howner, hmaps⟩ := maps_clearEdges hq
  split
  case isTrue hi =>
    subst i
    rw [edgesTo_of_node? (hmaps.node?_eq_some howner)]
    simp [Node.children]
  case isFalse hi => exact hmaps.edgesTo_congr fun n => by simp [hi]

theorem parent?_clearEdges (hq : p.clearEdges h = some q) (j : Handle) :
    q.parent? j = if 0 < p.edgesTo h j then none else p.parent? j := by
  obtain ⟨owner, howner, hmaps⟩ := maps_clearEdges hq
  simp only [edgesTo_of_node? howner, List.count_pos_iff]
  unfold parent?
  rw [hmaps.nodes]
  cases p.node? j <;> by_cases hj : j ∈ owner.children <;> simp [hj]

theorem edgesTo_keepOnly {e : Edge} (hq : p.keepOnly h e = some q) (i j : Handle) :
    q.edgesTo i j = if h = i then (if e.child = j then 1 else 0) else p.edgesTo i j := by
  obtain ⟨owner, howner, -, hmaps⟩ := maps_keepOnly hq
  split
  case isTrue hi =>
    subst i
    rw [edgesTo_of_node? (hmaps.node?_eq_some howner)]
    simp [Node.children, List.count_singleton]
  case isFalse hi => exact hmaps.edgesTo_congr fun n => by simp [hi]

theorem parent?_keepOnly {e : Edge} (hq : p.keepOnly h e = some q) (j : Handle) :
    q.parent? j
      = if e.child = j then some h else if 0 < p.edgesTo h j then none else p.parent? j := by
  obtain ⟨owner, howner, hchild, hmaps⟩ := maps_keepOnly hq
  split
  case isTrue hj =>
    subst j
    exact hmaps.parent?_const hchild fun n => by simp
  case isFalse hj =>
    simp only [edgesTo_of_node? howner, List.count_pos_iff]
    unfold parent?
    rw [hmaps.nodes]
    cases p.node? j <;> by_cases hmem : j ∈ owner.children <;> simp [hmem, hj]

/-! ### Pruning -/

theorem sparser_removeEdge {found : Bool} (hq : p.removeEdge h c = some (found, q)) :
    p.Sparser q := by
  rcases removeEdge_cases hq with ⟨rfl, -⟩ | ⟨-, -, hmaps⟩
  · exact .refl q
  · refine .of_maps hmaps (fun _ _ => rfl) fun i n e he => ?_
    dsimp only at he
    split at he
    · exact List.mem_of_mem_filter he
    · exact he

theorem sparser_clearEdges (hq : p.clearEdges h = some q) : p.Sparser q := by
  obtain ⟨owner, -, hmaps⟩ := maps_clearEdges hq
  refine .of_maps hmaps (fun _ _ => rfl) fun i n e he => ?_
  dsimp only at he
  split at he
  · cases he
  · exact he

/-- The edge that is kept need not be there any more, but it was there. -/
theorem Sparser.keepOnly {e : Edge} (hpq : p.Sparser q)
    (he : ∃ n, p.node? h = some n ∧ e ∈ n.edges) (hr : q.keepOnly h e = some r) : p.Sparser r := by
  obtain ⟨owner, -, -, hmaps⟩ := maps_keepOnly hr
  refine ⟨hmaps.root.trans hpq.root, fun i => ?_, fun i m hm e' he' => ?_⟩
  · rw [← hpq.depth i, depth?, depth?, hmaps.nodes, Option.map_map]
    rfl
  · obtain ⟨k, hk, rfl⟩ := hmaps.exists_node hm
    dsimp only at he'
    split at he'
    case isTrue hi =>
      rw [List.mem_singleton.mp he']
      exact hi ▸ he
    case isFalse => exact hpq.edges i k hk e' he'

section Pruning

variable {I : Pattern → Prop} {found : Bool}

theorem pruneEdges_invariant {visit : Handle → Pattern → Option (Bool × Pattern)} {es : List Edge}
    (hvisit : ∀ p q e found, e ∈ es → visit e.child p = some (found, q) → I p → I q)
    (hclear : ∀ p q, p.clearEdges h = some q → I p → I q)
    (hkeep : ∀ p q e, e ∈ es → p.keepOnly h e = some q → I p → I q)
    (hq : pruneEdges visit h es p = some (found, q)) (hp : I p) : I q := by
  induction es generalizing p with
  | nil =>
    -- no child has the code, and all edges go
    obtain ⟨q', hq', hq⟩ := Option.bind_eq_some_iff.mp hq
    cases hq
    exact hclear p q hq' hp
  | cons e es ih =>
    obtain ⟨⟨found', p₁⟩, hp₁, hq⟩ := Option.bind_eq_some_iff.mp hq
    have hI : I p₁ := hvisit p p₁ e found' List.mem_cons_self hp₁ hp
    cases found' with
    | true =>
      -- the code was found below this child
      obtain ⟨q', hq', hq⟩ := Option.bind_eq_some_iff.mp hq
      cases hq
      exact hkeep p₁ q e List.mem_cons_self hq' hI
    | false =>
      -- nothing found: the other children are tried on what the walk left
      exact ih (fun p q e found he => hvisit p q e found (List.mem_cons_of_mem _ he))
        (fun p q e he => hkeep p q e (List.mem_cons_of_mem _ he)) hq hI

/-- Pruning keeps an invariant that detaching the children of a node keeps, and keeping the child on
one edge.  The nodes come from a part of the arena that edges do not leave, and the edges kept are
edges that invariant patterns have. -/
theorem pruneFrom_invariant {S : Handle → Prop} {E : Handle → Edge → Prop} {code : Code}
    (hedge : ∀ p h n, I p → S h → p.node? h = some n → ∀ e ∈ n.edges, E h e ∧ S e.child)
    (hclear : ∀ p q h, S h → p.clearEdges h = some q → I p → I q)
    (hkeep : ∀ p q h e, S h → E h e → p.keepOnly h e = some q → I p → I q)
    (hq : pruneFrom code fuel h p = some (found, q)) (hh : S h) (hp : I p) : I q := by
  induction fuel generalizing h p q found with
  | zero => cases hq
  | succ fuel ih =>
    obtain ⟨n, hn, hq⟩ := Option.bind_eq_some_iff.mp hq
    split at hq
    · obtain ⟨q', hq', hq⟩ := Option.bind_eq_some_iff.mp hq
      cases hq
      exact hclear p q h hh hq' hp
    · exact pruneEdges_invariant (fun q r e found he hr => ih hr (hedge p h n hp hh hn e he).2)
        (fun q r => hclear q r h hh)
        (fun q r e he => hkeep q r h e hh (hedge p h n hp hh hn e he).1) hq hp

/-- Pruning a pattern takes edges from its reached nodes, and keeps an invariant on the way that
forgetting keeps, too. -/
theorem pruneTo_invariant {code : Code}
    (hclear : ∀ q r h, p.Sparser q → p.Reached h → q.clearEdges h = some r → I q → I r)
    (hkeep : ∀ q r h e, p.Sparser q → p.Reached h → (∃ n, p.node? h = some n ∧ e ∈ n.edges) →
      q.keepOnly h e = some r → I q → I r)
    (hforget : ∀ q, I q → I q.forget)
    (hq : p.pruneTo code = some (found, q)) (hp : I p) : p.Sparser q ∧ I q := by
  obtain ⟨⟨found', q'⟩, hq', hq⟩ := Option.bind_eq_some_iff.mp hq
  cases hq
  obtain ⟨hsparser, hI⟩ : p.Sparser q' ∧ I q' := by
    refine pruneFrom_invariant (I := fun q => p.Sparser q ∧ I q) (S := p.Reached)
      (E := fun h e => ∃ n, p.node? h = some n ∧ e ∈ n.edges) ?_ ?_ ?_ hq' .refl ⟨.refl p, hp⟩
    · intro q h m hq hh hm e he
      obtain ⟨n, hn, hmem⟩ := hq.1.edges h m hm e he
      exact ⟨⟨n, hn, hmem⟩, hh.leads ⟨n, hn, List.mem_map_of_mem hmem⟩⟩
    · exact fun q r h hh hr hq => ⟨hq.1.trans (sparser_clearEdges hr), hclear q r h hq.1 hh hr hq.2⟩
    · exact fun q r h e hh he hr hq => ⟨hq.1.keepOnly he hr, hkeep q r h e hq.1 hh he hr hq.2⟩
  exact ⟨hsparser.trans (.forget q'), hforget q' hI⟩

theorem sparser_pruneTo {code : Code} (hq : p.pruneTo code = some (found, q)) : p.Sparser q :=
  (pruneTo_invariant (I := fun _ => True) (fun _ _ _ _ _ _ _ => trivial)
    (fun _ _ _ _ _ _ _ _ _ => trivial) (fun _ _ => trivial) hq trivial).1

end Pruning

/-! ### Storing less -/

/-- A step of the walk that stores less. -/
theorem storeOnlyFrom_succ {tags : List String} {n : Node} (hn : p.node? h = some n)
    (hq : storeOnlyFrom tags (fuel + 1) h p = some q) :
    ∃ p₁ p₂, (p₁ = p ∨ p.update h Node.cleared = some p₁) ∧
      n.edges.foldlM (fun p e => storeOnlyFrom tags fuel e.child p) p₁ = some p₂ ∧
      p₂.forget = q := by
  rw [storeOnlyFrom, hn] at hq
  by_cases htag : tags.contains n.tag = true
  · simp only [Option.bind_eq_bind, Option.bind_some, htag, if_true] at hq
    obtain ⟨p₂, hp₂, hq⟩ := Option.bind_eq_some_iff.mp hq
    exact ⟨p, p₂, Or.inl rfl, hp₂, Option.some.inj hq⟩
  · simp only [Option.bind_eq_bind, Option.bind_some, htag] at hq
    obtain ⟨p₁, hp₁, hq⟩ := Option.bind_eq_some_iff.mp hq
    obtain ⟨p₂, hp₂, hq⟩ := Option.bind_eq_some_iff.mp hq
    exact ⟨p₁, p₂, Or.inr hp₁, hp₂, Option.some.inj hq⟩

/-- The patterns differ in what nodes store and in what they remember. -/
def Restores (p q : Pattern) : Prop :=
  ∃ (s : Handle → Stores) (m : Handle → Option Bool),
    Maps (fun i n => { n with stores := s i, topMemo := m i }) p q

theorem Restores.trans (hpq : p.Restores q) (hqr : q.Restores r) : p.Restores r := by
  obtain ⟨s, m, hpq⟩ := hpq
  obtain ⟨s', m', hqr⟩ := hqr
  exact ⟨s', m', hpq.trans hqr⟩

theorem Restores.refl (p : Pattern) : p.Restores p :=
  ⟨fun i => ((p.node? i).map (·.stores)).getD .none, fun i => ((p.node? i).map (·.topMemo)).getD none,
    (Maps.refl p).congr fun i n hn => by simp [hn]⟩

theorem restores_forget (p : Pattern) : p.Restores p.forget :=
  ⟨fun i => ((p.node? i).map (·.stores)).getD .none, fun _ => none,
    (maps_forget p).congr fun i n hn => by simp [hn]⟩

theorem restores_cleared (hq : p.update h Node.cleared = some q) : p.Restores q := by
  refine ⟨fun i => ((q.node? i).map (·.stores)).getD .none,
    fun i => ((q.node? i).map (·.topMemo)).getD none, (maps_update hq).congr fun i n hn => ?_⟩
  simp only [(maps_update hq).node?_eq_some hn]
  by_cases hi : h = i <;> simp [hi, Node.cleared]

/-- Storing less changes what nodes store, and lets every node forget. -/
theorem exists_maps_storeOnlyFrom {tags : List String}
    (hq : storeOnlyFrom tags fuel h p = some q) :
    ∃ s : Handle → Stores, Maps (fun i n => { n with stores := s i, topMemo := none }) p q := by
  -- on the way nodes may remember something; at the end of the walk they do not
  have hrestores : p.Restores q := by
    induction fuel generalizing h p q with
    | zero => cases hq
    | succ fuel ih =>
      obtain ⟨n, hn, -⟩ := Option.bind_eq_some_iff.mp hq
      obtain ⟨p₁, p₂, hp₁, hp₂, rfl⟩ := storeOnlyFrom_succ hn hq
      have hstart : p.Restores p₁ := hp₁.elim (fun heq => heq ▸ .refl p) restores_cleared
      have hloop : p.Restores p₂ :=
        List.foldlM_invariant (fun b e d _ hd hb => hb.trans (ih hd)) hp₂ hstart
      exact hloop.trans (restores_forget p₂)
  obtain ⟨s, m, hmaps⟩ := hrestores
  cases fuel with
  | zero => cases hq
  | succ fuel =>
    obtain ⟨n, hn, -⟩ := Option.bind_eq_some_iff.mp hq
    obtain ⟨p₁, p₂, -, -, rfl⟩ := storeOnlyFrom_succ hn hq
    exact ⟨s, forget_forget p₂ ▸ hmaps.trans (maps_forget p₂.forget)⟩

/-! ### Asking -/

/-- A question is answered if links lead from the node into a part of the arena where they stay and
never come back. -/
theorem exists_topReturning {S : Handle → Prop} (hnode : ∀ i, S i → i < p.size)
    (hlink : ∀ i j, S i → p.LinksTo i j → S j) (hacyclic : ∀ i, S i → ¬ TransGen p.LinksTo i i)
    (hh : h < p.size) (hparent : ∀ j, p.LinksTo h j → S j) :
    ∃ answer q, p.topReturning h = some (answer, q) := by
  obtain ⟨n, hn⟩ := exists_node_of_lt_size hh
  rw [topReturning, hn]
  cases hmemo : n.topMemo with
  | some answer => exact ⟨answer, p, by simp [hmemo]⟩
  | none =>
    have hwalk : ∃ answer, p.noneReturns p.size n.parent = some answer := by
      cases hj : n.parent with
      | none => exact ⟨true, by rw [noneReturns]⟩
      | some j => exact exists_noneReturns hnode hlink hacyclic (hparent j ⟨n, hn, hj⟩)
    obtain ⟨answer, hanswer⟩ := hwalk
    obtain ⟨q, hq⟩ := exists_update hh fun n : Node => { n with topMemo := some answer }
    exact ⟨answer, q, by simp [hmemo, hanswer, hq]⟩

/-- A question leaves a memo, if there was none. -/
theorem topReturning_cases {answer : Bool} (hq : p.topReturning h = some (answer, q)) :
    ∃ n, p.node? h = some n ∧ (n.topMemo = some answer ∧ q = p ∨
      n.topMemo = none ∧ p.noneReturns p.size n.parent = some answer ∧
        Maps (fun i n => if h = i then { n with topMemo := some answer } else n) p q) := by
  obtain ⟨n, hn, hq⟩ := Option.bind_eq_some_iff.mp hq
  refine ⟨n, hn, ?_⟩
  cases hmemo : n.topMemo with
  | some a =>
    rw [hmemo] at hq
    cases hq
    exact Or.inl ⟨rfl, rfl⟩
  | none =>
    rw [hmemo] at hq
    obtain ⟨a, ha, hq⟩ := Option.bind_eq_some_iff.mp hq
    obtain ⟨q', hq', hq⟩ := Option.bind_eq_some_iff.mp hq
    cases hq
    exact Or.inr ⟨rfl, ha, maps_update hq'⟩

end TwigAlgebra.Pattern
