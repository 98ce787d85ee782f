import TwigAlgebra.Proofs.Copies

/-!
# Drafting patterns

Patterns are drafted step by step, several at a time: a node is made or cloned, patterns grow, are
edited, pruned and copied, and copies go from one pattern into another.  What holds of every pattern
that can be drafted is an invariant of the steps.  It is enough to know what becomes of it in the
few ways in which a step changes an arena.

## Main definitions

* `NodeSource` — where a new node comes from.
* `Edit`, `Step` — what can be done to a pattern, and with the patterns at hand.
* `Step.top?` — the node that becomes the root of a new pattern.
* `Step.Fits`, `Step.StartsFresh`, `Step.KeepsTop`, `Step.StartsTop` — conditions on steps.
* `Made` — the patterns at hand after a run of steps that meet a condition.
* `Pattern.Alters` — attributes of nodes change.
* `Upholds` — the steps that meet a condition uphold an invariant.

## Main results

* `Edit.run_cases` — an edit changes attributes, adds an edge, removes edges, detaches children, or
  prunes.
* `Upholds.step`, `Upholds.made` — one step upholds the invariant, and so does every run.
-/

namespace TwigAlgebra

open Pattern

/-! ### Steps -/

/-- Where a new node comes from. -/
inductive NodeSource where
  /-- It is made. -/
  | make (code : Code) (ns tag : String) : NodeSource
  /-- It is the clone of the node in a slot of a pattern at hand. -/
  | clone (pattern : Nat) (slot : Handle) : NodeSource
  /-- It is marked as an attribute. -/
  | asAttribute (source : NodeSource) : NodeSource
  /-- What it stores is set. -/
  | storing (source : NodeSource) (stores : Stores) : NodeSource
  deriving DecidableEq, Repr

namespace NodeSource

/-- The new node; a clone keeps its edges, its link, its depth and its memo. -/
def node? (b : List Pattern) : NodeSource → Option Node
  | make code ns tag => some (.make code ns tag)
  | clone i h => do (← b[i]?).node? h
  | asAttribute s => do return { (← s.node? b) with isAttribute := true }
  | storing s stores => do return { (← s.node? b) with stores }

/-- The node is not a clone. -/
def Fresh : NodeSource → Prop
  | make _ _ _ => True
  | clone _ _ => False
  | asAttribute s => s.Fresh
  | storing s _ => s.Fresh

/-- A node that is not a clone is not nested. -/
theorem Fresh.depth_eq_zero {b : List Pattern} {s : NodeSource} {n : Node} (hs : s.Fresh)
    (hn : s.node? b = some n) : n.depth = 0 := by
  induction s generalizing n with
  | make code ns tag =>
    cases hn
    rfl
  | clone i h => cases hs
  | asAttribute s ih =>
    obtain ⟨m, hm, hn⟩ := Option.bind_eq_some_iff.mp hn
    cases hn
    exact (ih hs hm : m.depth = 0)
  | storing s stores ih =>
    obtain ⟨m, hm, hn⟩ := Option.bind_eq_some_iff.mp hn
    cases hn
    exact (ih hs hm : m.depth = 0)

end NodeSource

/-- What can be done to one pattern. -/
inductive Edit where
  /-- An edge is added. -/
  | addEdge (parent child : Handle) (flags : EdgeFlags) : Edit
  /-- The edges from one node to another are removed. -/
  | removeEdge (parent child : Handle) : Edit
  /-- The children of a node are detached. -/
  | clearEdges (h : Handle) : Edit
  /-- A variable is bound. -/
  | bind (h : Handle) (v : Variable) : Edit
  /-- Variables are unbound. -/
  | unbind (h : Handle) (names : List String) : Edit
  /-- What a node stores is set. -/
  | setStores (h : Handle) (stores : Stores) : Edit
  /-- What a node requires is set. -/
  | setRequires (h : Handle) (requires : Requires) : Edit
  /-- The test of a node is set. -/
  | setTest (h : Handle) (test : Option ValueTest) : Edit
  /-- The tag selection of a node is set. -/
  | setSelection (h : Handle) (on : Bool) (ns tag : String) : Edit
  /-- The identifier schemes of a node are set. -/
  | setIdKinds (h : Handle) (idKinds : IdKinds) : Edit
  /-- A node stores what another node stores, too. -/
  | mergeStores (h : Handle) (source : Node) : Edit
  /-- Only the path to a code is kept. -/
  | pruneTo (code : Code) : Edit
  /-- A subtree stores under the given tags only. -/
  | storeOnly (h : Handle) (tags : List String) : Edit
  deriving DecidableEq, Repr

/-- What an edit makes of a pattern. -/
def Edit.run (p : Pattern) : Edit → Option Pattern
  | addEdge parent child flags => p.addEdge parent child flags
  | removeEdge parent child => (p.removeEdge parent child).map Prod.snd
  | clearEdges h => p.clearEdges h
  | bind h v => p.bind h v
  | unbind h names => p.unbind h names
  | setStores h stores => p.setStores h stores
  | setRequires h requires => p.setRequires h requires
  | setTest h test => p.setTest h test
  | setSelection h on ns tag => p.setSelection h on ns tag
  | setIdKinds h idKinds => p.setIdKinds h idKinds
  | mergeStores h source => p.mergeStores h source
  | pruneTo code => (p.pruneTo code).map Prod.snd
  | storeOnly h tags => p.storeOnly h tags

/-- What can be done with the patterns at hand.  A pattern is named by its number. -/
inductive Step where
  /-- A new pattern starts with one node. -/
  | start (name : String) (source : NodeSource) : Step
  /-- A pattern takes a detached node. -/
  | addNode (i : Nat) (source : NodeSource) : Step
  /-- A pattern takes a node as a new child. -/
  | addChild (i : Nat) (parent : Handle) (source : NodeSource) (flags : EdgeFlags) : Step
  /-- A pattern is edited. -/
  | edit (i : Nat) (e : Edit) : Step
  /-- A virtual copy of the subtree of `h` in the `j`-th pattern goes under `target` in the `i`-th. -/
  | copyVirtual (i : Nat) (target : Handle) (j : Nat) (h : Handle) (c : Counters) : Step
  /-- Copies of the branches below `h` in the `j`-th pattern go under `target` in the `i`-th. -/
  | copyChildren (i : Nat) (target : Handle) (j : Nat) (h : Handle) : Step
  /-- A pattern is copied. -/
  | copy (i : Nat) : Step
  /-- A pattern is copied with a subtree of the `j`-th pattern in place of one of its own. -/
  | copyReplacing (i : Nat) (old : Handle) (j : Nat) (new : Handle) : Step
  /-- It is asked of a node whether no ancestor returns anything. -/
  | ask (i : Nat) (h : Handle) : Step
  deriving DecidableEq, Repr

namespace Step

/-- The patterns at hand after a step. -/
def run (b : List Pattern) : Step → Option (List Pattern)
  | start name s => do return b ++ [singleton name (← s.node? b)]
  | addNode i s => do return b.set i ((← b[i]?).addNode (← s.node? b)).2
  | addChild i parent s flags => do
    return b.set i (← (← b[i]?).addChild parent (← s.node? b) flags).2
  | edit i e => do return b.set i (← e.run (← b[i]?))
  | copyVirtual i target j h c => do
    return b.set i (← (← b[i]?).copyVirtual target (← b[j]?) h c).2.1
  | copyChildren i target j h => do return b.set i (← (← b[i]?).copyChildren target (← b[j]?) h)
  | copy i => do return b ++ [← (← b[i]?).copy]
  | copyReplacing i old j new => do
    return b ++ [← (← b[i]?).copyReplacing old (← b[j]?) new]
  | ask i h => do return b.set i (← (← b[i]?).topReturning h).2

/-- The node that becomes the root of a new pattern. -/
def top? (b : List Pattern) : Step → Option Node
  | start _ s => s.node? b
  | copy i => do
    let p ← b[i]?
    (p.node? p.root).map Node.detached
  | copyReplacing i old j new => do
    let p ← b[i]?
    let source ← b[j]?
    (if p.root = old then source.node? new else p.node? p.root).map Node.detached
  | _ => none

/-- A new pattern starts with a given node, or with the root of a copy. -/
theorem top?_cases {b : List Pattern} {s : Step} {n : Node} (htop : s.top? b = some n) :
    (∃ name source, s = .start name source ∧ source.node? b = some n) ∨
    (∃ i p m, s = .copy i ∧ b[i]? = some p ∧ p.node? p.root = some m ∧ n = m.detached) ∨
    ∃ i old j new p source m, s = .copyReplacing i old j new ∧ b[i]? = some p ∧
      b[j]? = some source ∧ (if p.root = old then source.node? new else p.node? p.root) = some m ∧
      n = m.detached := by
  cases s with
  | start name source => exact Or.inl ⟨name, source, rfl, htop⟩
  | copy i =>
    obtain ⟨p, hp, htop⟩ := Option.bind_eq_some_iff.mp htop
    obtain ⟨m, hm, rfl⟩ := Option.map_eq_some_iff.mp htop
    exact Or.inr (Or.inl ⟨i, p, m, rfl, hp, hm, rfl⟩)
  | copyReplacing i old j new =>
    obtain ⟨p, hp, htop⟩ := Option.bind_eq_some_iff.mp htop
    obtain ⟨source, hsource, htop⟩ := Option.bind_eq_some_iff.mp htop
    obtain ⟨m, hm, rfl⟩ := Option.map_eq_some_iff.mp htop
    exact Or.inr (Or.inr ⟨i, old, j, new, p, source, m, rfl, hp, hsource, hm, rfl⟩)
  | addNode i s => cases htop
  | addChild i parent s flags => cases htop
  | edit i e => cases htop
  | copyVirtual i target j h c => cases htop
  | copyChildren i target j h => cases htop
  | ask i h => cases htop

/-- Edges are added to nodes without a parent only, and not to the root.  That an edge does not lead
back up need not be asked: no such edge is ever added. -/
def Fits (b : List Pattern) : Step → Prop
  | edit i (.addEdge _ child _) => ∀ p, b[i]? = some p → child ≠ p.root ∧ p.parent? child = none
  | _ => True

/-- New patterns start with made nodes. -/
def StartsFresh : Step → Prop
  | start _ s => s.Fresh
  | _ => True

/-- In a copy, no node of another depth than `0` replaces the root. -/
def KeepsTop (b : List Pattern) : Step → Prop
  | copyReplacing i old j new => ∀ p source n, b[i]? = some p → b[j]? = some source →
    p.root = old → source.node? new = some n → n.depth = 0
  | _ => True

/-- No new pattern starts with a node that remembers an ancestor which returns something. -/
def StartsTop (b : List Pattern) : Step → Prop
  | start _ s => ∀ n, s.node? b = some n → n.topMemo ≠ some false
  | _ => True

end Step

/-- The patterns at hand after a run of steps, each of which meets the condition `ok` when it is
made. -/
inductive Made (ok : List Pattern → Step → Prop) : List Step → List Pattern → Prop
  /-- No step is made yet. -/
  | nothing : Made ok [] []
  /-- One more step is made. -/
  | step {ss : List Step} {b b' : List Pattern} (s : Step) (hb : Made ok ss b) (hs : ok b s)
      (hrun : s.run b = some b') : Made ok (ss ++ [s]) b'

/-! ### What a step changes -/

namespace Node

/-- Every bound variable records the code of the node. -/
def Recorded (n : Node) : Prop := ∀ v ∈ n.vars, v.node = some n.code

theorem Recorded.binding {n : Node} (hn : n.Recorded) (v : Variable) : (n.binding v).Recorded := by
  intro w hw
  rcases List.mem_append.mp hw with hw | hw
  · exact hn w hw
  · rw [List.mem_singleton.mp hw]
    rfl

/-- The node `m` is `n` with other attributes; its variables record it if those of `n` do. -/
structure Alters (n m : Node) : Prop where
  /-- The edges are the same. -/
  edges : m.edges = n.edges
  /-- The link is the same. -/
  parent : m.parent = n.parent
  /-- The depth is the same. -/
  depth : m.depth = n.depth
  /-- Variables record their node as before. -/
  recorded : n.Recorded → m.Recorded

theorem alters_self (n : Node) : n.Alters n := ⟨rfl, rfl, rfl, id⟩

theorem alters_selecting (n : Node) (on : Bool) (ns tag : String) :
    n.Alters (n.selecting on ns tag) := by
  cases on <;> exact ⟨rfl, rfl, rfl, id⟩

end Node

namespace Pattern

variable {p q : Pattern} {F : Handle → Node → Node} {h c : Handle} {n : Node}

/-- Attributes of nodes change, and nothing else. -/
structure Alters (p : Pattern) (F : Handle → Node → Node) (q : Pattern) : Prop
    extends Maps F p q where
  /-- What changes are attributes. -/
  alters : ∀ (i : Handle) (n : Node), n.Alters (F i n)

/-- Altered nodes forget, unless they store what they stored. -/
def Forgets (F : Handle → Node → Node) : Prop :=
  (∀ i n, (F i n).topMemo = none) ∨
    ∀ i n, (F i n).stores = n.stores ∧ (F i n).topMemo = n.topMemo

theorem exists_alters_edit {f : Node → Node} (hq : p.edit h f = some q)
    (hf : ∀ n : Node, n.Alters (f n)) (hmemo : ∀ n, (f n).topMemo = n.topMemo) :
    ∃ F, p.Alters F q ∧ Forgets F := by
  refine ⟨_, ⟨maps_edit hq, fun i n => ?_⟩, Or.inl fun i n => ?_⟩
  · have hself : n.Alters { n with topMemo := none } := ⟨rfl, rfl, rfl, id⟩
    split
    · obtain ⟨hedges, hparent, hdepth, hrecorded⟩ := hf { n with topMemo := none }
      exact ⟨hedges, hparent, hdepth, hrecorded⟩
    · exact hself
  · show (if h = i then _ else _ : Node).topMemo = none
    split
    · exact hmemo _
    · rfl

theorem exists_alters_unbind {names : List String} (hq : p.unbind h names = some q) :
    ∃ F, p.Alters F q ∧ Forgets F := by
  refine ⟨_, ⟨maps_update hq, fun i n => ?_⟩, Or.inr fun i n => ?_⟩
  · split
    · exact ⟨rfl, rfl, rfl, fun hn v hv => hn v (List.mem_of_mem_filter hv)⟩
    · exact n.alters_self
  · show (if h = i then _ else _ : Node).stores = _ ∧ (if h = i then _ else _ : Node).topMemo = _
    split <;> exact ⟨rfl, rfl⟩

theorem exists_alters_storeOnly {tags : List String} (hq : p.storeOnly h tags = some q) :
    ∃ F, p.Alters F q ∧ Forgets F := by
  obtain ⟨s, hs⟩ := exists_maps_storeOnlyFrom hq
  exact ⟨_, ⟨hs, fun _ _ => ⟨rfl, rfl, rfl, id⟩⟩, Or.inl fun _ _ => rfl⟩

/-- A question changes memos only. -/
theorem exists_alters_topReturning {answer : Bool} (hq : p.topReturning h = some (answer, q)) :
    ∃ F, p.Alters F q := by
  obtain ⟨n, -, ⟨-, rfl⟩ | ⟨-, -, hmaps⟩⟩ := topReturning_cases hq
  · exact ⟨_, .refl q, fun _ n => n.alters_self⟩
  · refine ⟨_, hmaps, fun i n => ?_⟩
    split
    · exact ⟨rfl, rfl, rfl, id⟩
    · exact n.alters_self

theorem Alters.edgesTo_eq (hpq : p.Alters F q) (h c : Handle) : q.edgesTo h c = p.edgesTo h c :=
  hpq.edgesTo_congr fun n => (hpq.alters h n).edges

theorem Alters.parent?_eq (hpq : p.Alters F q) (c : Handle) : q.parent? c = p.parent? c :=
  hpq.parent?_congr fun n => (hpq.alters c n).parent

theorem Alters.sparser (hpq : p.Alters F q) : p.Sparser q :=
  .of_maps hpq.toMaps (fun i n => (hpq.alters i n).depth) fun i n => by
    rw [(hpq.alters i n).edges]
    exact List.Subset.refl _

/-- A new child is a new node with an edge to it. -/
theorem addChild_eq_some {flags : EdgeFlags} (hq : p.addChild h n flags = some (c, q)) :
    c = p.size ∧ (p.addNode n).2.addEdge h p.size flags = some q := by
  obtain ⟨q', hq', hq⟩ := Option.bind_eq_some_iff.mp hq
  cases hq
  exact ⟨rfl, hq'⟩

end Pattern

/-- An edit changes attributes, adds an edge, removes edges, detaches children, or prunes. -/
theorem Edit.run_cases {p q : Pattern} {e : Edit} (hq : e.run p = some q) :
    (∃ F, p.Alters F q ∧ Forgets F) ∨
    (∃ parent child flags, e = .addEdge parent child flags ∧
      p.addEdge parent child flags = some q) ∨
    (∃ parent child found, p.removeEdge parent child = some (found, q)) ∨
    (∃ h, p.clearEdges h = some q) ∨ ∃ code found, p.pruneTo code = some (found, q) := by
  cases e with
  | addEdge parent child flags => exact Or.inr (Or.inl ⟨parent, child, flags, rfl, hq⟩)
  | removeEdge parent child =>
    obtain ⟨⟨found, q'⟩, hq', rfl⟩ := Option.map_eq_some_iff.mp hq
    exact Or.inr (Or.inr (Or.inl ⟨parent, child, found, hq'⟩))
  | clearEdges h => exact Or.inr (Or.inr (Or.inr (Or.inl ⟨h, hq⟩)))
  | pruneTo code =>
    obtain ⟨⟨found, q'⟩, hq', rfl⟩ := Option.map_eq_some_iff.mp hq
    exact Or.inr (Or.inr (Or.inr (Or.inr ⟨code, found, hq'⟩)))
  | bind h v =>
    -- the variable is bound under the code of the node
    exact Or.inl (exists_alters_edit hq (fun n => ⟨rfl, rfl, rfl, fun hn => hn.binding v⟩)
      fun _ => rfl)
  | setSelection h on ns tag =>
    exact Or.inl (exists_alters_edit hq (fun n => n.alters_selecting on ns tag)
      fun n => by cases on <;> rfl)
  | unbind h names => exact Or.inl (exists_alters_unbind hq)
  | storeOnly h tags => exact Or.inl (exists_alters_storeOnly hq)
  | setStores h stores =>
    exact Or.inl (exists_alters_edit hq (fun n => ⟨rfl, rfl, rfl, id⟩) fun _ => rfl)
  | setRequires h requires =>
    exact Or.inl (exists_alters_edit hq (fun n => ⟨rfl, rfl, rfl, id⟩) fun _ => rfl)
  | setTest h test =>
    exact Or.inl (exists_alters_edit hq (fun n => ⟨rfl, rfl, rfl, id⟩) fun _ => rfl)
  | setIdKinds h idKinds =>
    exact Or.inl (exists_alters_edit hq (fun n => ⟨rfl, rfl, rfl, id⟩) fun _ => rfl)
  | mergeStores h source =>
    exact Or.inl (exists_alters_edit hq (fun n => ⟨rfl, rfl, rfl, id⟩) fun _ => rfl)

/-! ### Invariants of steps -/

/-- A property that new nodes have, and that nodes keep wherever a step takes them. -/
structure Node.Lasting (N : Node → Prop) : Prop where
  /-- Made nodes have it. -/
  make : ∀ code ns tag, N (.make code ns tag)
  /-- Attributes keep it. -/
  asAttribute : ∀ n, N n → N { n with isAttribute := true }
  /-- It does not depend on what is stored. -/
  storing : ∀ n stores, N n → N { n with stores }
  /-- Detached nodes keep it. -/
  detached : ∀ n, N n → N n.detached
  /-- Virtual nodes keep it. -/
  asVirtual : ∀ n code, N n → N (n.asVirtual code)

theorem NodeSource.lasting {N : Node → Prop} (hN : Node.Lasting N) {b : List Pattern}
    (hb : ∀ p ∈ b, ∀ h n, p.node? h = some n → N n) {s : NodeSource} {n : Node}
    (hn : s.node? b = some n) : N n := by
  induction s generalizing n with
  | make code ns tag =>
    cases hn
    exact hN.make code ns tag
  | clone i h =>
    obtain ⟨p, hp, hn⟩ := Option.bind_eq_some_iff.mp hn
    exact hb p (List.mem_of_getElem? hp) h n hn
  -- what is built on another source has the property because that one has
  | asAttribute s ih =>
    obtain ⟨m, hm, hn⟩ := Option.bind_eq_some_iff.mp hn
    cases hn
    exact hN.asAttribute m (ih hm)
  | storing s stores ih =>
    obtain ⟨m, hm, hn⟩ := Option.bind_eq_some_iff.mp hn
    cases hn
    exact hN.storing m stores (ih hm)

/-- Steps that meet the condition `ok` uphold the invariant `I` of patterns, whose nodes have the
property `N`. -/
structure Upholds (ok : List Pattern → Step → Prop) (N : Node → Prop) (I : Pattern → Prop) :
    Prop where
  /-- The property of nodes lasts. -/
  lasting : Node.Lasting N
  /-- It holds of the nodes of patterns. -/
  nodes : ∀ p, I p → ∀ h n, p.node? h = some n → N n
  /-- The root is a slot. -/
  root_lt : ∀ p, I p → p.root < p.size
  /-- New patterns start with the invariant. -/
  start : ∀ b s name n, (∀ p ∈ b, I p) → ok b s → s.top? b = some n → N n → I (singleton name n)
  /-- New nodes uphold it. -/
  addNode : ∀ p n, N n → I p → I (p.addNode n).2
  /-- Edges to nodes without a parent uphold it, if they do not lead to the root. -/
  addEdge : ∀ p q h c flags, c ≠ p.root → p.parent? c = none → p.addEdge h c flags = some q →
    I p → I q
  /-- Edits uphold it. -/
  edit : ∀ b i p q e, ok b (.edit i e) → b[i]? = some p → e.run p = some q → I p → I q
  /-- Questions uphold it. -/
  ask : ∀ p q h answer, p.topReturning h = some (answer, q) → I p → I q

namespace Upholds

variable {ok : List Pattern → Step → Prop} {N : Node → Prop} {I : Pattern → Prop}
  {b b' : List Pattern}

theorem labels (hI : Upholds ok N I) {p : Pattern} {h : Handle} {t : Tree} (hp : I p)
    (ht : p.extract h = some t) : ∀ n ∈ t.labels, N n := by
  intro n hn
  obtain ⟨i, m, hm, rfl⟩ := mem_labels_extract ht hn
  exact hI.lasting.detached m (hI.nodes p hp i m hm)

/-- New children uphold the invariant. -/
theorem addChild (hI : Upholds ok N I) {p q : Pattern} {h c : Handle} {n : Node} {flags : EdgeFlags}
    (hn : N n) (hq : p.addChild h n flags = some (c, q)) (hp : I p) : I q := by
  obtain ⟨-, hq'⟩ := addChild_eq_some hq
  refine hI.addEdge _ q h p.size flags ?_ ?_ hq' (hI.addNode p n hn hp)
  · rw [root_addNode]
    exact Nat.ne_of_gt (hI.root_lt p hp)
  · rw [parent?_addNode, parent?, node?_eq_none_iff.mpr (Nat.le_refl _), Option.bind_none]

/-- Grafting upholds the invariant. -/
theorem graft (hI : Upholds ok N I) {p q : Pattern} {target c : Handle} {t : Tree}
    {flags : EdgeFlags} (ht : ∀ n ∈ t.labels, N n) (hq : t.graft target flags p = some (c, q))
    (hp : I p) : I q :=
  Tree.graft_invariant (fun _ _ _ _ n _ hn => hI.addChild (ht n hn)) hq hp

/-- A copy is a new pattern: it starts with its root, and takes the other nodes as children. -/
theorem toPattern (hI : Upholds ok N I) (hb : ∀ p ∈ b, I p) {s : Step} (hs : ok b s) {q : Pattern}
    {t : Tree} {name : String} (ht : ∀ n ∈ t.labels, N n) (htop : s.top? b = some t.label)
    (hq : t.toPattern name = some q) : I q :=
  Tree.toPattern_invariant (hI.start b s name t.label hb hs htop (ht _ List.mem_cons_self))
    (fun _ _ _ _ n _ hn => hI.addChild (ht n hn)) hq

theorem set (hb : ∀ p ∈ b, I p) {i : Nat} {q : Pattern} (hq : I q) : ∀ p ∈ b.set i q, I p := by
  intro p hp
  rcases List.mem_or_eq_of_mem_set hp with hp | rfl
  · exact hb p hp
  · exact hq

theorem append (hb : ∀ p ∈ b, I p) {q : Pattern} (hq : I q) : ∀ p ∈ b ++ [q], I p := by
  intro p hp
  rcases List.mem_append.mp hp with hp | hp
  · exact hb p hp
  · rwa [List.mem_singleton.mp hp]

/-- A step that meets the condition upholds the invariant. -/
theorem step (hI : Upholds ok N I) {s : Step} (hs : ok b s) (hrun : s.run b = some b')
    (hb : ∀ p ∈ b, I p) : ∀ p ∈ b', I p := by
  -- a cloned node has the property because its pattern has the invariant
  have hnode : ∀ {s : NodeSource} {n : Node}, s.node? b = some n → N n := fun hn =>
    NodeSource.lasting hI.lasting (fun p hp => hI.nodes p (hb p hp)) hn
  have hat : ∀ {i : Nat} {p : Pattern}, b[i]? = some p → I p := fun hp =>
    hb _ (List.mem_of_getElem? hp)
  cases s with
  | start name s =>
    obtain ⟨n, hn, hrun⟩ := Option.bind_eq_some_iff.mp hrun
    cases hrun
    exact append hb (hI.start b _ name n hb hs hn (hnode hn))
  | addNode i s =>
    obtain ⟨p, hp, hrun⟩ := Option.bind_eq_some_iff.mp hrun
    obtain ⟨n, hn, hrun⟩ := Option.bind_eq_some_iff.mp hrun
    cases hrun
    exact set hb (hI.addNode p n (hnode hn) (hat hp))
  | addChild i parent s flags =>
    obtain ⟨p, hp, hrun⟩ := Option.bind_eq_some_iff.mp hrun
    obtain ⟨n, hn, hrun⟩ := Option.bind_eq_some_iff.mp hrun
    obtain ⟨⟨c, q⟩, hq, hrun⟩ := Option.bind_eq_some_iff.mp hrun
    cases hrun
    exact set hb (hI.addChild (hnode hn) hq (hat hp))
  | edit i e =>
    obtain ⟨p, hp, hrun⟩ := Option.bind_eq_some_iff.mp hrun
    obtain ⟨q, hq, hrun⟩ := Option.bind_eq_some_iff.mp hrun
    cases hrun
    exact set hb (hI.edit b i p q e hs hp hq (hat hp))
  | copyVirtual i target j h c =>
    obtain ⟨p, hp, hrun⟩ := Option.bind_eq_some_iff.mp hrun
    obtain ⟨source, hsource, hrun⟩ := Option.bind_eq_some_iff.mp hrun
    obtain ⟨⟨answer, q, c'⟩, hq, hrun⟩ := Option.bind_eq_some_iff.mp hrun
    cases hrun
    rcases copyVirtual_cases hq with ⟨-, -, -, -, rfl, -⟩ | ⟨e, t, new, -, ht, hgraft, -, -⟩
    · -- refused
      exact set hb (hat hp)
    · -- the nodes that are grafted were taken out of the source
      refine set hb (hI.graft (fun n hn => ?_) hgraft (hat hp))
      obtain ⟨m, hm, code, rfl⟩ := Tree.mem_labels_asVirtual hn
      exact hI.lasting.asVirtual m code (hI.labels (hat hsource) ht m hm)
  | copyChildren i target j h =>
    obtain ⟨p, hp, hrun⟩ := Option.bind_eq_some_iff.mp hrun
    obtain ⟨source, hsource, hrun⟩ := Option.bind_eq_some_iff.mp hrun
    obtain ⟨q, hq, hrun⟩ := Option.bind_eq_some_iff.mp hrun
    cases hrun
    -- the branches are grafted one by one
    exact set hb (copyChildren_invariant (fun p q t i c flags ht hq hp =>
      hI.graft (hI.labels (hat hsource) ht) hq hp) hq (hat hp))
  | copy i =>
    obtain ⟨p, hp, hrun⟩ := Option.bind_eq_some_iff.mp hrun
    obtain ⟨q, hq, hrun⟩ := Option.bind_eq_some_iff.mp hrun
    cases hrun
    obtain ⟨t, ht, hq⟩ := copy_eq_some hq
    obtain ⟨n, hn, hlabel⟩ := label_of_extract ht
    have htop : (Step.copy i).top? b = some t.label := by
      rw [Step.top?, hp]
      simp [hn, hlabel]
    exact append hb (hI.toPattern hb hs (hI.labels (hat hp) ht) htop hq)
  | copyReplacing i old j new =>
    obtain ⟨p, hp, hrun⟩ := Option.bind_eq_some_iff.mp hrun
    obtain ⟨source, hsource, hrun⟩ := Option.bind_eq_some_iff.mp hrun
    obtain ⟨q, hq, hrun⟩ := Option.bind_eq_some_iff.mp hrun
    cases hrun
    obtain ⟨t, n, hq, hn, hlabel, hnodes⟩ := copyReplacing_eq_some hq
    -- the nodes come from both patterns, and the root may come from the second
    have hlabels : ∀ m ∈ t.labels, N m := by
      intro m hm
      rcases hnodes m hm with ⟨i, k, hk, rfl⟩ | ⟨i, k, hk, rfl⟩
      · exact hI.lasting.detached k (hI.nodes p (hat hp) i k hk)
      · exact hI.lasting.detached k (hI.nodes source (hat hsource) i k hk)
    have htop : (Step.copyReplacing i old j new).top? b = some t.label := by
      rw [Step.top?, hp, hsource]
      simp [hn, hlabel]
    exact append hb (hI.toPattern hb hs hlabels htop hq)
  | ask i h =>
    obtain ⟨p, hp, hrun⟩ := Option.bind_eq_some_iff.mp hrun
    obtain ⟨⟨answer, q⟩, hq, hrun⟩ := Option.bind_eq_some_iff.mp hrun
    cases hrun
    exact set hb (hI.ask p q h answer hq (hat hp))

/-- Every pattern that steps can make has the invariant. -/
theorem made (hI : Upholds ok N I) {ss : List Step} (hb : Made ok ss b) : ∀ p ∈ b, I p := by
  induction hb with
  | nothing => exact nofun
  | step s _ hs hrun ih => exact hI.step hs hrun ih

end Upholds

/-! ### A draft -/

/-- A catalogue on its own. -/
def catalogue : Pattern := .singleton "catalogue" (.make ⟨0⟩ "" "catalogue")

/-- A book with its title on a nested edge. -/
def book : Pattern where
  name := "book"
  nodes := #[{ Node.make ⟨0⟩ "" "book" with edges := [⟨⟨true, true, false⟩, 1⟩] },
    { Node.make ⟨1⟩ "" "title" with depth := 1, parent := some 0 }]
  root := 0

/-- The steps by which the two are drafted. -/
def catalogueSteps : List Step :=
  [.start "catalogue" (.make ⟨0⟩ "" "catalogue"), .start "book" (.make ⟨0⟩ "" "book"),
    .addChild 1 0 (.make ⟨1⟩ "" "title") ⟨true, true, false⟩]

theorem made_catalogue {ok : List Pattern → Step → Prop}
    (hok : ∀ b, ∀ s ∈ catalogueSteps, ok b s) : Made ok catalogueSteps [catalogue, book] := by
  have hfirst : Made ok (catalogueSteps.take 1) [catalogue] :=
    .step _ .nothing (hok [] _ List.mem_cons_self) rfl
  have hsecond : Made ok (catalogueSteps.take 2)
      [catalogue, .singleton "book" (.make ⟨0⟩ "" "book")] :=
    .step _ hfirst (hok _ _ (List.mem_cons_of_mem _ List.mem_cons_self)) rfl
  exact .step _ hsecond
    (hok _ _ (List.mem_cons_of_mem _ (List.mem_cons_of_mem _ List.mem_cons_self))) (by decide +kernel)

end TwigAlgebra
