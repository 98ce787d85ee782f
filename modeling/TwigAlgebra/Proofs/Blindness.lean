import TwigAlgebra.Proofs.Drafting

/-!
# Steps do not look at memos

Only questions look at what nodes remember.  What any other operation makes of a pattern is the same,
but for memos, if every node forgets before, and a question changes nothing but memos.  So runs of
steps that differ in questions only come to the same patterns, but for memos.

## Main definitions

* `Pattern.Blind` — an outcome does not depend on what nodes remember.
* `Step.asks` — the step is a question.

## Main results

* `Edit.blind_run` — edits are blind.
* `Step.exists_run_of_forget_eq` — so are steps, but for questions, which change memos only.
* `Made.map_forget_eq` — runs that differ in questions only come to the same patterns, but for memos.
-/

namespace TwigAlgebra

/-- The node without its memo. -/
def Node.forget (n : Node) : Node := { n with topMemo := none }

namespace Pattern

variable {p q : Pattern} {h : Handle} {α β : Type}

/-- The outcome does not depend on what nodes remember. -/
def Blind (f : Pattern → α) : Prop := ∀ p, f p.forget = f p

namespace Blind

theorem comp {f : Pattern → α} (hf : Blind f) (g : α → β) : Blind fun p => g (f p) := fun p =>
  congrArg g (hf p)

theorem eq_of_forget_eq {f : Pattern → α} (hf : Blind f) (hpq : p.forget = q.forget) :
    f p = f q := by
  rw [← hf p, hpq, hf q]

/-- Patterns that differ in memos only become patterns that differ in memos only. -/
theorem exists_of_forget_eq {f : Pattern → Option Pattern} (hf : Blind fun p => (f p).map forget)
    {p' : Pattern} (hp : p.forget = p'.forget) (hq : f p = some q) :
    ∃ q', f p' = some q' ∧ q.forget = q'.forget := by
  have hsame : (f p).map forget = (f p').map forget := hf.eq_of_forget_eq hp
  rw [hq, Option.map_some] at hsame
  obtain ⟨q', hq', heq⟩ := Option.map_eq_some_iff.mp hsame.symm
  exact ⟨q', hq', heq.symm⟩

/-- What comes after may be blind in turn. -/
theorem bind {f : Pattern → Option Pattern} {g : Pattern → Option α}
    (hf : Blind fun p => (f p).map forget) (hg : Blind g) : Blind fun p => (f p).bind g := by
  intro p
  have hsame : (f p.forget).map forget = (f p).map forget := hf p
  cases hq : f p with
  | none =>
    rw [hq, Option.map_none, Option.map_eq_none_iff] at hsame
    simp only [hsame, hq, Option.bind_none]
  | some q =>
    obtain ⟨q', hq', hforget⟩ := hf.exists_of_forget_eq (forget_forget p).symm hq
    simp only [hq, hq', Option.bind_some]
    exact (hg.eq_of_forget_eq hforget).symm

/-- A node may be looked at, but not its memo. -/
theorem node {g : Node → Pattern → Option α} (hg : ∀ n, Blind (g n))
    (hmemo : ∀ n, g n.forget = g n) :
    Blind fun p => (p.node? h).bind fun n => g n p := by
  intro p
  simp only [node?_forget]
  cases p.node? h with
  | none => rfl
  | some n =>
    show g n.forget p.forget = g n p
    rw [hmemo, hg n p]

theorem foldlM {f : Pattern → β → Option Pattern} (hf : ∀ a, Blind fun p => (f p a).map forget)
    (l : List β) : Blind fun p => (l.foldlM f p).map forget := by
  induction l with
  | nil => exact fun p => congrArg some (forget_forget p)
  | cons a l ih =>
    intro p
    simp only [List.foldlM_cons, Option.bind_eq_bind, Option.map_bind]
    exact bind (hf a) ih p

end Blind

/-! ### Slots -/

theorem blind_forget : Blind forget := forget_forget

/-- Changing a node is blind if the change is. -/
theorem blind_update {f : Node → Node} (hf : ∀ n, (f n.forget).forget = (f n).forget)
    (h : Handle) : Blind fun p => (p.update h f).map forget := by
  intro p
  have hsize : p.forget.nodes.size = p.nodes.size := size_forget p
  simp only [update, hsize]
  split
  · refine congrArg some ?_
    simp only [forget, mk.injEq, true_and, and_true]
    refine Array.ext (by simp) fun i _ _ => ?_
    simp only [Array.getElem_map, Array.getElem_modify]
    split
    · exact hf _
    · rfl
  · rfl

/-- Changing memos only. -/
theorem forget_update {f : Node → Node} (hf : ∀ n, (f n).forget = n.forget)
    (hq : p.update h f = some q) : q.forget = p.forget := by
  unfold update at hq
  split at hq
  case isTrue =>
    cases hq
    simp only [forget, mk.injEq, true_and, and_true]
    refine Array.ext (by simp) fun i _ _ => ?_
    simp only [Array.getElem_map, Array.getElem_modify]
    split
    · exact hf _
    · rfl
  case isFalse => cases hq

@[simp] theorem edit_forget (p : Pattern) (h : Handle) (f : Node → Node) :
    p.forget.edit h f = p.edit h f := by
  rw [edit, edit, forget_forget]

theorem forget_addNode (p : Pattern) (n : Node) :
    (p.forget.addNode n).2.forget = (p.addNode n).2.forget := by
  simp only [addNode, forget, Array.map_push, Array.map_map]
  rfl

/-- A new node forgets. -/
theorem addNode_forget (p : Pattern) (n : Node) : p.addNode n.forget = p.addNode n := rfl

theorem singleton_forget (name : String) (n : Node) :
    (singleton name n).forget = singleton name n.forget := by
  simp only [forget, singleton, List.map_toArray, List.map_cons, List.map_nil]
  rfl

/-! ### Edges -/

@[simp] theorem addEdge_forget (p : Pattern) (h c : Handle) (flags : EdgeFlags) :
    p.forget.addEdge h c flags = p.addEdge h c flags := by
  rw [addEdge, addEdge, edit_forget]

@[simp] theorem addChild_forget (p : Pattern) (h : Handle) (n : Node) (flags : EdgeFlags) :
    p.forget.addChild h n flags = p.addChild h n flags := by
  have hnode : (p.forget.addNode n).2.addEdge h p.size flags
      = (p.addNode n).2.addEdge h p.size flags := by
    rw [← addEdge_forget, forget_addNode, addEdge_forget]
  show ((p.forget.addNode n).2.addEdge h p.forget.size flags).bind
      (fun q => some (p.forget.size, q)) = _
  rw [size_forget, hnode]
  rfl

theorem blind_unlinkAll (es : List Edge) : Blind fun p => (es.foldlM
    (fun (p : Pattern) e => p.update e.child fun n => { n with parent := none }) p).map forget :=
  Blind.foldlM (fun e => blind_update (fun _ => rfl) e.child) es

theorem blind_removeEdge (h c : Handle) :
    Blind fun p => (p.removeEdge h c).map fun r => r.2.forget := by
  intro p
  simp only [removeEdge, node?_forget]
  cases p.node? h with
  | none => rfl
  | some n =>
    simp only [Option.map_some, Option.bind_eq_bind, Option.bind_some]
    split
    · exact congrArg some (forget_forget p)
    · -- the edges go first, then the link up
      have hunlink : Blind fun p => ((p.update c fun n => { n with parent := none }).bind fun p =>
          some (true, p.forget)).map fun r => r.2.forget :=
        ((blind_update (fun _ => rfl) c).bind (blind_forget.comp fun q => some (true, q))).comp
          (Option.map fun r => r.2.forget)
      have hcut : Blind fun p => (p.update h fun n' =>
          { n' with edges := n.edges.filter (·.child ≠ c) }).map forget :=
        blind_update (fun _ => rfl) h
      simp only [Option.map_bind]
      exact hcut.bind hunlink p

@[simp] theorem clearEdges_forget (p : Pattern) (h : Handle) :
    p.forget.clearEdges h = p.clearEdges h := by
  refine Blind.node (g := fun owner p => do
    let p ← p.update h fun n => { n with edges := [] }
    let p ← owner.edges.foldlM (fun p e => p.update e.child fun n => { n with parent := none }) p
    return p.forget) (fun owner => ?_) (fun _ => rfl) p
  exact (blind_update (fun _ => rfl) h).bind
    ((blind_unlinkAll owner.edges).bind (blind_forget.comp some))

/-! ### Pruning -/

theorem pruneFrom_forget (code : Code) (fuel : Nat) (p : Pattern) (h : Handle) :
    pruneFrom code fuel h p.forget = pruneFrom code fuel h p := by
  induction fuel generalizing p h with
  | zero => rfl
  | succ fuel ih =>
    refine Blind.node (g := fun n p => if n.code = code then return (true, ← p.clearEdges h)
      else pruneEdges (pruneFrom code fuel) h n.edges p) (fun n p => ?_) (fun _ => rfl) p
    simp only [clearEdges_forget]
    cases n.edges with
    | nil => simp only [pruneEdges, clearEdges_forget]
    | cons e es => simp only [pruneEdges, ih]

@[simp] theorem pruneTo_forget (p : Pattern) (code : Code) : p.forget.pruneTo code = p.pruneTo code := by
  rw [pruneTo, pruneTo, size_forget, root_forget, pruneFrom_forget]

theorem storeOnlyFrom_forget (tags : List String) (fuel : Nat) (p : Pattern) (h : Handle) :
    storeOnlyFrom tags fuel h p.forget = storeOnlyFrom tags fuel h p := by
  induction fuel generalizing p h with
  | zero => rfl
  | succ fuel ih =>
    -- the loop over the children forgets at its end, whatever was remembered before
    have hloop : ∀ es : List Edge, Blind fun p => (es.foldlM
        (fun p e => storeOnlyFrom tags fuel e.child p) p).bind fun p => some p.forget := fun es =>
      (Blind.foldlM (fun e p => congrArg (Option.map forget) (ih p e.child)) es).bind
        (blind_forget.comp some)
    rw [storeOnlyFrom, storeOnlyFrom, node?_forget]
    cases p.node? h with
    | none => rfl
    | some n =>
      simp only [Option.map_some, Option.bind_eq_bind, Option.bind_some]
      split
      · -- the tag is kept
        exact (hloop n.edges).eq_of_forget_eq (forget_forget p)
      · -- the node is cleared before the loop
        exact (blind_update (fun _ => rfl) h).bind (hloop n.edges) p

@[simp] theorem storeOnly_forget (p : Pattern) (h : Handle) (tags : List String) :
    p.forget.storeOnly h tags = p.storeOnly h tags := by
  rw [storeOnly, storeOnly, size_forget, storeOnlyFrom_forget]

/-! ### Copies -/

theorem extractWith_forget (hole : Handle → Option (Option Tree)) (fuel : Nat) (p : Pattern)
    (h : Handle) : p.forget.extractWith hole fuel h = p.extractWith hole fuel h := by
  induction fuel generalizing h with
  | zero => rfl
  | succ fuel ih =>
    have hvisit : p.forget.extractWith hole fuel = p.extractWith hole fuel := funext ih
    rw [extractWith, extractWith, hvisit, node?_forget]
    cases hole h with
    | none => rfl
    | some o =>
      cases o with
      | some t => rfl
      | none => cases p.node? h <;> rfl

@[simp] theorem extract_forget (p : Pattern) (h : Handle) : p.forget.extract h = p.extract h := by
  rw [extract, extract, size_forget, extractWith_forget]

@[simp] theorem incomingEdge_forget (p : Pattern) (h : Handle) :
    p.forget.incomingEdge h = p.incomingEdge h := by
  rw [incomingEdge, incomingEdge, node?_forget]
  cases p.node? h with
  | none => rfl
  | some n =>
    simp only [Option.map_some, Option.bind_eq_bind, Option.bind_some]
    cases n.parent with
    | none => rfl
    | some i =>
      simp only [node?_forget]
      cases p.node? i <;> rfl

@[simp] theorem graft_forget (t : Tree) (p : Pattern) (target : Handle) (flags : EdgeFlags) :
    t.graft target flags p.forget = t.graft target flags p := by
  rw [Tree.graft, Tree.graft, addChild_forget]

@[simp] theorem copy_forget (p : Pattern) : p.forget.copy = p.copy := by
  rw [copy, copy, root_forget, extract_forget, name_forget]

theorem copyReplacing_forget (p source : Pattern) (old new : Handle) :
    p.forget.copyReplacing old source.forget new = p.copyReplacing old source new := by
  simp only [copyReplacing, extract_forget, size_forget, root_forget, name_forget,
    extractWith_forget]

theorem copyVirtual_forget (p source : Pattern) (target h : Handle) (k : Counters) :
    p.copyVirtual target source.forget h k = p.copyVirtual target source h k := by
  simp only [copyVirtual, incomingEdge_forget, extract_forget, node?_forget]
  cases source.node? h <;> rfl

/-- Patterns that differ in memos only take the same virtual copies, and both refuse the others. -/
theorem exists_copyVirtual_of_forget_eq {p' source : Pattern} {target : Handle}
    {answer : Except PlanError Handle} {k k' : Counters} (hp : p.forget = p'.forget)
    (hq : p.copyVirtual target source h k = some (answer, q, k')) :
    ∃ q', p'.copyVirtual target source h k = some (answer, q', k') ∧ q.forget = q'.forget := by
  rcases copyVirtual_cases hq with ⟨n, hnone, hn, rfl, rfl, rfl⟩ |
    ⟨e, t, c, he, ht, hgraft, rfl, rfl⟩
  · exact ⟨p', copyVirtual_eq_refused hnone hn k', hp⟩
  · rw [← graft_forget, hp, graft_forget] at hgraft
    exact ⟨q, copyVirtual_eq_grafted he ht hgraft, rfl⟩

theorem blind_copyChildren (source : Pattern) (target h : Handle) :
    Blind fun p => (p.copyChildren target source h).map forget := by
  intro p
  simp only [copyChildren]
  cases source.node? h with
  | none => rfl
  | some n => exact Blind.foldlM (fun e p => by simp only [graft_forget]) n.edges p

theorem copyChildren_forget (p source : Pattern) (target h : Handle) :
    p.copyChildren target source.forget h = p.copyChildren target source h := by
  simp only [copyChildren, extract_forget, node?_forget]
  cases source.node? h <;> rfl

/-! ### Questions -/

/-- A question changes memos only. -/
theorem forget_topReturning {answer : Bool} (hq : p.topReturning h = some (answer, q)) :
    q.forget = p.forget := by
  obtain ⟨n, -, hq⟩ := Option.bind_eq_some_iff.mp hq
  cases hmemo : n.topMemo with
  | some a =>
    rw [hmemo] at hq
    cases hq
    rfl
  | none =>
    rw [hmemo] at hq
    obtain ⟨a, -, hq⟩ := Option.bind_eq_some_iff.mp hq
    obtain ⟨q', hq', hq⟩ := Option.bind_eq_some_iff.mp hq
    cases hq
    exact forget_update (f := fun n => { n with topMemo := some answer }) (fun _ => rfl) hq'

end Pattern

open Pattern

/-! ### Steps -/

/-- Edits are blind. -/
theorem Edit.blind_run (e : Edit) : Blind fun p => (e.run p).map forget := by
  intro p
  cases e with
  | addEdge parent child flags => simp only [run, addEdge_forget]
  | removeEdge parent child =>
    simp only [run, Option.map_map]
    exact blind_removeEdge parent child p
  | clearEdges h => simp only [run, clearEdges_forget]
  | pruneTo code => simp only [run, pruneTo_forget]
  | storeOnly h tags => simp only [run, storeOnly_forget]
  | unbind h names => exact blind_update (fun _ => rfl) h p
  | bind h v => simp only [run, Pattern.bind, edit_forget]
  | setStores h stores => simp only [run, Pattern.setStores, edit_forget]
  | setRequires h requires => simp only [run, Pattern.setRequires, edit_forget]
  | setTest h test => simp only [run, Pattern.setTest, edit_forget]
  | setSelection h on ns tag => simp only [run, Pattern.setSelection, edit_forget]
  | setIdKinds h idKinds => simp only [run, Pattern.setIdKinds, edit_forget]
  | mergeStores h source => simp only [run, Pattern.mergeStores, edit_forget]

section

variable {b b' : List Pattern} {i : Nat} {p q : Pattern}

/-- Patterns at hand that differ in memos only. -/
theorem exists_getElem?_of_forget_eq (hb : b.map forget = b'.map forget) (hp : b[i]? = some p) :
    ∃ p', b'[i]? = some p' ∧ p.forget = p'.forget := by
  have hsame := congrArg (·[i]?) hb
  simp only [List.getElem?_map, hp, Option.map_some] at hsame
  obtain ⟨p', hp', heq⟩ := Option.map_eq_some_iff.mp hsame.symm
  exact ⟨p', hp', heq.symm⟩

theorem NodeSource.exists_node_of_forget_eq {s : NodeSource} {n : Node}
    (hb : b.map forget = b'.map forget) (hn : s.node? b = some n) :
    ∃ n', s.node? b' = some n' ∧ n.forget = n'.forget := by
  induction s generalizing n with
  | make code ns tag => exact ⟨n, hn, rfl⟩
  | clone i h =>
    obtain ⟨p, hp, hn⟩ := Option.bind_eq_some_iff.mp hn
    obtain ⟨p', hp', hpp'⟩ := exists_getElem?_of_forget_eq hb hp
    -- clones differ in memos only, like their patterns
    have hsame := congrArg (·.node? h) hpp'
    simp only [node?_forget, hn, Option.map_some] at hsame
    obtain ⟨n', hn', heq⟩ := Option.map_eq_some_iff.mp hsame.symm
    exact ⟨n', by rw [node?, hp']; exact hn', heq.symm⟩
  | asAttribute s ih =>
    obtain ⟨m, hm, hn⟩ := Option.bind_eq_some_iff.mp hn
    obtain ⟨m', hm', heq⟩ := ih hm
    cases hn
    exact ⟨{ m' with isAttribute := true }, by rw [node?, hm']; rfl,
      congrArg (fun n => { n with isAttribute := true }) heq⟩
  | storing s stores ih =>
    obtain ⟨m, hm, hn⟩ := Option.bind_eq_some_iff.mp hn
    obtain ⟨m', hm', heq⟩ := ih hm
    cases hn
    exact ⟨{ m' with stores }, by rw [node?, hm']; rfl,
      congrArg (fun n => { n with stores }) heq⟩

theorem map_forget_set {q' : Pattern} (hb : b.map forget = b'.map forget)
    (hq : q.forget = q'.forget) : (b.set i q).map forget = (b'.set i q').map forget := by
  rw [List.map_set, List.map_set, hb, hq]

theorem map_forget_append {q' : Pattern} (hb : b.map forget = b'.map forget)
    (hq : q.forget = q'.forget) : (b ++ [q]).map forget = (b' ++ [q']).map forget := by
  rw [List.map_append, List.map_append, hb, List.map_singleton, List.map_singleton, hq]

end

namespace Step

/-- The step is a question. -/
def asks : Step → Bool
  | ask _ _ => true
  | _ => false

variable {b b' c : List Pattern} {s : Step}

/-- Steps other than questions do the same, but for memos, to patterns that differ in memos only. -/
theorem exists_run_of_forget_eq (hs : s.asks = false) (hb : b.map forget = b'.map forget)
    (hrun : s.run b = some c) : ∃ c', s.run b' = some c' ∧ c.map forget = c'.map forget := by
  cases s with
  | start name s =>
    obtain ⟨n, hn, hrun⟩ := Option.bind_eq_some_iff.mp hrun
    obtain ⟨n', hn', heq⟩ := NodeSource.exists_node_of_forget_eq hb hn
    cases hrun
    -- the memo of a cloned node is kept, and may differ
    refine ⟨b' ++ [singleton name n'], by rw [run, hn']; rfl, map_forget_append hb ?_⟩
    rw [singleton_forget, singleton_forget, heq]
  | addNode i s =>
    obtain ⟨p, hp, hrun⟩ := Option.bind_eq_some_iff.mp hrun
    obtain ⟨n, hn, hrun⟩ := Option.bind_eq_some_iff.mp hrun
    obtain ⟨p', hp', hpp'⟩ := exists_getElem?_of_forget_eq hb hp
    obtain ⟨n', hn', heq⟩ := NodeSource.exists_node_of_forget_eq hb hn
    cases hrun
    refine ⟨b'.set i (p'.addNode n').2, by rw [run, hp']; simp [hn'], map_forget_set hb ?_⟩
    -- nodes that are put in remember nothing
    rw [← forget_addNode, ← addNode_forget, hpp', heq, addNode_forget, forget_addNode]
  | addChild i parent s flags =>
    obtain ⟨p, hp, hrun⟩ := Option.bind_eq_some_iff.mp hrun
    obtain ⟨n, hn, hrun⟩ := Option.bind_eq_some_iff.mp hrun
    obtain ⟨⟨k, q⟩, hq, hrun⟩ := Option.bind_eq_some_iff.mp hrun
    obtain ⟨p', hp', hpp'⟩ := exists_getElem?_of_forget_eq hb hp
    obtain ⟨n', hn', heq⟩ := NodeSource.exists_node_of_forget_eq hb hn
    cases hrun
    -- new edges let every node forget, so that the same pattern comes out
    have hq' : p'.addChild parent n' flags = some (k, q) := by
      rw [← hq, ← addChild_forget, ← addChild_forget p, hpp']
      show (p'.forget.addChild parent n'.forget flags) = p'.forget.addChild parent n.forget flags
      rw [heq]
    exact ⟨b'.set i q, by rw [run, hp']; simp [hn', hq'], map_forget_set hb rfl⟩
  | edit i e =>
    obtain ⟨p, hp, hrun⟩ := Option.bind_eq_some_iff.mp hrun
    obtain ⟨q, hq, hrun⟩ := Option.bind_eq_some_iff.mp hrun
    obtain ⟨p', hp', hpp'⟩ := exists_getElem?_of_forget_eq hb hp
    obtain ⟨q', hq', hqq'⟩ := e.blind_run.exists_of_forget_eq hpp' hq
    cases hrun
    exact ⟨b'.set i q', by rw [run, hp']; simp [hq'], map_forget_set hb hqq'⟩
  | copyVirtual i target j h k =>
    obtain ⟨p, hp, hrun⟩ := Option.bind_eq_some_iff.mp hrun
    obtain ⟨source, hsource, hrun⟩ := Option.bind_eq_some_iff.mp hrun
    obtain ⟨⟨answer, q, k'⟩, hq, hrun⟩ := Option.bind_eq_some_iff.mp hrun
    obtain ⟨p', hp', hpp'⟩ := exists_getElem?_of_forget_eq hb hp
    obtain ⟨source', hsource', hss'⟩ := exists_getElem?_of_forget_eq hb hsource
    -- the source is looked at only; the target is kept by a refusal
    rw [← copyVirtual_forget, hss', copyVirtual_forget] at hq
    obtain ⟨q', hq', hqq'⟩ := exists_copyVirtual_of_forget_eq hpp' hq
    cases hrun
    exact ⟨b'.set i q', by rw [run, hp', hsource']; simp [hq'], map_forget_set hb hqq'⟩
  | copyChildren i target j h =>
    obtain ⟨p, hp, hrun⟩ := Option.bind_eq_some_iff.mp hrun
    obtain ⟨source, hsource, hrun⟩ := Option.bind_eq_some_iff.mp hrun
    obtain ⟨q, hq, hrun⟩ := Option.bind_eq_some_iff.mp hrun
    obtain ⟨p', hp', hpp'⟩ := exists_getElem?_of_forget_eq hb hp
    obtain ⟨source', hsource', hss'⟩ := exists_getElem?_of_forget_eq hb hsource
    -- first the source is exchanged, then the target
    rw [← copyChildren_forget, hss', copyChildren_forget] at hq
    obtain ⟨q', hq', hqq'⟩ := (blind_copyChildren source' target h).exists_of_forget_eq hpp' hq
    cases hrun
    exact ⟨b'.set i q', by rw [run, hp', hsource']; simp [hq'], map_forget_set hb hqq'⟩
  | copy i =>
    obtain ⟨p, hp, hrun⟩ := Option.bind_eq_some_iff.mp hrun
    obtain ⟨q, hq, hrun⟩ := Option.bind_eq_some_iff.mp hrun
    obtain ⟨p', hp', hpp'⟩ := exists_getElem?_of_forget_eq hb hp
    -- copies are laid out from detached nodes, so that the same pattern comes out
    rw [← copy_forget, hpp', copy_forget] at hq
    cases hrun
    exact ⟨b' ++ [q], by rw [run, hp']; simp [hq], map_forget_append hb rfl⟩
  | copyReplacing i old j new =>
    obtain ⟨p, hp, hrun⟩ := Option.bind_eq_some_iff.mp hrun
    obtain ⟨source, hsource, hrun⟩ := Option.bind_eq_some_iff.mp hrun
    obtain ⟨q, hq, hrun⟩ := Option.bind_eq_some_iff.mp hrun
    obtain ⟨p', hp', hpp'⟩ := exists_getElem?_of_forget_eq hb hp
    obtain ⟨source', hsource', hss'⟩ := exists_getElem?_of_forget_eq hb hsource
    rw [← copyReplacing_forget, hpp', hss', copyReplacing_forget] at hq
    cases hrun
    exact ⟨b' ++ [q], by rw [run, hp', hsource']; simp [hq], map_forget_append hb rfl⟩
  | ask i h => cases hs

/-- A question changes memos only. -/
theorem map_forget_of_asks (hs : s.asks = true) (hrun : s.run b = some c) :
    c.map forget = b.map forget := by
  cases s with
  | ask i h =>
    obtain ⟨p, hp, hrun⟩ := Option.bind_eq_some_iff.mp hrun
    obtain ⟨⟨answer, q⟩, hq, hrun⟩ := Option.bind_eq_some_iff.mp hrun
    cases hrun
    obtain ⟨hi, rfl⟩ := List.getElem?_eq_some_iff.mp hp
    rw [List.map_set, forget_topReturning hq, ← List.map_set, List.set_getElem_self]
  | _ => cases hs

end Step

/-- What a run comes to if its questions are left out. -/
theorem Made.exists_foldlM {ok : List Pattern → Step → Prop} {ss : List Step} {b : List Pattern}
    (hb : Made ok ss b) : ∃ c, (ss.filter (!·.asks)).foldlM Step.run [] = some c ∧
      c.map forget = b.map forget := by
  induction hb with
  | nothing => exact ⟨[], rfl, rfl⟩
  | @step ss b b' s _ _ hrun ih =>
    obtain ⟨c, hc, hforget⟩ := ih
    rw [List.filter_append, List.foldlM_append, hc]
    cases hs : s.asks with
    -- a question: the shorter run stays where it was
    | true =>
      have hnone : [s].filter (!·.asks) = [] := by simp [hs]
      refine ⟨c, by rw [hnone]; rfl, ?_⟩
      rw [hforget, s.map_forget_of_asks hs hrun]
    | false =>
      have hself : [s].filter (!·.asks) = [s] := by simp [hs]
      obtain ⟨c', hc', hforget'⟩ := s.exists_run_of_forget_eq hs hforget.symm hrun
      refine ⟨c', ?_, hforget'.symm⟩
      rw [hself]
      simp [hc']

/-- Runs that differ in questions only come to the same patterns, but for memos. -/
theorem Made.map_forget_eq {ok ok' : List Pattern → Step → Prop} {ss ss' : List Step}
    {b b' : List Pattern} (hb : Made ok ss b) (hb' : Made ok' ss' b')
    (hss : ss.filter (!·.asks) = ss'.filter (!·.asks)) : b.map forget = b'.map forget := by
  obtain ⟨c, hc, hforget⟩ := hb.exists_foldlM
  obtain ⟨c', hc', hforget'⟩ := hb'.exists_foldlM
  rw [hss, hc'] at hc
  cases hc
  rw [← hforget, ← hforget']

end TwigAlgebra
