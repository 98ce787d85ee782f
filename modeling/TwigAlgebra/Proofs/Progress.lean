import TwigAlgebra.Proofs.Drafting
import TwigAlgebra.Proofs.Shedding

/-!
# Steps come to an end

An operation follows edges down or links up, and could lead to a missing slot or run in a cycle.  In
a drafted pattern it does neither, whatever was done before: edges stay in the arena and close no
cycle, and a link is always matched by an edge.  Every step that names slots which exist comes to an
end there.

## Main definitions

* `Pattern.Traced` — a link is matched by an edge.
* `Pattern.Grounded` — walks down and up come to an end in every slot.
* `Step.Within` — the slots that a step names exist, and it leads no edge back up.

## Main results

* `Pattern.upholds_grounded` — every step keeps walks finite.
* `Edit.exists_run`, `Step.exists_run` — edits and steps come to an end.
* `Step.exists_run_of_made` — every step within drafted patterns does.
-/

namespace TwigAlgebra

namespace Pattern

open Relation

variable {p q source : Pattern} {F : Handle → Node → Node} {h c i j target : Handle} {n : Node}

/-- A link is matched by an edge. -/
def Traced (p : Pattern) : Prop := ∀ c h, p.parent? c = some h → 0 < p.edgesTo h c

/-! ### Links -/

namespace Traced

theorem leads (hp : p.Traced) (hlink : p.LinksTo i j) : p.Leads j i :=
  leads_iff.mpr (hp i j (linksTo_iff.mp hlink))

theorem transGen (hp : p.Traced) (hway : TransGen p.LinksTo h i) : TransGen p.Leads i h := by
  induction hway with
  | single hlink => exact .single (hp.leads hlink)
  | tail _ hlink ih => exact .head (hp.leads hlink) ih

/-- The ancestors of a slot are slots. -/
theorem lt_size (hp : p.Traced) (hway : TransGen p.LinksTo h i) : i < p.size := by
  obtain ⟨c, hlead, -⟩ := TransGen.head'_iff.mp (hp.transGen hway)
  exact hlead.lt_size

theorem singleton (name : String) (n : Node) : (singleton name n).Traced := by
  intro c h hlink
  rw [parent?_singleton] at hlink
  cases hlink

theorem alters (hp : p.Traced) (hpq : p.Alters F q) : q.Traced := by
  intro c h hlink
  rw [hpq.parent?_eq] at hlink
  rw [hpq.edgesTo_eq]
  exact hp c h hlink

theorem addNode (hp : p.Traced) (n : Node) : (p.addNode n).2.Traced := by
  intro c h hlink
  rw [parent?_addNode] at hlink
  rw [edgesTo_addNode]
  exact hp c h hlink

theorem addEdge (hp : p.Traced) {flags : EdgeFlags} (hq : p.addEdge h c flags = some q) :
    q.Traced := by
  intro j i hlink
  rw [parent?_addEdge hq] at hlink
  rw [edgesTo_addEdge hq]
  split at hlink
  case isTrue hj =>
    cases hlink
    rw [if_pos ⟨rfl, hj⟩]
    exact Nat.succ_pos _
  case isFalse => exact Nat.lt_add_right _ (hp j i hlink)

theorem removeEdge (hp : p.Traced) {found : Bool} (hq : p.removeEdge h c = some (found, q)) :
    q.Traced := by
  intro j i hlink
  rw [parent?_removeEdge hq] at hlink
  split at hlink
  case isTrue => cases hlink
  case isFalse hkept =>
    have hpos := hp j i hlink
    rw [edgesTo_removeEdge hq, if_neg]
    · exact hpos
    · rintro ⟨rfl, rfl⟩
      exact hkept ⟨hpos, rfl⟩

theorem clearEdges (hp : p.Traced) (hq : p.clearEdges h = some q) : q.Traced := by
  intro j i hlink
  rw [parent?_clearEdges hq] at hlink
  split at hlink
  case isTrue => cases hlink
  case isFalse hkept =>
    have hpos := hp j i hlink
    rw [edgesTo_clearEdges hq, if_neg]
    · exact hpos
    · rintro rfl
      exact hkept hpos

theorem keepOnly (hp : p.Traced) {e : Edge} (hq : p.keepOnly h e = some q) : q.Traced := by
  intro j i hlink
  rw [parent?_keepOnly hq] at hlink
  rw [edgesTo_keepOnly hq]
  split at hlink
  case isTrue hj =>
    -- the one child that is kept
    cases hlink
    rw [if_pos rfl, if_pos hj]
    exact Nat.one_pos
  case isFalse =>
    split at hlink
    -- children that were detached are unlinked
    case isTrue => cases hlink
    case isFalse hkept =>
      -- other nodes keep their links, and the edges of the nodes that they link to
      have hpos := hp j i hlink
      rw [if_neg]
      · exact hpos
      · rintro rfl
        exact hkept hpos

theorem forget (hp : p.Traced) : p.forget.Traced :=
  hp.alters ⟨maps_forget p, fun _ _ => ⟨rfl, rfl, rfl, id⟩⟩

theorem pruneTo (hp : p.Traced) {code : Code} {found : Bool}
    (hq : p.pruneTo code = some (found, q)) : q.Traced :=
  (pruneTo_invariant (I := Traced) (fun _ _ _ _ _ hr hq => hq.clearEdges hr)
    (fun _ _ _ _ _ _ _ hr hq => hq.keepOnly hr) (fun _ hq => hq.forget) hq hp).2

end Traced

/-! ### Finite walks -/

/-- Walks down and up come to an end in every slot. -/
structure Grounded (p : Pattern) : Prop where
  /-- The root is a slot. -/
  root_lt : p.root < p.size
  /-- Edges stay in the arena and never come back. -/
  founded : p.Founded
  /-- A link is matched by an edge. -/
  traced : p.Traced

namespace Grounded

theorem singleton (name : String) (n : Node) : (singleton name n).Grounded :=
  ⟨Nat.one_pos, .singleton name n, .singleton name n⟩

theorem addNode (hp : p.Grounded) (n : Node) : (p.addNode n).2.Grounded where
  root_lt := by
    rw [root_addNode, size_addNode]
    exact Nat.lt_succ_of_lt hp.root_lt
  founded := hp.founded.addNode n
  traced := hp.traced.addNode n

theorem addEdge (hp : p.Grounded) {flags : EdgeFlags} (hq : p.addEdge h c flags = some q) :
    q.Grounded := by
  obtain ⟨-, -, d, hmaps⟩ := exists_maps_addEdge hq
  exact ⟨hmaps.root ▸ hmaps.size_eq ▸ hp.root_lt, hp.founded.addEdge hq, hp.traced.addEdge hq⟩

theorem sparser (hp : p.Grounded) (hpq : p.Sparser q) (htraced : q.Traced) : q.Grounded :=
  ⟨hpq.root ▸ hpq.size_eq ▸ hp.root_lt, hpq.founded hp.founded, htraced⟩

theorem alters (hp : p.Grounded) (hpq : p.Alters F q) : q.Grounded :=
  hp.sparser hpq.sparser (hp.traced.alters hpq)

theorem edit (hp : p.Grounded) {e : Edit} (hq : e.run p = some q) : q.Grounded := by
  rcases Edit.run_cases hq with ⟨F, hF, -⟩ | ⟨parent, child, flags, -, hq⟩ |
    ⟨parent, child, found, hq⟩ | ⟨h, hq⟩ | ⟨code, found, hq⟩
  · exact hp.alters hF
  · exact hp.addEdge hq
  · exact hp.sparser (sparser_removeEdge hq) (hp.traced.removeEdge hq)
  · exact hp.sparser (sparser_clearEdges hq) (hp.traced.clearEdges hq)
  · exact hp.sparser (sparser_pruneTo hq) (hp.traced.pruneTo hq)

end Grounded

/-- Every step keeps walks finite, edges to nodes that have a parent already included. -/
theorem upholds_grounded (ok : List Pattern → Step → Prop) :
    Upholds ok (fun _ => True) Grounded where
  lasting := ⟨fun _ _ _ => trivial, fun _ _ => trivial, fun _ _ _ => trivial, fun _ _ => trivial,
    fun _ _ _ => trivial⟩
  nodes _ _ _ _ _ := trivial
  root_lt _ hp := hp.root_lt
  start _ _ name n _ _ _ _ := .singleton name n
  addNode _ n _ hp := hp.addNode n
  addEdge _ _ _ _ _ _ _ hq hp := hp.addEdge hq
  edit _ _ _ _ _ _ _ hq hp := hp.edit hq
  ask _ _ _ _ hq hp := by
    obtain ⟨F, hF⟩ := exists_alters_topReturning hq
    exact hp.alters hF

/-! ### Walks over grounded patterns -/

namespace Grounded

theorem exists_spans (hp : p.Grounded) (hh : h < p.size) :
    ∃ below, p.Spans (.cons h below .nil) :=
  hp.founded.exists_spans hh

theorem exists_extract (hp : p.Grounded) (hh : h < p.size) : ∃ t, p.extract h = some t := by
  obtain ⟨below, hbelow⟩ := hp.exists_spans hh
  exact hbelow.exists_extract

theorem exists_topReturning (hp : p.Grounded) (hh : h < p.size) :
    ∃ answer q, p.topReturning h = some (answer, q) :=
  Pattern.exists_topReturning (S := fun i => i < p.size) (fun _ hi => hi)
    (fun _ _ _ hlink => hp.traced.lt_size (.single hlink))
    (fun i _ hway => hp.founded.acyclic i (hp.traced.transGen hway)) hh
    fun _ hlink => hp.traced.lt_size (.single hlink)

/-- The link of a slot leads to a node with an edge back, if there is one. -/
theorem exists_incomingEdge (hp : p.Grounded) (hh : h < p.size) :
    ∃ o, p.incomingEdge h = some o := by
  obtain ⟨n, hn⟩ := exists_node_of_lt_size hh
  rw [incomingEdge, hn]
  cases hparent : n.parent with
  | none => exact ⟨none, by simp [hparent]⟩
  | some i =>
    obtain ⟨m, hm, -⟩ := hp.traced.leads ⟨n, hn, hparent⟩
    exact ⟨m.edges.find? (·.child = h), by simp [hparent, hm]⟩

theorem exists_copy (hp : p.Grounded) : ∃ q, p.copy = some q := by
  obtain ⟨t, ht⟩ := hp.exists_extract hp.root_lt
  obtain ⟨q, hq⟩ := t.exists_toPattern p.name
  exact ⟨q, by rw [copy, ht]; exact hq⟩

theorem exists_copyReplacing (hp : p.Grounded) (hsource : source.Grounded) (old : Handle)
    {new : Handle} (hnew : new < source.size) : ∃ q, p.copyReplacing old source new = some q := by
  obtain ⟨below, hbelow⟩ := hp.exists_spans hp.root_lt
  obtain ⟨s, hs⟩ := hsource.exists_extract hnew
  have hhole : ∀ h : Handle, ∃ o : Option Tree,
      (if h = old then (source.extract new).map some else some none) = some o := by
    intro h
    split
    · exact ⟨some s, by rw [hs, Option.map_some]⟩
    · exact ⟨none, rfl⟩
  obtain ⟨t, ht⟩ := hbelow.exists_extractWith hhole (Nat.le_succ p.size)
  obtain ⟨q, hq⟩ := t.exists_toPattern p.name
  exact ⟨q, by rw [copyReplacing, ht]; exact hq⟩

theorem exists_copyChildren (hsource : source.Grounded) (htarget : target < p.size)
    (hh : h < source.size) : ∃ q, p.copyChildren target source h = some q := by
  obtain ⟨n, hn⟩ := exists_node_of_lt_size hh
  rw [copyChildren, hn]
  have hedges : ∀ e ∈ n.edges, ∃ t, source.extract e.child = some t := fun e he =>
    hsource.exists_extract (hsource.founded.closed h e.child ⟨n, hn, List.mem_map_of_mem he⟩)
  simp only [Option.bind_eq_bind, Option.bind_some]
  generalize n.edges = es at hedges
  -- the target stays a slot while branches come in
  induction es generalizing p with
  | nil => exact ⟨p, rfl⟩
  | cons e es ih =>
    obtain ⟨t, ht⟩ := hedges e List.mem_cons_self
    obtain ⟨c, p₁, hp₁, hle⟩ := t.exists_graft htarget e.toEdgeFlags
    obtain ⟨q, hq⟩ := ih (Nat.lt_of_lt_of_le htarget hle) fun e he =>
      hedges e (List.mem_cons_of_mem _ he)
    exact ⟨q, by rw [List.foldlM_cons, ht]; simpa [hp₁] using hq⟩

theorem exists_copyVirtual (hsource : source.Grounded) (htarget : target < p.size)
    (hh : h < source.size) (k : Counters) : ∃ r, p.copyVirtual target source h k = some r :=
  Pattern.exists_copyVirtual (hsource.exists_incomingEdge hh) (hsource.exists_extract hh) htarget k

end Grounded

end Pattern

/-! ### Steps -/

open Pattern

/-- The slot of a cloned node exists. -/
def NodeSource.Within (b : List Pattern) : NodeSource → Prop
  | make _ _ _ => True
  | clone i h => ∃ p, b[i]? = some p ∧ h < p.size
  | asAttribute s => s.Within b
  | storing s _ => s.Within b

/-- The slots that an edit names exist, and a new edge does not lead back up. -/
def Edit.Within (p : Pattern) : Edit → Prop
  | addEdge parent child _ => parent < p.size ∧ child < p.size ∧ ¬ p.Above child parent
  | removeEdge parent child => parent < p.size ∧ child < p.size
  | pruneTo _ => True
  | clearEdges h | bind h _ | unbind h _ | setStores h _ | setRequires h _ | setTest h _
  | setSelection h _ _ _ | setIdKinds h _ | mergeStores h _ | storeOnly h _ => h < p.size

/-- The patterns and slots that a step names exist, and a new edge does not lead back up. -/
def Step.Within (b : List Pattern) : Step → Prop
  | start _ s => s.Within b
  | addNode i s => (∃ p, b[i]? = some p) ∧ s.Within b
  | addChild i parent s _ => (∃ p, b[i]? = some p ∧ parent < p.size) ∧ s.Within b
  | edit i e => ∃ p, b[i]? = some p ∧ e.Within p
  | copyVirtual i target j h _ | copyChildren i target j h =>
    (∃ p, b[i]? = some p ∧ target < p.size) ∧ ∃ source, b[j]? = some source ∧ h < source.size
  | copy i => ∃ p, b[i]? = some p
  | copyReplacing i _ j new =>
    (∃ p, b[i]? = some p) ∧ ∃ source, b[j]? = some source ∧ new < source.size
  | ask i h => ∃ p, b[i]? = some p ∧ h < p.size

theorem NodeSource.exists_node {b : List Pattern} {s : NodeSource} (hs : s.Within b) :
    ∃ n, s.node? b = some n := by
  induction s with
  | make code ns tag => exact ⟨_, rfl⟩
  | clone i h =>
    obtain ⟨p, hp, hh⟩ := hs
    obtain ⟨n, hn⟩ := exists_node_of_lt_size hh
    exact ⟨n, by rw [node?, hp]; exact hn⟩
  | asAttribute s ih =>
    obtain ⟨n, hn⟩ := ih hs
    exact ⟨{ n with isAttribute := true }, by rw [node?, hn]; rfl⟩
  | storing s stores ih =>
    obtain ⟨n, hn⟩ := ih hs
    exact ⟨{ n with stores }, by rw [node?, hn]; rfl⟩

/-- An edit that names slots of a grounded pattern comes to an end. -/
theorem Edit.exists_run {p : Pattern} (hp : p.Grounded) {e : Edit} (he : e.Within p) :
    ∃ q, e.run p = some q := by
  have hedit : ∀ {h : Handle}, h < p.size → ∀ f, ∃ q, p.edit h f = some q := fun hh f =>
    exists_update (by rwa [size_forget]) f
  -- edges are walked, which ends in a finite subtree; attributes only ask for the slot
  cases e with
  | addEdge parent child flags =>
    obtain ⟨hparent, hchild, hback⟩ := he
    obtain ⟨below, hbelow⟩ := hp.exists_spans hchild
    exact hbelow.exists_addEdge hparent (fun hmem => hback (hbelow.mem_iff_above.mp hmem)) flags
  | removeEdge parent child =>
    obtain ⟨found, q, hq, -⟩ := (Sheds.refl p).exists_removeEdge he.1 he.2
    exact ⟨q, by rw [run, hq]; rfl⟩
  | clearEdges h =>
    obtain ⟨below, hbelow⟩ := hp.exists_spans he
    obtain ⟨q, hq, -⟩ := (Sheds.refl p).exists_clearEdges hbelow
    exact ⟨q, hq⟩
  | pruneTo code =>
    obtain ⟨below, hbelow⟩ := hp.exists_spans hp.root_lt
    obtain ⟨found, q, hq⟩ := hbelow.exists_pruneTo code
    exact ⟨q, by rw [run, hq]; rfl⟩
  | storeOnly h tags =>
    obtain ⟨below, hbelow⟩ := hp.exists_spans he
    obtain ⟨q, hq, -⟩ := hbelow.exists_storeOnly tags rfl
    exact ⟨q, hq⟩
  | unbind h names => exact exists_update he _
  | bind h v => exact hedit he _
  | setStores h stores => exact hedit he _
  | setRequires h requires => exact hedit he _
  | setTest h test => exact hedit he _
  | setSelection h on ns tag => exact hedit he _
  | setIdKinds h idKinds => exact hedit he _
  | mergeStores h source => exact hedit he _

namespace Step

variable {b : List Pattern} {s : Step}

/-- A step that names slots of grounded patterns comes to an end. -/
theorem exists_run (hb : ∀ p ∈ b, p.Grounded) (hs : s.Within b) : ∃ b', s.run b = some b' := by
  -- links of grounded patterns can be followed up and down
  have hat : ∀ {i : Nat} {p : Pattern}, b[i]? = some p → p.Grounded := fun hp =>
    hb _ (List.mem_of_getElem? hp)
  cases s with
  | start name s =>
    obtain ⟨n, hn⟩ := NodeSource.exists_node hs
    exact ⟨b ++ [singleton name n], by rw [run, hn]; rfl⟩
  | addNode i s =>
    obtain ⟨⟨p, hp⟩, hs⟩ := hs
    obtain ⟨n, hn⟩ := NodeSource.exists_node hs
    exact ⟨b.set i (p.addNode n).2, by rw [run, hp]; simp [hn]⟩
  | addChild i parent s flags =>
    obtain ⟨⟨p, hp, hparent⟩, hs⟩ := hs
    obtain ⟨n, hn⟩ := NodeSource.exists_node hs
    obtain ⟨q, hq, -⟩ := exists_addChild hparent n flags
    exact ⟨b.set i q, by rw [run, hp]; simp [hn, hq]⟩
  | edit i e =>
    obtain ⟨p, hp, he⟩ := hs
    obtain ⟨q, hq⟩ := Edit.exists_run (hat hp) he
    exact ⟨b.set i q, by rw [run, hp]; simp [hq]⟩
  | copyVirtual i target j h k =>
    obtain ⟨⟨p, hp, htarget⟩, source, hsource, hh⟩ := hs
    obtain ⟨r, hr⟩ := (hat hsource).exists_copyVirtual htarget hh k
    exact ⟨b.set i r.2.1, by rw [run, hp, hsource]; simp [hr]⟩
  | copyChildren i target j h =>
    obtain ⟨⟨p, hp, htarget⟩, source, hsource, hh⟩ := hs
    obtain ⟨q, hq⟩ := (hat hsource).exists_copyChildren htarget hh
    exact ⟨b.set i q, by rw [run, hp, hsource]; simp [hq]⟩
  | copy i =>
    obtain ⟨p, hp⟩ := hs
    obtain ⟨q, hq⟩ := (hat hp).exists_copy
    exact ⟨b ++ [q], by rw [run, hp]; simp [hq]⟩
  | copyReplacing i old j new =>
    obtain ⟨⟨p, hp⟩, source, hsource, hnew⟩ := hs
    obtain ⟨q, hq⟩ := (hat hp).exists_copyReplacing (hat hsource) old hnew
    exact ⟨b ++ [q], by rw [run, hp, hsource]; simp [hq]⟩
  | ask i h =>
    obtain ⟨p, hp, hh⟩ := hs
    obtain ⟨answer, q, hq⟩ := (hat hp).exists_topReturning hh
    exact ⟨b.set i q, by rw [run, hp]; simp [hq]⟩

/-- Whatever was done before, a step within the patterns at hand comes to an end. -/
theorem exists_run_of_made {ok : List Pattern → Step → Prop} {ss : List Step} (hb : Made ok ss b)
    (hs : s.Within b) : ∃ b', s.run b = some b' :=
  exists_run ((upholds_grounded ok).made hb) hs

end Step

end TwigAlgebra
