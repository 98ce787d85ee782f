import TwigAlgebra.Proofs.Growth

/-!
# What is cut from a tree of slots

Removing an edge and pruning take edges from nodes and unlink children.  A tree of slots stays one
if every edge that is left at a reached node still has the link that goes with it.  Pruning visits
reached nodes only.  Removing an edge can name any node: if a node that is not reached has an edge to
a reached one, then removing that edge takes the link from a child whose own parent keeps it.

## Main definitions

* `Pattern.ShrinksTo` — a tree has lost edges, and links that go with them.
* `Pattern.Owns` — the owner of an edge to a reached node is reached.

## Main results

* `Pattern.ShrinksTo.orderly` — what is left is a tree.
* `Pattern.Orderly.removeEdge`, `Pattern.Orderly.pruneTo` — both operations keep the tree.
* `Pattern.not_orderly_of_removeEdge` — removing an edge that a node outside of the tree has to one
  inside never does.
* `Pattern.Orderly.exists_spans` — a tree of slots is finite.
-/

namespace TwigAlgebra.Pattern

open Relation

variable {p q r : Pattern} {F : Handle → Node → Node} {h c i j : Handle} {n m : Node} {found : Bool}

/-! ### Edges with their links -/

/-- The pattern `q` is `p` with fewer edges: codes and variables are the same, an edge between reached
slots of `p` was there, and its child links to its owner. -/
structure ShrinksTo (p q : Pattern) : Prop where
  /-- The root is the same. -/
  root : q.root = p.root
  /-- Codes and variables are the same. -/
  stems : q.stems = p.stems
  /-- The root has no parent. -/
  rootless : q.parent? q.root = none
  /-- What is left of the edges of a reached slot are single edges that were there, and whose
  children link back. -/
  edges : ∀ i j, p.Reached i →
    q.edgesTo i j = 0 ∨ q.edgesTo i j = 1 ∧ p.Leads i j ∧ q.parent? j = some i

namespace ShrinksTo

theorem size_eq (hpq : p.ShrinksTo q) : q.size = p.size := by
  rw [← length_stems, hpq.stems, length_stems]

theorem leads (hpq : p.ShrinksTo q) (hi : p.Reached i) (hlead : q.Leads i j) :
    q.edgesTo i j = 1 ∧ p.Leads i j ∧ q.parent? j = some i := by
  rcases hpq.edges i j hi with hzero | hone
  · exact absurd hlead (edgesTo_eq_zero_iff.mp hzero)
  · exact hone

theorem reached (hpq : p.ShrinksTo q) (hi : q.Reached i) : p.Reached i := by
  induction hi with
  | refl => exact hpq.root ▸ .refl
  | tail _ hlead ih => exact ih.leads (hpq.leads ih hlead).2.1

/-- What is left of a tree is a tree. -/
theorem orderly (hp : p.Orderly) (hpq : p.ShrinksTo q) : q.Orderly where
  root := by
    obtain ⟨n, hn, -⟩ := hp.root
    obtain ⟨m, hm⟩ := exists_node_of_lt_size (hpq.size_eq ▸ lt_size_of_node? hn)
    rw [← hpq.root] at hm
    have hlink := hpq.rootless
    rw [parent?, hm, Option.bind_some] at hlink
    exact ⟨m, hm, hlink⟩
  closed h c hh hlead := by
    have hh := hpq.reached hh
    rw [hpq.size_eq]
    exact hp.closed h c hh (hpq.leads hh hlead).2.1
  entered c hc hne := by
    rcases hc.cases_tail with heq | ⟨h, hh, hlead⟩
    · exact absurd heq hne
    · -- an edge that is left is the only one to its end, which links to one slot
      obtain ⟨hone, -, hlink⟩ := hpq.leads (hpq.reached hh) hlead
      refine ⟨h, hh, linksTo_iff.mpr hlink, fun i hi => ?_⟩
      by_cases heq : i = h
      · rw [if_pos heq, heq, hone]
      · rw [if_neg heq, edgesTo_eq_zero_iff]
        intro hlead'
        have hlink' := (hpq.leads (hpq.reached hi) hlead').2.2
        exact heq (Option.some.inj (hlink'.symm.trans hlink))
  rootless h hh hlead := by
    have hlink := (hpq.leads (hpq.reached hh) hlead).2.2
    rw [hpq.rootless] at hlink
    cases hlink
  recorded h m hh hm := by
    obtain ⟨n, hn⟩ := exists_node_of_lt_size (hpq.size_eq ▸ lt_size_of_node? hm)
    have hstem := getElem?_stems_of_node? hm
    rw [hpq.stems, getElem?_stems_of_node? hn, Option.some.injEq] at hstem
    obtain ⟨hcode, hvars⟩ := Prod.mk.inj hstem
    rw [← hcode, ← hvars]
    exact hp.recorded h n (hpq.reached hh) hn

/-- A tree has its own edges with their links. -/
theorem refl (hp : p.Orderly) : p.ShrinksTo p where
  root := rfl
  stems := rfl
  rootless := by
    obtain ⟨n, hn, hparent⟩ := hp.root
    rw [parent?, hn, Option.bind_some, hparent]
  edges i j hi := by
    by_cases hlead : p.Leads i j
    · obtain ⟨n, hn, hj⟩ := hlead
      have hcount := List.nodup_iff_count_le_one.mp (hp.nodup_children hi hn) j
      have hpos := List.count_pos_iff.mpr hj
      refine Or.inr ⟨?_, ⟨n, hn, hj⟩, linksTo_iff.mp (hp.linksTo_of_leads hi ⟨n, hn, hj⟩)⟩
      rw [edgesTo_of_node? hn]
      omega
    · exact Or.inl (edgesTo_eq_zero_iff.mpr hlead)

/-- Forgetting changes neither edges nor links. -/
theorem forget (hpq : p.ShrinksTo q) : p.ShrinksTo q.forget := by
  have hmaps := maps_forget q
  refine ⟨hpq.root, (hmaps.stems_eq fun _ _ => rfl).trans hpq.stems, ?_, fun i j hi => ?_⟩
  · rw [root_forget, hmaps.parent?_congr fun _ => rfl]
    exact hpq.rootless
  · rw [hmaps.edgesTo_congr fun _ => rfl, hmaps.parent?_congr fun _ => rfl]
    exact hpq.edges i j hi

/-- Detaching the children of a reached slot. -/
theorem clearEdges (hpq : p.ShrinksTo q) (hh : p.Reached h) (hr : q.clearEdges h = some r) :
    p.ShrinksTo r := by
  obtain ⟨owner, -, hmaps⟩ := maps_clearEdges hr
  refine ⟨hmaps.root.trans hpq.root, (hmaps.stems_eq fun _ _ => rfl).trans hpq.stems, ?_,
    fun i j hi => ?_⟩
  · rw [hmaps.root, parent?_clearEdges hr, hpq.rootless]
    split <;> rfl
  · rw [edgesTo_clearEdges hr, parent?_clearEdges hr]
    by_cases heq : h = i
    · -- the edges of `h` are gone
      exact Or.inl (if_pos heq)
    · rw [if_neg heq]
      rcases hpq.edges i j hi with hzero | ⟨hone, hlead, hlink⟩
      · exact Or.inl hzero
      · refine Or.inr ⟨hone, hlead, ?_⟩
        -- a child of `h` links to `h`, and not to `i`
        rw [if_neg, hlink]
        intro hpos
        have hlink' := (hpq.leads hh (leads_iff.mpr hpos)).2.2
        exact heq (Option.some.inj (hlink'.symm.trans hlink))

/-- Keeping one child of a reached slot, which was a child before. -/
theorem keepOnly {e : Edge} (hp : p.Orderly) (hpq : p.ShrinksTo q) (hh : p.Reached h)
    (he : p.Leads h e.child) (hr : q.keepOnly h e = some r) : p.ShrinksTo r := by
  obtain ⟨owner, -, -, hmaps⟩ := maps_keepOnly hr
  have hroot : e.child ≠ p.root := fun heq => hp.rootless h hh (heq ▸ he)
  refine ⟨hmaps.root.trans hpq.root, (hmaps.stems_eq fun _ _ => rfl).trans hpq.stems, ?_,
    fun i j hi => ?_⟩
  · rw [hmaps.root, parent?_keepOnly hr, if_neg (hpq.root ▸ hroot), hpq.rootless]
    split <;> rfl
  · rw [edgesTo_keepOnly hr, parent?_keepOnly hr]
    by_cases heq : h = i
    · -- the one edge that is kept
      subst i
      rw [if_pos rfl]
      by_cases hj : e.child = j
      · subst j
        exact Or.inr ⟨if_pos rfl, he, if_pos rfl⟩
      · exact Or.inl (if_neg hj)
    · rw [if_neg heq]
      rcases hpq.edges i j hi with hzero | ⟨hone, hlead, hlink⟩
      · exact Or.inl hzero
      · -- a tree has one edge to each slot, and that to the child starts at `h`
        have hne : e.child ≠ j := by
          rintro rfl
          exact heq ((hp.linksTo_of_leads hh he).unique (hp.linksTo_of_leads hi hlead))
        refine Or.inr ⟨hone, hlead, ?_⟩
        rw [if_neg hne, if_neg, hlink]
        intro hpos
        have hlink' := (hpq.leads hh (leads_iff.mpr hpos)).2.2
        exact heq (Option.some.inj (hlink'.symm.trans hlink))

end ShrinksTo

/-! ### The operations -/

/-- Pruning a tree. -/
theorem Orderly.pruneTo (hp : p.Orderly) {code : Code} (hq : p.pruneTo code = some (found, q)) :
    p.ShrinksTo q := by
  refine (pruneTo_invariant (I := fun r => p.ShrinksTo r) ?_ ?_ (fun _ hr => hr.forget) hq
    (.refl hp)).2
  · exact fun _ _ h _ hh hr hq => hq.clearEdges hh hr
  · rintro _ _ h e - hh ⟨n, hn, he⟩ hr hq
    exact hq.keepOnly hp hh ⟨n, hn, List.mem_map_of_mem he⟩ hr

/-- An edge from the first slot to the second is none from outside of the tree to a node inside,
unless that is the root. -/
def Owns (p : Pattern) (h c : Handle) : Prop :=
  p.Leads h c → p.Reached c → c ≠ p.root → p.Reached h

/-- Removing an edge of a tree, or one that does not lead into it. -/
theorem Orderly.removeEdge (hp : p.Orderly) (howns : p.Owns h c)
    (hq : p.removeEdge h c = some (found, q)) : p.ShrinksTo q := by
  have hself := ShrinksTo.refl hp
  rcases removeEdge_cases hq with ⟨rfl, -⟩ | ⟨hlead, -, hmaps⟩
  · exact hself
  · refine ⟨hmaps.root, hmaps.stems_eq fun _ _ => rfl, ?_, fun i j hi => ?_⟩
    · rw [hmaps.root, parent?_removeEdge hq, hself.rootless]
      split <;> rfl
    · rw [edgesTo_removeEdge hq, parent?_removeEdge hq]
      by_cases heq : h = i ∧ c = j
      · -- the edge that goes
        exact Or.inl (if_pos heq)
      · rw [if_neg heq]
        rcases hself.edges i j hi with hzero | ⟨hone, hlead', hlink⟩
        · exact Or.inl hzero
        · refine Or.inr ⟨hone, hlead', ?_⟩
          rw [if_neg, hlink]
          rintro ⟨-, rfl⟩
          -- both edges lead to one reached node, so that they have one owner
          have hne : c ≠ p.root := fun hroot => hp.rootless i hi (hroot ▸ hlead')
          have hh := howns hlead (hi.leads hlead') hne
          exact heq ⟨(hp.linksTo_of_leads hh hlead).unique (hp.linksTo_of_leads hi hlead'), rfl⟩

/-- Removing an edge that leads into the tree from outside unlinks a child that stays reached. -/
theorem not_orderly_of_removeEdge (hq : p.removeEdge h c = some (found, q)) (howns : ¬ p.Owns h c) :
    ¬ q.Orderly := by
  simp only [Owns, Classical.not_imp] at howns
  obtain ⟨hlead, hc, hne, hh⟩ := howns
  rcases removeEdge_cases hq with ⟨-, hnone⟩ | ⟨-, -, hmaps⟩
  · exact absurd hlead hnone
  · intro ho
    -- no edge of a reached slot is removed
    have hreached : ∀ i, p.Reached i → q.Reached i := by
      intro i hi
      induction hi with
      | refl => exact hmaps.root ▸ .refl
      | @tail i j hi hlead' ih =>
        refine ih.leads ?_
        rw [leads_iff, edgesTo_removeEdge hq, if_neg]
        · exact leads_iff.mp hlead'
        · rintro ⟨rfl, -⟩
          exact hh hi
    obtain ⟨i, -, hlink, -⟩ := ho.entered c (hreached c hc) (hmaps.root ▸ hne)
    -- the child is still reached, but links to nothing
    rw [linksTo_iff, parent?_removeEdge hq, if_pos ⟨leads_iff.mp hlead, rfl⟩] at hlink
    cases hlink

/-! ### Finiteness -/

/-- No way down from a reached slot of a tree comes back to it. -/
theorem Orderly.not_transGen (hp : p.Orderly) (hh : p.Reached h) : ¬ TransGen p.Leads h h := by
  have hreached : ∀ {i j}, p.Reached i → ReflTransGen p.Leads i j → p.Reached j :=
    fun hi hij => ReflTransGen.trans hi hij
  induction hh with
  | refl =>
    intro hway
    obtain ⟨i, hi, hlead⟩ := TransGen.tail'_iff.mp hway
    exact hp.rootless i hi hlead
  | @tail b c hb hlead ih =>
    intro hway
    -- the way comes back through the parent, which is on a cycle, too
    obtain ⟨i, hi, hlead'⟩ := TransGen.tail'_iff.mp hway
    have hlink := hp.linksTo_of_leads (hreached (Reached.leads hb hlead) hi) hlead'
    obtain rfl := hlink.unique (hp.linksTo_of_leads hb hlead)
    exact ih (TransGen.head' hlead hi)

/-- A tree of slots is finite. -/
theorem Orderly.exists_spans (hp : p.Orderly) (hh : p.Reached h) :
    ∃ below, p.Spans (.cons h below .nil) :=
  exists_spans_of_acyclic (fun _ => hp.lt_size) (fun _ _ hi hlead => hi.leads hlead)
    (fun _ => hp.not_transGen) hh

/-- An edge leads to every reached slot but the root, and none to the root. -/
theorem Orderly.exists_incomingEdge (hp : p.Orderly) (hh : p.Reached h) :
    ∃ o, p.incomingEdge h = some o := by
  obtain ⟨n, hn⟩ := hp.exists_node hh
  rw [incomingEdge, hn]
  cases hparent : n.parent with
  | none => exact ⟨none, by simp [hparent]⟩
  | some i =>
    -- the root links to nothing
    have hne : h ≠ p.root := by
      rintro rfl
      obtain ⟨m, hm, hroot⟩ := hp.root
      cases hn.symm.trans hm
      rw [hparent] at hroot
      cases hroot
    obtain ⟨j, hj, hlink, -⟩ := hp.entered h hh hne
    obtain rfl := hlink.unique ⟨n, hn, hparent⟩
    obtain ⟨m, hm⟩ := hp.exists_node hj
    exact ⟨m.edges.find? (·.child = h), by simp [hparent, hm]⟩

/-- A subtree of a tree can be copied under every node, or is refused. -/
theorem Orderly.exists_copyVirtual {source : Pattern} {target : Handle} (hsource : source.Orderly)
    (hh : source.Reached h) (htarget : target < p.size) (k : Counters) :
    ∃ r, p.copyVirtual target source h k = some r := by
  obtain ⟨below, hbelow⟩ := hsource.exists_spans hh
  exact Pattern.exists_copyVirtual (hsource.exists_incomingEdge hh) hbelow.exists_extract htarget k

end TwigAlgebra.Pattern
