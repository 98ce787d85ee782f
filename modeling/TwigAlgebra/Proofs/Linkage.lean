import TwigAlgebra.Proofs.Drafting
import TwigAlgebra.Proofs.TreeCheck

/-!
# Edges and links match in drafted patterns

However patterns are drafted, in each of their slots, detached ones included, edges and parent links
match one to one, edges never come back, and variables record their nodes.  Two numbers say all about
a pair of slots: how many edges lead from the first to the second, and whether the second links to
the first; in a linked arena they are the same.  Each operation keeps them the same, so that a
drafted pattern is a tree but for its codes, and its check finds no other fault.

## Main definitions

* `Pattern.Linked` — edges and links match in every slot.

## Main results

* `Pattern.Linked.addEdge`, `Pattern.Linked.removeEdge`, `Pattern.Linked.clearEdges`,
  `Pattern.Linked.pruneTo` — the operations on edges keep them matched.
* `Pattern.upholds_linked` — every step does.
* `Pattern.linked_of_made` — drafted patterns are linked, and their check can only find a repeated
  code.
-/

namespace TwigAlgebra.Pattern

open Relation

variable {p q : Pattern} {F : Handle → Node → Node} {h c i j : Handle} {n : Node}

/-- In every slot, edges and links match. -/
structure Linked (p : Pattern) : Prop where
  /-- The child of an edge exists and links to the owner of the edge. -/
  linked : ∀ h c, p.Leads h c → p.LinksTo c h
  /-- A link is matched by exactly one edge of the parent. -/
  matched : ∀ c h, p.LinksTo c h → p.edgesTo h c = 1
  /-- The root exists and has no parent. -/
  root : ∃ n, p.node? p.root = some n ∧ n.parent = none
  /-- Edges never come back. -/
  acyclic : ∀ h, ¬ TransGen p.Leads h h
  /-- Every variable records the code of the node holding it. -/
  recorded : ∀ h n, p.node? h = some n → n.Recorded

/-- The root exists and has no parent. -/
theorem exists_root_iff :
    (∃ n, p.node? p.root = some n ∧ n.parent = none) ↔ p.root < p.size ∧ p.parent? p.root = none := by
  constructor
  · rintro ⟨n, hn, hparent⟩
    exact ⟨lt_size_of_node? hn, by rw [parent?, hn, Option.bind_some, hparent]⟩
  · rintro ⟨hlt, hparent⟩
    obtain ⟨n, hn⟩ := exists_node_of_lt_size hlt
    exact ⟨n, hn, by rwa [parent?, hn, Option.bind_some] at hparent⟩

theorem Maps.recorded (hpq : Maps F p q) (hF : ∀ i n, n.Recorded → (F i n).Recorded)
    (hp : ∀ h n, p.node? h = some n → n.Recorded) : ∀ h n, q.node? h = some n → n.Recorded := by
  intro h m hm
  obtain ⟨n, hn, rfl⟩ := hpq.exists_node hm
  exact hF h n (hp h n hn)

namespace Linked

/-- There is one edge between two slots if the second links to the first, and none otherwise. -/
theorem edgesTo_eq (hp : p.Linked) (h c : Handle) :
    p.edgesTo h c = if p.parent? c = some h then 1 else 0 := by
  split
  case isTrue hlink => exact hp.matched c h (linksTo_iff.mpr hlink)
  case isFalse hlink =>
    exact edgesTo_eq_zero_iff.mpr fun hlead => hlink (linksTo_iff.mp (hp.linked h c hlead))

/-- An arena is linked if edges and links match in number. -/
theorem of_edgesTo_eq (hedges : ∀ h c, p.edgesTo h c = if p.parent? c = some h then 1 else 0)
    (hroot : p.root < p.size ∧ p.parent? p.root = none) (hacyclic : ∀ h, ¬ TransGen p.Leads h h)
    (hrecorded : ∀ h n, p.node? h = some n → n.Recorded) : p.Linked where
  linked h c hlead := by
    have hpos := leads_iff.mp hlead
    rw [hedges] at hpos
    split at hpos
    case isTrue hlink => exact linksTo_iff.mpr hlink
    case isFalse => omega
  matched c h hlink := by rw [hedges, if_pos (linksTo_iff.mp hlink)]
  root := exists_root_iff.mpr hroot
  acyclic := hacyclic
  recorded := hrecorded

theorem root_lt (hp : p.Linked) : p.root < p.size := (exists_root_iff.mp hp.root).1

theorem parent?_root (hp : p.Linked) : p.parent? p.root = none := (exists_root_iff.mp hp.root).2

/-- Edges stay in the arena and never come back. -/
theorem founded (hp : p.Linked) : p.Founded where
  closed h c hlead := (hp.linked h c hlead).lt_size
  acyclic := hp.acyclic

/-- A child has one parent only. -/
theorem unique (hp : p.Linked) (hi : p.Leads i c) (hj : p.Leads j c) : i = j :=
  (hp.linked i c hi).unique (hp.linked j c hj)

/-! ### The operations -/

theorem singleton (name : String) (hn : n.Recorded) : (singleton name n).Linked := by
  refine of_edgesTo_eq (fun h c => ?_) ⟨Nat.one_pos, parent?_singleton name n⟩
    (Founded.singleton name n).acyclic fun h m hm => ?_
  · rw [edgesTo_singleton, parent?_singleton, if_neg nofun]
  · rw [node?_singleton] at hm
    split at hm
    · cases hm
      exact hn
    · cases hm

/-- Changing attributes leaves edges and links alone. -/
theorem alters (hp : p.Linked) (hpq : p.Alters F q) : q.Linked := by
  refine of_edgesTo_eq (fun h c => ?_) ?_ (hpq.sparser.founded hp.founded).acyclic
    (hpq.toMaps.recorded (fun i n => (hpq.alters i n).recorded) hp.recorded)
  · rw [hpq.edgesTo_eq, hpq.parent?_eq, hp.edgesTo_eq]
  · rw [hpq.root, hpq.size_eq, hpq.parent?_eq]
    exact exists_root_iff.mp hp.root

/-- A new node has neither edges nor a link. -/
theorem addNode (hp : p.Linked) (hn : n.Recorded) : (p.addNode n).2.Linked := by
  refine of_edgesTo_eq (fun h c => ?_) ⟨?_, ?_⟩ (hp.founded.addNode n).acyclic fun h m hm => ?_
  · rw [edgesTo_addNode, parent?_addNode, hp.edgesTo_eq]
  · rw [root_addNode, size_addNode]
    exact Nat.lt_succ_of_lt hp.root_lt
  · rw [root_addNode, parent?_addNode, hp.parent?_root]
  · rw [node?_addNode] at hm
    split at hm
    · cases hm
      exact hn
    · exact hp.recorded h m hm

/-- A slot without a parent gets the edge and the link at once. -/
theorem addEdge (hp : p.Linked) {flags : EdgeFlags} (hroot : c ≠ p.root)
    (hfree : p.parent? c = none) (hq : p.addEdge h c flags = some q) : q.Linked := by
  obtain ⟨-, -, d, hmaps⟩ := exists_maps_addEdge hq
  refine of_edgesTo_eq (fun i j => ?_) ⟨?_, ?_⟩ (hp.founded.addEdge hq).acyclic
    (hmaps.recorded (fun _ _ hn => hn) hp.recorded)
  · rw [edgesTo_addEdge hq, parent?_addEdge hq, hp.edgesTo_eq]
    by_cases hj : c = j
    · subst j
      simp [hfree]
    · simp [hj]
  · rw [hmaps.root, hmaps.size_eq]
    exact hp.root_lt
  · rw [hmaps.root, parent?_addEdge hq, if_neg hroot, hp.parent?_root]

/-- Taking edges and links away together keeps them matched. -/
theorem sparser (hp : p.Linked) (hpq : p.Sparser q)
    (hlinks : ∀ j, q.parent? j = none ∨ q.parent? j = p.parent? j)
    (hedges : ∀ i j, q.edgesTo i j = if q.parent? j = some i then 1 else 0)
    (hrecorded : ∀ h n, q.node? h = some n → n.Recorded) : q.Linked := by
  refine of_edgesTo_eq hedges ⟨?_, ?_⟩ (hpq.founded hp.founded).acyclic hrecorded
  · rw [hpq.root, hpq.size_eq]
    exact hp.root_lt
  · rw [hpq.root]
    rcases hlinks p.root with hnone | hsame
    · exact hnone
    · rw [hsame, hp.parent?_root]

theorem removeEdge (hp : p.Linked) {found : Bool} (hq : p.removeEdge h c = some (found, q)) :
    q.Linked := by
  rcases removeEdge_cases hq with ⟨rfl, -⟩ | ⟨hlead, -, hmaps⟩
  · exact hp
  -- the child has one parent, so that no other edge leads to it
  have hlink : p.parent? c = some h := linksTo_iff.mp (hp.linked h c hlead)
  have hpos := leads_iff.mp hlead
  refine hp.sparser (sparser_removeEdge hq) (fun j => ?_) (fun i j => ?_)
    (hmaps.recorded (fun _ _ hn => hn) hp.recorded)
  · rw [parent?_removeEdge hq]
    split
    · exact Or.inl rfl
    · exact Or.inr rfl
  · rw [edgesTo_removeEdge hq, parent?_removeEdge hq, hp.edgesTo_eq]
    by_cases hj : c = j
    · subst j
      simp [hlink, hpos]
    · simp [hj]

theorem clearEdges (hp : p.Linked) (hq : p.clearEdges h = some q) : q.Linked := by
  obtain ⟨owner, -, hmaps⟩ := maps_clearEdges hq
  refine hp.sparser (sparser_clearEdges hq) (fun j => ?_) (fun i j => ?_)
    (hmaps.recorded (fun _ _ hn => hn) hp.recorded)
  · rw [parent?_clearEdges hq]
    split
    · exact Or.inl rfl
    · exact Or.inr rfl
  · rw [edgesTo_clearEdges hq, parent?_clearEdges hq, hp.edgesTo_eq, hp.edgesTo_eq]
    by_cases hj : p.parent? j = some h
    · simp [hj]
    · by_cases hi : h = i
      · subst i
        simp [hj]
      · simp [hj, hi]

/-- Keeping a child of `p`, which has no other parent there. -/
theorem keepOnly {r : Pattern} {e : Edge} (hp : p.Linked) (hpq : p.Sparser q) (hq : q.Linked)
    (he : ∃ n, p.node? h = some n ∧ e ∈ n.edges) (hr : q.keepOnly h e = some r) : r.Linked := by
  have hsparser : p.Sparser r := hpq.keepOnly he hr
  obtain ⟨owner, -, -, hmaps⟩ := maps_keepOnly hr
  obtain ⟨n, hn, he⟩ := he
  have hlead : p.Leads h e.child := ⟨n, hn, List.mem_map_of_mem he⟩
  -- the child has one parent in `p`, and no edges were added since
  have hother : ∀ i, h ≠ i → q.edgesTo i e.child = 0 := fun i hi =>
    edgesTo_eq_zero_iff.mpr fun hlead' => hi (hp.unique hlead (hpq.leads hlead'))
  have hroot : e.child ≠ q.root := by
    intro heq
    have hlink := linksTo_iff.mp (hp.linked h e.child hlead)
    rw [heq, hpq.root, hp.parent?_root] at hlink
    cases hlink
  refine of_edgesTo_eq (fun i j => ?_) ⟨?_, ?_⟩ (hsparser.founded hp.founded).acyclic
    (hmaps.recorded (fun _ _ hn => hn) hq.recorded)
  · rw [edgesTo_keepOnly hr, parent?_keepOnly hr]
    -- the child that is kept gets its edge and its link back
    by_cases hj : e.child = j
    · subst j
      by_cases hi : h = i
      · simp [hi]
      · simp [hi, hother i hi]
    · -- all others lose their edge from the owner and their link together
      rw [hq.edgesTo_eq, hq.edgesTo_eq]
      by_cases hlink : q.parent? j = some h
      · simp [hj, hlink]
      · by_cases hi : h = i
        · subst i
          simp [hj, hlink]
        · simp [hj, hlink, hi]
  · rw [hmaps.root, hmaps.size_eq]
    exact hq.root_lt
  · rw [hmaps.root, parent?_keepOnly hr, if_neg hroot, hq.parent?_root]
    split <;> rfl

theorem forget (hp : p.Linked) : p.forget.Linked :=
  hp.alters ⟨maps_forget p, fun _ _ => ⟨rfl, rfl, rfl, id⟩⟩

theorem pruneTo (hp : p.Linked) {code : Code} {found : Bool}
    (hq : p.pruneTo code = some (found, q)) : q.Linked :=
  (pruneTo_invariant (fun _ _ _ _ _ hr hq => hq.clearEdges hr)
    (fun _ _ _ _ hpq _ he hr hq => hp.keepOnly hpq hq he hr) (fun _ hq => hq.forget) hq hp).2

/-! ### The check -/

/-- A linked pattern is orderly. -/
theorem orderly (hp : p.Linked) : p.Orderly where
  root := hp.root
  closed h c _ hlead := (hp.linked h c hlead).lt_size
  entered c hc hne := by
    rcases hc.cases_tail with heq | ⟨h, hh, hlead⟩
    · exact absurd heq hne
    · have hlink := hp.linked h c hlead
      refine ⟨h, hh, hlink, fun i _ => ?_⟩
      rw [hp.edgesTo_eq, linksTo_iff.mp hlink]
      simp [eq_comm]
  rootless h _ hlead := by
    have hlink := linksTo_iff.mp (hp.linked h p.root hlead)
    rw [hp.parent?_root] at hlink
    cases hlink
  recorded h n _ hn := hp.recorded h n hn

end Linked

/-! ### Drafting -/

theorem lasting_recorded : Node.Lasting Node.Recorded where
  make _ _ _ := nofun
  asAttribute _ hn := hn
  storing _ _ hn := hn
  detached _ hn := hn
  asVirtual _ _ _ := nofun

/-- Every step keeps edges and links matched. -/
theorem upholds_linked : Upholds Step.Fits Node.Recorded Linked where
  lasting := lasting_recorded
  nodes p hp := hp.recorded
  root_lt p hp := hp.root_lt
  start b s name n _ _ _ hn := .singleton name hn
  addNode p n hn hp := hp.addNode hn
  addEdge p q h c flags hroot hfree hq hp := hp.addEdge hroot hfree hq
  edit b i p q e he hp hq hlinked := by
    rcases Edit.run_cases hq with ⟨F, hF, -⟩ | ⟨parent, child, flags, rfl, hq⟩ |
      ⟨parent, child, found, hq⟩ | ⟨h, hq⟩ | ⟨code, found, hq⟩
    · exact hlinked.alters hF
    · obtain ⟨hroot, hfree⟩ := he p hp
      exact hlinked.addEdge hroot hfree hq
    · exact hlinked.removeEdge hq
    · exact hlinked.clearEdges hq
    · exact hlinked.pruneTo hq
  ask p q h answer hq hp := by
    obtain ⟨F, hF⟩ := exists_alters_topReturning hq
    exact hp.alters hF

/-- In every slot of a drafted pattern edges and links match, and the check of the pattern can only
find a code of two reached nodes. -/
theorem linked_of_made {ss : List Step} {b : List Pattern} (hb : Made Step.Fits ss b) (hp : p ∈ b) :
    p.Linked ∧ (p.validate = .ok () ∨
      ∃ code, p.Shares code ∧ p.validate = .error (.malformed code .duplicateCode)) := by
  have hlinked : p.Linked := upholds_linked.made hb p hp
  exact ⟨hlinked, hlinked.orderly.validate_cases⟩

/-- The steps that detach the title of the book and attach it again. -/
def reattachSteps : List Step :=
  [.edit 1 (.removeEdge 0 1), .edit 1 (.addEdge 0 1 ⟨true, true, false⟩)]

/-- A title that was detached from its book and attached again. -/
theorem linked_of_made_book :
    Made Step.Fits (catalogueSteps ++ reattachSteps) [catalogue, book] ∧ book.Linked ∧
      (book.validate = .ok () ∨
        ∃ code, book.Shares code ∧ book.validate = .error (.malformed code .duplicateCode)) := by
  have hbook : Made Step.Fits catalogueSteps [catalogue, book] := made_catalogue fun b => by
    simp [catalogueSteps, Step.Fits]
  have hdetached := hbook.step (.edit 1 (.removeEdge 0 1)) trivial rfl
  have hagain : Made Step.Fits (catalogueSteps ++ reattachSteps) [catalogue, book] := by
    refine hdetached.step (.edit 1 (.addEdge 0 1 ⟨true, true, false⟩)) ?_ (by decide +kernel)
    intro p hp
    cases hp
    exact ⟨by decide, by decide +kernel⟩
  exact ⟨hagain, linked_of_made hagain (List.mem_cons_of_mem _ List.mem_cons_self)⟩

end TwigAlgebra.Pattern
