import TwigAlgebra.Proofs.Blindness
import TwigAlgebra.Proofs.Progress

/-!
# What nodes remember

Whether an ancestor of a node returns anything is found by a walk up, and remembered in the node.  An
answer can change only if links change, or what nodes store; whatever changes these lets every node
forget.  So what is remembered is what a new walk would find, however questions and edits alternate.

A clone remembers what its original found in another place.  A node that is added to a pattern
forgets that, but one that starts a pattern does not.

## Main definitions

* `Pattern.Topmost` — no ancestor returns anything.
* `Pattern.Coherent` — what is remembered is true.

## Main results

* `Pattern.Coherent.answer_iff` — a question is answered rightly if memos are true.
* `Pattern.Traced.topmost_topReturning` — a question changes no answer.
* `Pattern.Coherent.alters`, `Pattern.Coherent.ask` — memos stay true.
* `Pattern.upholds_attentive` — every step keeps memos true.
* `Pattern.topReturning_of_made` — in drafted patterns every question is answered, and rightly.
-/

namespace TwigAlgebra.Pattern

open Relation

variable {p q : Pattern} {F : Handle → Node → Node} {h c i : Handle} {n : Node} {answer : Bool}

/-- No ancestor of the slot, along the parent links, returns anything. -/
def Topmost (p : Pattern) (h : Handle) : Prop :=
  ∀ i, TransGen p.LinksTo h i → ∀ n, p.node? i = some n → n.stores.returns = false

/-- What a node remembers is whether it is topmost. -/
def Coherent (p : Pattern) : Prop :=
  ∀ h n answer, p.node? h = some n → n.topMemo = some answer → (answer = true ↔ p.Topmost h)

/-! ### Answers -/

/-- What the walk up from the parent of a slot finds. -/
theorem noneReturns_parent {fuel : Nat} (hn : p.node? h = some n)
    (hwalk : p.noneReturns fuel n.parent = some answer) : answer = true ↔ p.Topmost h := by
  have hup : ∀ i, TransGen p.LinksTo h i ↔ ∃ j, n.parent = some j ∧ ReflTransGen p.LinksTo j i := by
    intro i
    rw [TransGen.head'_iff]
    refine exists_congr fun j => and_congr_left fun _ => ?_
    rw [linksTo_iff, parent?, hn, Option.bind_some]
  unfold Topmost
  simp only [hup]
  -- all slots above are the parent and those above it
  cases hparent : n.parent with
  | none =>
    rw [hparent, noneReturns] at hwalk
    cases hwalk
    refine iff_of_true rfl ?_
    rintro i ⟨j, hj, -⟩
    cases hj
  | some j =>
    rw [hparent] at hwalk
    rw [noneReturns_eq_some_iff hwalk]
    constructor
    · rintro hall i ⟨k, hk, hki⟩
      cases hk
      exact hall i hki
    · exact fun hall i hji => hall i ⟨j, rfl, hji⟩

/-- A question is answered rightly if what was remembered is true. -/
theorem Coherent.answer_iff (hp : p.Coherent) (hq : p.topReturning h = some (answer, q)) :
    answer = true ↔ p.Topmost h := by
  obtain ⟨n, hn, ⟨hmemo, -⟩ | ⟨-, hwalk, -⟩⟩ := topReturning_cases hq
  · exact hp h n answer hn hmemo
  · exact noneReturns_parent hn hwalk

/-- A node on its own has no ancestors. -/
theorem topmost_singleton (name : String) (n : Node) (h : Handle) :
    (singleton name n).Topmost h := by
  intro i hway
  obtain ⟨j, hlink, -⟩ := TransGen.head'_iff.mp hway
  rw [linksTo_iff, parent?_singleton] at hlink
  cases hlink

/-- Answers depend on links and on what ancestors store. -/
theorem Traced.topmost_congr (hp : p.Traced) (hlinks : ∀ i, q.parent? i = p.parent? i)
    (hstores : ∀ i < p.size, (q.node? i).map (·.stores) = (p.node? i).map (·.stores)) :
    q.Topmost h ↔ p.Topmost h := by
  have hsame : q.LinksTo = p.LinksTo :=
    funext fun i => funext fun j => propext (by rw [linksTo_iff, linksTo_iff, hlinks])
  unfold Topmost
  rw [hsame]
  refine forall_congr' fun i => forall_congr' fun hway => ?_
  have hstored : ∀ r : Pattern, (∀ n, r.node? i = some n → n.stores.returns = false) ↔
      ∀ s, (r.node? i).map (·.stores) = some s → s.returns = false := fun r => by simp
  rw [hstored, hstored, hstores i (hp.lt_size hway)]

/-- Answers do not depend on what is remembered. -/
theorem Traced.topmost_forget (hp : p.Traced) : p.forget.Topmost h ↔ p.Topmost h :=
  hp.topmost_congr (fun _ => (maps_forget p).parent?_congr fun _ => rfl) fun i _ => by
    rw [node?_forget, Option.map_map]
    rfl

/-- A question changes no answer. -/
theorem Traced.topmost_topReturning (hp : p.Traced) (hq : p.topReturning h = some (answer, q)) :
    q.Topmost i ↔ p.Topmost i := by
  obtain ⟨F, hF⟩ := exists_alters_topReturning hq
  rw [← (hp.alters hF).topmost_forget, forget_topReturning hq, hp.topmost_forget]

namespace Coherent

/-- Nothing is remembered. -/
theorem of_forgotten (hq : ∀ h n, q.node? h = some n → n.topMemo = none) : q.Coherent := by
  intro h n answer hn hanswer
  rw [hq h n hn] at hanswer
  cases hanswer

theorem of_maps (hpq : Maps F p q) (hF : ∀ i n, (F i n).topMemo = none) : q.Coherent := by
  refine of_forgotten fun h m hm => ?_
  obtain ⟨n, -, rfl⟩ := hpq.exists_node hm
  exact hF h n

theorem singleton (name : String) (hn : n.topMemo ≠ some false) :
    (singleton name n).Coherent := by
  intro h m answer hm hanswer
  rw [node?_singleton] at hm
  split at hm
  case isFalse => cases hm
  case isTrue =>
    cases hm
    cases answer with
    | true => exact iff_of_true rfl (topmost_singleton name n h)
    | false => exact absurd hanswer hn

/-- A new node forgets, and is nobody's parent. -/
theorem addNode (hp : p.Coherent) (htraced : p.Traced) (n : Node) : (p.addNode n).2.Coherent := by
  intro h m answer hm hanswer
  rw [node?_addNode] at hm
  split at hm
  case isTrue =>
    cases hm
    cases hanswer
  case isFalse =>
    -- no link leads to the new slot, so that the walks are the same as before
    rw [htraced.topmost_congr (fun i => parent?_addNode p n) fun i hi => by
      rw [node?_addNode, if_neg (Nat.ne_of_lt hi)]]
    exact hp h m answer hm hanswer

/-- Nodes forget, unless they store what they stored. -/
theorem alters (hp : p.Coherent) (htraced : p.Traced) (hpq : p.Alters F q) (hF : Forgets F) :
    q.Coherent := by
  rcases hF with hnone | hsame
  · exact of_maps hpq.toMaps hnone
  · intro h m answer hm hanswer
    obtain ⟨n, hn, rfl⟩ := hpq.toMaps.exists_node hm
    rw [htraced.topmost_congr hpq.parent?_eq fun i _ => by
      rw [hpq.nodes, Option.map_map]
      exact congrArg (fun g => (p.node? i).map g) (funext fun n => (hsame i n).1)]
    exact hp h n answer hn ((hsame h n).2 ▸ hanswer)

theorem removeEdge (hp : p.Coherent) {found : Bool} (hq : p.removeEdge h c = some (found, q)) :
    q.Coherent := by
  rcases removeEdge_cases hq with ⟨rfl, -⟩ | ⟨-, -, hmaps⟩
  · exact hp
  · exact of_maps hmaps fun _ _ => rfl

/-- The node that was asked about remembers the answer. -/
theorem ask (hp : p.Coherent) (htraced : p.Traced) (hq : p.topReturning h = some (answer, q)) :
    q.Coherent := by
  have hsame : ∀ i, q.Topmost i ↔ p.Topmost i := fun i => htraced.topmost_topReturning hq
  have hanswer := hp.answer_iff hq
  obtain ⟨n, -, ⟨-, rfl⟩ | ⟨-, -, hmaps⟩⟩ := topReturning_cases hq
  · exact hp
  intro i m a hm ha
  obtain ⟨k, hk, rfl⟩ := hmaps.exists_node hm
  rw [hsame]
  split at ha
  case isTrue hi =>
    subst i
    cases ha
    exact hanswer
  case isFalse => exact hp i k a hk ha

end Coherent

/-! ### Drafting -/

/-- Walks come to an end, and what is remembered of them is true. -/
structure Attentive (p : Pattern) : Prop extends Grounded p where
  /-- What is remembered is true. -/
  coherent : p.Coherent

namespace Attentive

theorem addEdge (hp : p.Attentive) {flags : EdgeFlags} (hq : p.addEdge h c flags = some q) :
    q.Attentive := by
  obtain ⟨-, -, d, hmaps⟩ := exists_maps_addEdge hq
  exact ⟨hp.toGrounded.addEdge hq, .of_maps hmaps fun _ _ => rfl⟩

theorem edit (hp : p.Attentive) {e : Edit} (hq : e.run p = some q) : q.Attentive := by
  refine ⟨hp.toGrounded.edit hq, ?_⟩
  rcases Edit.run_cases hq with ⟨F, hF, hforgets⟩ | ⟨parent, child, flags, -, hq⟩ |
    ⟨parent, child, found, hq⟩ | ⟨h, hq⟩ | ⟨code, found, hq⟩
  · -- edits at a node, or at its edges, leave true memos or none
    exact hp.coherent.alters hp.traced hF hforgets
  · exact (hp.addEdge hq).coherent
  · exact hp.coherent.removeEdge hq
  · obtain ⟨owner, -, hmaps⟩ := maps_clearEdges hq
    exact .of_maps hmaps fun _ _ => rfl
  · obtain ⟨⟨found', q'⟩, -, hq'⟩ := Option.bind_eq_some_iff.mp hq
    cases hq'
    exact .of_maps (maps_forget q') fun _ _ => rfl

end Attentive

/-- Every step keeps memos true, if no new pattern starts with a node that remembers an ancestor which
returns something. -/
theorem upholds_attentive : Upholds Step.StartsTop (fun _ => True) Attentive where
  lasting := (upholds_grounded Step.StartsTop).lasting
  nodes _ _ _ _ _ := trivial
  root_lt _ hp := hp.root_lt
  start b s name n hb hs htop _ := by
    refine ⟨.singleton name n, .singleton name ?_⟩
    rcases Step.top?_cases htop with ⟨name, source, rfl, hn⟩ | ⟨i, p, m, -, -, -, rfl⟩ |
      ⟨i, old, j, new, p, source, m, -, -, -, -, rfl⟩
    · exact hs n hn
    · rintro ⟨⟩
    · rintro ⟨⟩
  addNode p n _ hp := ⟨hp.toGrounded.addNode n, hp.coherent.addNode hp.traced n⟩
  addEdge p q h c flags _ _ hq hp := hp.addEdge hq
  edit b i p q e _ _ hq hp := hp.edit hq
  ask p q h answer hq hp := by
    obtain ⟨F, hF⟩ := exists_alters_topReturning hq
    exact ⟨hp.toGrounded.alters hF, hp.coherent.ask hp.traced hq⟩

/-- However questions and edits alternate, every question about a slot of a drafted pattern is
answered, it is answered as a new walk up would answer it, and it would be answered the same after a
run that differs in questions only, if no pattern starts with a node that remembers an ancestor which
returns something. -/
theorem topReturning_of_made {ss : List Step} {b : List Pattern} {k : Nat}
    (hb : Made Step.StartsTop ss b) (hp : b[k]? = some p) (hh : h < p.size) :
    ∃ answer q, p.topReturning h = some (answer, q) ∧ (answer = true ↔ p.Topmost h) ∧
      ∀ ss' b', Made Step.StartsTop ss' b' → ss'.filter (!·.asks) = ss.filter (!·.asks) →
        ∃ p' q', b'[k]? = some p' ∧ p'.topReturning h = some (answer, q') := by
  have hattentive : p.Attentive := upholds_attentive.made hb p (List.mem_of_getElem? hp)
  obtain ⟨answer, q, hq⟩ := hattentive.toGrounded.exists_topReturning hh
  have hanswer := hattentive.coherent.answer_iff hq
  refine ⟨answer, q, hq, hanswer, fun ss' b' hb' hss => ?_⟩
  obtain ⟨p', hp', hforget⟩ := exists_getElem?_of_forget_eq (hb'.map_forget_eq hb hss).symm hp
  have hattentive' : p'.Attentive := upholds_attentive.made hb' p' (List.mem_of_getElem? hp')
  have hsize : p'.size = p.size := by rw [← size_forget p', ← hforget, size_forget]
  obtain ⟨answer', q', hq'⟩ := hattentive'.toGrounded.exists_topReturning (hsize ▸ hh)
  have hsame : answer' = true ↔ answer = true := by
    rw [hattentive'.coherent.answer_iff hq', hanswer, ← hattentive'.traced.topmost_forget,
      ← hforget, hattentive.traced.topmost_forget]
  exact ⟨p', q', hp', Bool.eq_iff_iff.mpr hsame ▸ hq'⟩

/-- The book with its identifier stored, after a question about its title. -/
def askedBook : Pattern where
  name := "book"
  nodes := #[{ Node.make ⟨0⟩ "" "book" with
      stores := ⟨true, false, false, false⟩, edges := [⟨⟨true, true, false⟩, 1⟩] },
    { Node.make ⟨1⟩ "" "title" with depth := 1, parent := some 0, topMemo := some false }]
  root := 0

/-- The steps that store the identifier of the book and ask about its title. -/
def askSteps : List Step := [.edit 1 (.setStores 0 ⟨true, false, false, false⟩), .ask 1 1]

/-- The question leaves a memo only. -/
theorem made_askedBook {ok : List Pattern → Step → Prop}
    (hok : ∀ b, ∀ s ∈ catalogueSteps ++ askSteps, ok b s) :
    Made ok (catalogueSteps ++ askSteps.take 1) [catalogue, askedBook.forget] ∧
      Made ok (catalogueSteps ++ askSteps) [catalogue, askedBook] := by
  obtain ⟨hbook, hask⟩ := forall_and.mp fun b => List.forall_mem_append.mp (hok b)
  have hstoring : Made ok (catalogueSteps ++ askSteps.take 1) [catalogue, askedBook.forget] :=
    (made_catalogue hbook).step _ (hask _ _ List.mem_cons_self) (by decide +kernel)
  exact ⟨hstoring, hstoring.step _ (hask _ _ (List.mem_cons_of_mem _ List.mem_cons_self))
    (by decide +kernel)⟩

/-- The title of the book is not topmost, and a second question is answered like the first. -/
theorem topReturning_of_made_askedBook :
    Made Step.StartsTop (catalogueSteps ++ askSteps) [catalogue, askedBook] ∧
      1 < askedBook.size ∧ ∃ answer q q', askedBook.topReturning 1 = some (answer, q) ∧
        (answer = true ↔ askedBook.Topmost 1) ∧
        askedBook.forget.topReturning 1 = some (answer, q') := by
  obtain ⟨hstoring, hasked⟩ := @made_askedBook Step.StartsTop fun b => by
    simp [catalogueSteps, askSteps, Step.StartsTop, NodeSource.node?, Node.make]
  obtain ⟨answer, q, hq, hanswer, hothers⟩ :=
    topReturning_of_made (k := 1) (h := 1) hasked rfl (by decide)
  obtain ⟨p', q', hp', hq'⟩ := hothers _ _ hstoring rfl
  cases hp'
  exact ⟨hasked, by decide, answer, q, q', hq, hanswer, hq'⟩

/-- A new pattern that starts with a clone of the title answers as the book did. -/
theorem not_topReturning_of_made_titleAlone :
    ¬ ∀ ss b p, Made (fun _ _ => True) ss b → p ∈ b → ∀ h answer q,
      p.topReturning h = some (answer, q) → (answer = true ↔ p.Topmost h) := by
  intro hall
  have hbook : Made (fun _ _ => True) (catalogueSteps ++ askSteps) [catalogue, askedBook] :=
    (made_askedBook fun _ _ _ => trivial).2
  have halone := hbook.step (.start "title" (.clone 1 1)) trivial rfl
  have hanswer := hall _ _ _ halone (List.mem_append_right _ List.mem_cons_self) 0 false _ rfl
  exact absurd (hanswer.mpr (topmost_singleton _ _ 0)) nofun

end TwigAlgebra.Pattern
