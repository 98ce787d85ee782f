import TwigAlgebra.Proofs.Levels
import TwigAlgebra.Proofs.Links
import TwigAlgebra.Proofs.Lists

/-!
# The walks agree

A pattern is walked over in several ways.  Counts and searches descend from node to node, the
pre-order listing keeps a stack, and the breadth-first listing a queue.  Where what is reached is a
tree, all of them tell about one list, its slots in pre-order: its length, how many of its slots
hold a node with a property, whether any does, and which is the first.

## Main definitions

* `Pattern.shows` — whether the node in a slot has a property.

## Main results

* `Pattern.Spans.firstAnswer_eq` — a search finds the first slot with the code.
* `Pattern.Spans.tally_size` — a tally is a sum along the listing.
* `Pattern.TreeOf.walks_agree` — the walks over a tree.
-/

namespace TwigAlgebra.Pattern

variable {p : Pattern} {f below : Forest} {h : Handle} {code : Code} {fuel : Nat} {n : Node}
  {es : List Edge}

/-! ### Properties of slots -/

/-- The slot holds a node with the property. -/
def shows (p : Pattern) (q : Node → Bool) (h : Handle) : Bool := ((p.node? h).map q).getD false

theorem shows_eq (q : Node → Bool) (hn : p.node? h = some n) : p.shows q h = q n := by
  rw [shows, hn]
  rfl

theorem countP_nodesOn (p : Pattern) (q : Node → Bool) (f : Forest) :
    (p.nodesOn f).countP q = f.handles.countP (p.shows q) := by
  rw [nodesOn, List.countP_filterMap]
  rfl

theorem any_nodesOn (p : Pattern) (q : Node → Bool) (f : Forest) :
    (p.nodesOn f).any q = f.handles.any (p.shows q) := by
  rw [nodesOn, List.any_filterMap]
  congr 1
  funext h
  unfold shows
  cases p.node? h <;> rfl

/-! ### Descents -/

namespace Spans

/-- A tally from the top of a subtree is the sum along its listing. -/
theorem tally_size (w : Node → Nat) (hf : p.Spans (.cons h below .nil)) :
    p.tally w p.size h = some (((p.nodesOn (.cons h below .nil)).map w).sum) := by
  obtain ⟨fuel, n, hsize, hheight, hn, hchildren⟩ := hf.exists_fuel
  rw [hsize, tally, hn]
  refine Eq.trans (hf.2.1.tally_eq w hheight hchildren (w n)) ?_
  rw [nodesOn_cons hn, nodesOn_nil, List.append_nil, List.map_cons, List.sum_cons]

/-- A search along edges finds the first slot with the code. -/
theorem firstAnswer_eq (hf : p.Spans f) (hfuel : f.height ≤ fuel)
    (hes : es.map (·.child) = f.roots) :
    firstAnswer (fun e => p.locateFrom code fuel e.child) es
      = some (f.handles.find? (p.shows fun n => n.code = code)) := by
  induction f generalizing fuel es with
  | nil =>
    rw [List.map_eq_nil_iff.mp hes]
    rfl
  | cons h below rest ihb ihr =>
    obtain ⟨e, es, rfl, rfl, hrestes⟩ := exists_edges_of_roots_cons hes
    obtain ⟨hh, hbelow, hrest⟩ := hf
    obtain ⟨n, hn, hchildren⟩ := children?_eq_some_iff.mp hh
    rw [Forest.height] at hfuel
    obtain ⟨fuel, rfl⟩ : ∃ k, fuel = k + 1 := ⟨fuel - 1, by omega⟩
    have hsub := ihb hbelow (by omega : below.height ≤ fuel) hchildren
    have hothers := ihr hrest (by omega : rest.height ≤ fuel + 1) hrestes
    rw [firstAnswer, locateFrom, hn, Forest.handles_cons, List.find?_cons, shows_eq _ hn,
      List.find?_append]
    simp only [Option.bind_eq_bind, Option.bind_some]
    by_cases hcode : n.code = code
    · -- the top is found
      simp [hcode]
    · -- what is below the top is searched before the later trees
      simp only [hcode, if_false, hsub, decide_false, hothers, Option.bind_some]
      cases below.handles.find? (p.shows fun n => n.code = code) <;> rfl

end Spans

theorem firstAnswer_singleton {α β : Type} (answer : α → Option (Option β)) (a : α) :
    firstAnswer answer [a] = answer a := by
  rw [firstAnswer]
  rcases answer a with _ | _ | b <;> rfl

/-- A code is located in the first slot that the listing has with it. -/
theorem Unfolds.locate_eq (hp : p.Unfolds f) (code : Code) :
    p.locate code = some (f.handles.find? (p.shows fun n => n.code = code)) := by
  have hedge : [EdgeFlags.to ⟨true, false, false⟩ p.root].map (·.child) = f.roots :=
    hp.roots_eq.symm
  rw [← hp.spans.firstAnswer_eq hp.spans.height_le_size hedge, firstAnswer_singleton]
  rfl

/-- A variable is bound by a listed slot if it is one of those that the listed nodes bind. -/
theorem isSome_find?_vars_iff (v : Var) :
    (f.handles.find? (p.shows fun n => n.vars.any (·.id = v))).isSome ↔
      ∃ x ∈ (p.nodesOn f).flatMap (·.vars), x.id = v := by
  have hany := p.any_nodesOn (fun n => n.vars.any (·.id = v)) f
  rw [Bool.eq_iff_iff, List.any_eq_true, List.any_eq_true] at hany
  rw [List.find?_isSome, ← hany]
  simp only [List.any_eq_true, decide_eq_true_eq, List.mem_flatMap]
  constructor
  · rintro ⟨n, hn, x, hx, hid⟩
    exact ⟨x, ⟨n, hn, hx⟩, hid⟩
  · rintro ⟨x, ⟨n, hn, hx⟩, hid⟩
    exact ⟨n, hn, x, hx, hid⟩

/-! ### Trees -/

namespace TreeOf

/-- What the walks below a reached slot tell about the listing of its subtree. -/
theorem walks_below (hp : p.TreeOf f) (hh : p.Reached h) :
    ∃ below l, p.Spans (.cons h below .nil) ∧ (h :: below.handles).Sublist f.handles ∧
      p.bfs h = some l ∧ p.Levelled h below l ∧
      p.requiresBelow h = some ((h :: below.handles).any (p.shows (·.requires.any))) ∧
      p.storesBelow h = some ((h :: below.handles).any (p.shows (·.stores.any))) := by
  obtain ⟨below, hbelow, hsub, -⟩ := hp.spans.exists_subtree (hp.reached_iff.mp hh)
  obtain ⟨l, hl, hlevelled⟩ := hbelow.exists_levelled (hp.nodup.sublist hsub)
  have hsome : ∀ q, p.someBelow q p.size h = some ((h :: below.handles).any (p.shows q)) := by
    intro q
    rw [hbelow.someBelow_eq, any_nodesOn, Forest.handles_cons, Forest.handles_nil, List.append_nil]
  exact ⟨below, l, hbelow, hsub, hl, hlevelled, hsome _, hsome _⟩

/-- The walks over a tree agree.  The stack machine lists its slots in pre-order, each once.  The
first listed slot with a code is the one that is located, the length of the listing is the count of
the root, and the slots that return something are as many as are counted.  Below every reached slot
the queue machine lists the slots of the subtree by their distance, and a search for something that
is required or stored succeeds where a listed slot has it.  The first listed slot that binds a
variable is found, and there is one if the variable is among those bound. -/
theorem walks_agree (hp : p.TreeOf f) :
    p.preorder = some f.handles ∧ f.handles.Nodup ∧
      (∀ code, p.locate code = some (f.handles.find? (p.shows fun n => n.code = code))) ∧
      p.count p.root = some f.handles.length ∧
      p.countReturning p.root = some (f.handles.countP (p.shows (·.stores.returns))) ∧
      (∀ h, p.Reached h → ∃ below l, p.Spans (.cons h below .nil) ∧
        (h :: below.handles).Sublist f.handles ∧ p.bfs h = some l ∧ p.Levelled h below l ∧
        p.requiresBelow h = some ((h :: below.handles).any (p.shows (·.requires.any))) ∧
        p.storesBelow h = some ((h :: below.handles).any (p.shows (·.stores.any)))) ∧
      ∃ vs, p.boundVars = some vs ∧ ∀ v, ∃ found, p.variableNode v = some found ∧
        found = f.handles.find? (p.shows fun n => n.vars.any (·.id = v)) ∧
        (found.isSome ↔ ∃ x ∈ vs, x.id = v) := by
  have hlisted := hp.spans.preorder_eq hp.roots_eq
  have hreturning :
      p.countReturning p.root = some (f.handles.countP (p.shows (·.stores.returns))) := by
    obtain ⟨below, hf⟩ := Forest.exists_eq_of_roots_singleton hp.roots_eq
    have htop : p.Spans (.cons p.root below .nil) := hf ▸ hp.spans
    rw [countReturning, htop.tally_size, List.sum_map_toNat, countP_nodesOn, ← hf]
  have hvariable : ∀ v, p.variableNode v
      = some (f.handles.find? (p.shows fun n => n.vars.any (·.id = v))) := by
    intro v
    rw [variableNode, hlisted]
    rfl
  exact ⟨hlisted, hp.nodup, hp.locate_eq, hp.count_eq, hreturning, fun h => hp.walks_below,
    _, hp.boundVars_eq, fun v => ⟨_, hvariable v, rfl, isSome_find?_vars_iff v⟩⟩

end TreeOf

/-- A reading room with a book and its title and with a journal, which has the code of the title.  A
note with that code was taken off the room, and the slots are in no order. -/
def readingRoom : Pattern where
  name := "room"
  nodes := #[{ Node.make ⟨2⟩ "" "title" with
      parent := some 2, stores := ⟨false, false, true, false⟩,
      vars := [⟨⟨0⟩, "t", .value, some ⟨2⟩⟩] },
    Node.make ⟨2⟩ "" "note",
    { Node.make ⟨1⟩ "" "book" with parent := some 3, edges := [⟨⟨false, true, false⟩, 0⟩] },
    { Node.make ⟨0⟩ "" "room" with
      edges := [⟨⟨true, false, false⟩, 2⟩, ⟨⟨true, false, true⟩, 4⟩] },
    { Node.make ⟨2⟩ "" "journal" with parent := some 3, requires := ⟨true, false, false⟩ }]
  root := 3

/-- The theorem at a room where the first slot with a code is not the nearest one. -/
theorem walks_agree_readingRoom : readingRoom.preorder = some [3, 2, 0, 4] ∧
    readingRoom.locate ⟨2⟩ = some (some 0) ∧ readingRoom.count 3 = some 4 ∧
    readingRoom.countReturning 3 = some 1 ∧ readingRoom.variableNode ⟨0⟩ = some (some 0) ∧
    ∃ below, readingRoom.bfs 3 = some [3, 2, 4, 0] ∧
      readingRoom.Levelled 3 below [3, 2, 4, 0] := by
  have hroom : readingRoom.TreeOf
      (.cons 3 (.cons 2 (.cons 0 .nil .nil) (.cons 4 .nil .nil)) .nil) := by
    refine ⟨⟨?_, rfl⟩, by decide⟩
    simp only [Spans]
    decide
  obtain ⟨hlisted, -, hlocated, hcount, hreturning, hbelow, vs, -, hvariable⟩ := hroom.walks_agree
  obtain ⟨below, l, -, -, hl, hlevelled, -, -⟩ := hbelow 3 .refl
  obtain ⟨found, hfound, rfl, -⟩ := hvariable ⟨0⟩
  obtain rfl : [3, 2, 4, 0] = l := Option.some.inj ((by decide : _ = some _).symm.trans hl)
  exact ⟨hlisted, hlocated ⟨2⟩, hcount, hreturning, hfound, below, hl, hlevelled⟩

end TwigAlgebra.Pattern
