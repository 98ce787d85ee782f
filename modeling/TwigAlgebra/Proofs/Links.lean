import Mathlib.Data.Fintype.Card
import Mathlib.Data.Fintype.EquivFin
import Mathlib.Logic.Relation
import TwigAlgebra.Proofs.Traversal

/-!
# Edges and parent links

The arena of a pattern is a graph with two kinds of arrows: edges lead down from a node to its
children, and every node may link up to a parent.  Walks down stay finite if edges stay in the arena
and never lead back to where they started; walks up stay finite if the same holds of parent links.

## Main definitions

* `Pattern.Leads`, `Pattern.LinksTo` — the two kinds of arrows.
* `Pattern.Above`, `Pattern.Reached` — what is at or below a slot, and at or below the root.
* `Pattern.TreeOf` — what is reached is a tree.
* `Pattern.Founded` — edges stay in the arena and never come back.

## Main results

* `Pattern.Spans.not_transGen` — no way down a finite tree returns to its top.
* `Pattern.Founded.exists_spans` — where edges never come back, every slot has a finite subtree.
* `Pattern.transGen_insert` — what one more edge adds to the ways down.
* `Pattern.exists_noneReturns`, `Pattern.noneReturns_eq_some_iff` — the walk up ends, and what it
  finds.
-/

namespace TwigAlgebra.Pattern

open Relation

variable {p q : Pattern} {f : Forest} {h c i j : Handle}

/-- An edge of the node in slot `h` leads to the slot `c`. -/
def Leads (p : Pattern) (h c : Handle) : Prop := ∃ n, p.node? h = some n ∧ c ∈ n.children

/-- The node in slot `c` links to `h` as its parent. -/
def LinksTo (p : Pattern) (c h : Handle) : Prop := ∃ n, p.node? c = some n ∧ n.parent = some h

/-- Edges lead from `h` down to `c`, in any number of steps. -/
def Above (p : Pattern) : Handle → Handle → Prop := ReflTransGen p.Leads

/-- Edges lead from the root down to the slot. -/
def Reached (p : Pattern) (h : Handle) : Prop := p.Above p.root h

theorem lt_size_of_node? {n : Node} (hn : p.node? h = some n) : h < p.size := by
  by_contra hge
  rw [node?_eq_none_iff.mpr (Nat.le_of_not_lt hge)] at hn
  cases hn

theorem exists_node_of_lt_size (hh : h < p.size) : ∃ n, p.node? h = some n :=
  ⟨p.nodes[h], Array.getElem?_eq_getElem hh⟩

theorem Leads.lt_size (hlead : p.Leads h c) : h < p.size := by
  obtain ⟨n, hn, -⟩ := hlead
  exact lt_size_of_node? hn

theorem LinksTo.lt_size (hlink : p.LinksTo c h) : c < p.size := by
  obtain ⟨n, hn, -⟩ := hlink
  exact lt_size_of_node? hn

/-- A node has one parent at most. -/
theorem LinksTo.unique (hi : p.LinksTo c i) (hj : p.LinksTo c j) : i = j := by
  obtain ⟨n, hn, hni⟩ := hi
  obtain ⟨m, hm, hmj⟩ := hj
  cases hn.symm.trans hm
  exact Option.some.inj (hni.symm.trans hmj)

theorem Reached.leads (hh : p.Reached h) (hlead : p.Leads h c) : p.Reached c :=
  ReflTransGen.tail hh hlead

/-! ### Ways down -/

/-- Trees side by side make a forest. -/
theorem exists_spans_of_roots {l : List Handle} (hl : ∀ c ∈ l, ∃ b, p.Spans (.cons c b .nil)) :
    ∃ f : Forest, p.Spans f ∧ f.roots = l := by
  induction l with
  | nil => exact ⟨.nil, trivial, rfl⟩
  | cons c l ih =>
    obtain ⟨b, hb⟩ := hl c List.mem_cons_self
    obtain ⟨f, hf, hroots⟩ := ih fun i hi => hl i (List.mem_cons_of_mem _ hi)
    exact ⟨.cons c b f, ⟨hb.1, hb.2.1, hf⟩, by rw [Forest.roots_cons, hroots]⟩

/-- A node with the trees of its children below it is a tree. -/
theorem exists_spans_of_children {n : Node} (hn : p.node? h = some n)
    (hchildren : ∀ c ∈ n.children, ∃ b, p.Spans (.cons c b .nil)) :
    ∃ below, p.Spans (.cons h below .nil) := by
  obtain ⟨below, hbelow, hroots⟩ := exists_spans_of_roots hchildren
  exact ⟨below, children?_eq_some_iff.mpr ⟨n, hn, hroots.symm⟩, hbelow, trivial⟩

/-- A slot of a forest is at or below a top slot. -/
theorem Spans.exists_above (hf : p.Spans f) (hc : c ∈ f.handles) : ∃ r ∈ f.roots, p.Above r c := by
  induction f with
  | nil => cases hc
  | cons h below rest ihb ihr =>
    obtain ⟨hh, hbelow, hrest⟩ := hf
    rcases List.mem_cons.mp hc with rfl | hc
    · exact ⟨c, List.mem_cons_self, .refl⟩
    · rcases List.mem_append.mp hc with hc | hc
      · obtain ⟨r, hr, habove⟩ := ihb hbelow hc
        obtain ⟨n, hn, hchildren⟩ := children?_eq_some_iff.mp hh
        exact ⟨h, List.mem_cons_self, .head ⟨n, hn, hchildren ▸ hr⟩ habove⟩
      · obtain ⟨r, hr, habove⟩ := ihr hrest hc
        exact ⟨r, List.mem_cons_of_mem _ hr, habove⟩

/-- What is below a slot of a forest is a slot of the forest. -/
theorem Spans.mem_of_above (hf : p.Spans f) (hh : h ∈ f.handles) (habove : p.Above h c) :
    c ∈ f.handles := by
  induction habove with
  | refl => exact hh
  | tail _ hlead ih =>
    obtain ⟨n, hn, hc⟩ := hlead
    exact hf.mem_of_mem_children ih (children?_eq_some_iff.mpr ⟨n, hn, rfl⟩) hc

/-- The slots of a finite tree are those at or below its top. -/
theorem Spans.mem_iff_above {below : Forest} (hf : p.Spans (.cons h below .nil)) :
    c ∈ (Forest.cons h below .nil).handles ↔ p.Above h c := by
  constructor
  · intro hc
    obtain ⟨r, hr, habove⟩ := hf.exists_above hc
    rw [List.mem_singleton.mp hr] at habove
    exact habove
  · exact hf.mem_of_above List.mem_cons_self

/-- The reached slots of a finite tree are those that it lists. -/
theorem Unfolds.reached_iff (hp : p.Unfolds f) : p.Reached h ↔ h ∈ f.handles := by
  obtain ⟨below, rfl⟩ := Forest.exists_eq_of_roots_singleton hp.roots_eq
  exact hp.spans.mem_iff_above.symm

/-- From its root on, the pattern is the tree that the forest lists: a finite one without shared
slots. -/
structure TreeOf (p : Pattern) (f : Forest) : Prop extends Unfolds p f where
  /-- No slot repeats. -/
  nodup : f.handles.Nodup

/-- A way down a finite tree leads to a lower subtree. -/
theorem Spans.exists_spans_of_transGen {below : Forest} (hf : p.Spans (.cons h below .nil))
    (hway : TransGen p.Leads h c) : ∃ b, p.Spans (.cons c b .nil) ∧ b.height < below.height := by
  have hchild : ∀ {i j : Handle} {b : Forest}, p.Spans (.cons i b .nil) → p.Leads i j →
      ∃ b', p.Spans (.cons j b' .nil) ∧ b'.height < b.height := by
    rintro i j b hb ⟨n, hn, hj⟩
    obtain ⟨m, hm, hchildren⟩ := children?_eq_some_iff.mp hb.1
    cases hn.symm.trans hm
    have hmem : j ∈ b.handles := Forest.mem_handles_of_mem_roots (hchildren ▸ hj)
    obtain ⟨b', hb', -, hheight⟩ := hb.2.1.exists_subtree hmem
    exact ⟨b', hb', hheight⟩
  induction hway with
  | single hlead => exact hchild hf hlead
  | tail _ hlead ih =>
    obtain ⟨b, hb, hlt⟩ := ih
    obtain ⟨b', hb', hlt'⟩ := hchild hb hlead
    exact ⟨b', hb', by omega⟩

/-- No way down a finite tree returns to its top, for subtrees get lower. -/
theorem Spans.not_transGen {below : Forest} (hf : p.Spans (.cons h below .nil)) :
    ¬ TransGen p.Leads h h := by
  intro hway
  obtain ⟨b, hb, hlt⟩ := hf.exists_spans_of_transGen hway
  cases hf.unique hb rfl
  omega

/-- Edges lead to slots of the arena, and never back to where they started. -/
structure Founded (p : Pattern) : Prop where
  /-- An edge stays in the arena. -/
  closed : ∀ h c, p.Leads h c → c < p.size
  /-- No way down is a cycle. -/
  acyclic : ∀ h, ¬ TransGen p.Leads h h

/-- In a part of the arena that edges do not leave, and where they never come back, every slot has a
finite subtree. -/
theorem exists_spans_of_acyclic {S : Handle → Prop} (hnode : ∀ i, S i → i < p.size)
    (hclosed : ∀ i j, S i → p.Leads i j → S j) (hacyclic : ∀ i, S i → ¬ TransGen p.Leads i i)
    (hh : S h) : ∃ below, p.Spans (.cons h below .nil) := by
  -- there are finitely many slots, so that "below" is well-founded on the part
  let Part := { i : Fin p.size // S i }
  let Under (c h : Part) : Prop := TransGen p.Leads h.val c.val
  have : IsTrans Part Under := ⟨fun _ _ _ hab hbc => TransGen.trans hbc hab⟩
  have : Std.Irrefl Under := ⟨fun h => hacyclic h.val h.property⟩
  have hwf : WellFounded Under := Finite.wellFounded_of_trans_of_irrefl Under
  suffices hall : ∀ h : Part, ∃ below, p.Spans (.cons h.val below .nil) from
    hall ⟨⟨h, hnode h hh⟩, hh⟩
  intro h
  induction h using hwf.induction with
  | _ h ih =>
    obtain ⟨n, hn⟩ := exists_node_of_lt_size h.val.isLt
    have hchild : ∀ c ∈ n.children, ∃ b, p.Spans (.cons c b .nil) := fun c hc =>
      have hlead : p.Leads h.val c := ⟨n, hn, hc⟩
      have hpart : S c := hclosed h.val c h.property hlead
      ih ⟨⟨c, hnode c hpart⟩, hpart⟩ (.single hlead)
    exact exists_spans_of_children hn hchild

namespace Founded

/-- An arena with fewer edges and no fewer slots. -/
theorem mono (hp : p.Founded) (hsize : p.size ≤ q.size)
    (hleads : ∀ h c, q.Leads h c → p.Leads h c) : q.Founded where
  closed h c hlead := Nat.lt_of_lt_of_le (hp.closed h c (hleads h c hlead)) hsize
  acyclic h hway := hp.acyclic h (TransGen.mono hleads h h hway)

/-- Where edges never come back, every slot has a finite subtree. -/
theorem exists_spans (hp : p.Founded) (hh : h < p.size) :
    ∃ below, p.Spans (.cons h below .nil) :=
  exists_spans_of_acyclic (fun _ hi => hi) (fun i j _ => hp.closed i j)
    (fun i _ => hp.acyclic i) hh

end Founded

/-- A way that may also use an arrow from `a` to `b` avoids it or goes through it. -/
theorem transGen_insert {α : Type} {r r' : α → α → Prop} {a b : α}
    (hr : ∀ x y, r' x y → r x y ∨ x = a ∧ y = b) {x y : α} (hway : TransGen r' x y) :
    TransGen r x y ∨ ReflTransGen r x a ∧ ReflTransGen r b y := by
  induction hway with
  | single hxy =>
    rcases hr _ _ hxy with hxy | ⟨rfl, rfl⟩
    · exact Or.inl (.single hxy)
    · exact Or.inr ⟨.refl, .refl⟩
  | @tail y z _ hyz ih =>
    rcases hr _ _ hyz with hyz | ⟨rfl, rfl⟩
    · rcases ih with ih | ⟨hxa, hby⟩
      · exact Or.inl (ih.tail hyz)
      · exact Or.inr ⟨hxa, hby.tail hyz⟩
    · rcases ih with ih | ⟨hxa, -⟩
      · exact Or.inr ⟨ih.to_reflTransGen, .refl⟩
      · exact Or.inr ⟨hxa, .refl⟩

/-- One more edge closes no cycle if nothing led back from its end to its start. -/
theorem Founded.of_insert (hp : p.Founded) (hsize : p.size ≤ q.size) (hc : c < q.size)
    (hleads : ∀ i j, q.Leads i j → p.Leads i j ∨ i = h ∧ j = c) (hback : ¬ p.Above c h) :
    q.Founded where
  closed i j hlead := by
    rcases hleads i j hlead with hlead | ⟨-, rfl⟩
    · exact Nat.lt_of_lt_of_le (hp.closed i j hlead) hsize
    · exact hc
  acyclic i hway := by
    rcases transGen_insert hleads hway with hway | ⟨hih, hci⟩
    · exact hp.acyclic i hway
    · exact hback (hci.trans hih)

/-! ### Ways up -/

/-- The walk up from a slot ends within as many steps as there are slots, if links stay in a part of
the arena and never come back there. -/
theorem exists_noneReturns {S : Handle → Prop} (hnode : ∀ i, S i → i < p.size)
    (hlink : ∀ i j, S i → p.LinksTo i j → S j) (hacyclic : ∀ i, S i → ¬ TransGen p.LinksTo i i)
    (hc : S c) : ∃ b, p.noneReturns p.size (some c) = some b := by
  -- the slots passed so far are different, and all of them lead to the one where the walk stands
  have hwalk : ∀ (fuel : Nat) (passed : List Handle) (c : Handle), S c → passed.Nodup →
      (∀ i ∈ passed, i < p.size ∧ TransGen p.LinksTo i c) → p.size ≤ fuel + passed.length →
      ∃ b, p.noneReturns fuel (some c) = some b := by
    intro fuel
    induction fuel with
    | zero =>
      intro passed c hc hnodup hpassed hsize
      -- without fuel all slots would have been passed, and the one at hand once more
      have hnew : c ∉ passed := fun hmem => hacyclic c hc (hpassed c hmem).2
      have hsub : c :: passed ⊆ List.range p.size := by
        intro i hi
        rw [List.mem_range]
        rcases List.mem_cons.mp hi with rfl | hi
        · exact hnode i hc
        · exact (hpassed i hi).1
      have hle := ((List.nodup_cons.mpr ⟨hnew, hnodup⟩).subperm hsub).length_le
      rw [List.length_cons, List.length_range] at hle
      omega
    | succ fuel ih =>
      intro passed c hc hnodup hpassed hsize
      obtain ⟨n, hn⟩ := exists_node_of_lt_size (hnode c hc)
      rw [noneReturns, hn]
      simp only [Option.bind_eq_bind, Option.bind_some]
      split
      · exact ⟨false, rfl⟩
      · cases hparent : n.parent with
        | none => exact ⟨true, by rw [noneReturns]⟩
        -- one step up, and the slot at hand has been passed
        | some j =>
          have hcj : p.LinksTo c j := ⟨n, hn, hparent⟩
          have hnew : c ∉ passed := fun hmem => hacyclic c hc (hpassed c hmem).2
          refine ih (c :: passed) j (hlink c j hc hcj) (List.nodup_cons.mpr ⟨hnew, hnodup⟩) ?_ ?_
          · intro i hi
            rcases List.mem_cons.mp hi with rfl | hi
            · exact ⟨hnode i hc, .single hcj⟩
            · exact ⟨(hpassed i hi).1, (hpassed i hi).2.tail hcj⟩
          · rw [List.length_cons]
            omega
  exact hwalk p.size [] c hc List.nodup_nil nofun (by simp)

/-- What the walk up finds: whether none of the slots it passes returns anything. -/
theorem noneReturns_eq_some_iff {fuel : Nat} {b : Bool}
    (hwalk : p.noneReturns fuel (some c) = some b) :
    b = true ↔ ∀ i, ReflTransGen p.LinksTo c i → ∀ n, p.node? i = some n →
      n.stores.returns = false := by
  induction fuel generalizing c with
  | zero => cases hwalk
  | succ fuel ih =>
    rw [noneReturns] at hwalk
    obtain ⟨n, hn, hwalk⟩ := Option.bind_eq_some_iff.mp hwalk
    by_cases hreturns : n.stores.returns = true
    · rw [if_pos hreturns] at hwalk
      cases hwalk
      -- the walk stops at the slot itself
      refine iff_of_false nofun fun hall => ?_
      rw [hall c .refl n hn] at hreturns
      cases hreturns
    · rw [if_neg hreturns] at hwalk
      have hself : ∀ m, p.node? c = some m → m.stores.returns = false := by
        intro m hm
        cases hn.symm.trans hm
        exact Bool.not_eq_true _ ▸ hreturns
      -- otherwise it depends on what is above, if there is anything
      have hstep : (∀ i, ReflTransGen p.LinksTo c i → ∀ m, p.node? i = some m →
          m.stores.returns = false) ↔ ∀ j, n.parent = some j → ∀ i, ReflTransGen p.LinksTo j i →
            ∀ m, p.node? i = some m → m.stores.returns = false := by
        constructor
        · exact fun hall j hj i hi => hall i (.head ⟨n, hn, hj⟩ hi)
        · intro hall i hi
          rcases hi.cases_head with rfl | ⟨j, ⟨m, hm, hj⟩, hji⟩
          · exact hself
          · cases hn.symm.trans hm
            exact hall j hj i hji
      rw [hstep]
      cases hparent : n.parent with
      | none =>
        rw [hparent, noneReturns] at hwalk
        cases hwalk
        exact iff_of_true rfl nofun
      | some j =>
        rw [hparent] at hwalk
        rw [ih hwalk]
        exact ⟨fun hall k hk => Option.some.inj hk ▸ hall, fun hall => hall j rfl⟩

end TwigAlgebra.Pattern
