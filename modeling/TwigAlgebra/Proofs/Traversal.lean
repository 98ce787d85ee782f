import TwigAlgebra.Pattern.Walk
import TwigAlgebra.Proofs.Forest

/-!
# Walks over a spanned forest

What the walks over an arena answer when the arena spans a forest from where they start.  A
recursive descent needs as much fuel as the forest is high, and a listing takes one step per slot.

## Main definitions

* `Pattern.nodesOn` — the nodes of a forest, in pre-order.
* `Pattern.Unfolds`, `Pattern.IsFinite` — a pattern is a finite tree.
* `Pattern.Binds` — the variables that a finite tree binds, in pre-order.

## Main results

* `Pattern.Spans.count_eq`, `Pattern.Spans.someBelow_eq` — counting and searching.
* `Pattern.Spans.preorder_eq` — the pre-order listing is that of the forest.
* `Pattern.Spans.exists_bfs` — the listing by levels has every slot once.
* `Pattern.boundVars_eq_some_iff` — the bound variables are found exactly in finite trees.
-/

namespace TwigAlgebra.Pattern

/-- The nodes in the slots of a forest, in pre-order. -/
def nodesOn (p : Pattern) (f : Forest) : List Node := f.handles.filterMap p.node?

@[simp] theorem nodesOn_nil (p : Pattern) : p.nodesOn .nil = [] := rfl

@[simp] theorem nodesOn_cons {p : Pattern} {h : Handle} {n : Node} (hn : p.node? h = some n)
    (below rest : Forest) :
    p.nodesOn (.cons h below rest) = n :: (p.nodesOn below ++ p.nodesOn rest) := by
  simp [nodesOn, hn]

theorem mem_nodesOn_iff {p : Pattern} {f : Forest} {n : Node} :
    n ∈ p.nodesOn f ↔ ∃ h ∈ f.handles, p.node? h = some n :=
  List.mem_filterMap

/-- A first edge leads to the first top slot, and the others to the other top slots. -/
theorem exists_edges_of_roots_cons {es : List Edge} {h : Handle} {below rest : Forest}
    (hes : es.map (·.child) = (Forest.cons h below rest).roots) :
    ∃ e es', es = e :: es' ∧ e.child = h ∧ es'.map (·.child) = rest.roots := by
  cases es with
  | nil => cases hes
  | cons e es =>
    rw [List.map_cons, Forest.roots_cons, List.cons.injEq] at hes
    exact ⟨e, es, rfl, hes.1, hes.2⟩

namespace Spans

variable {p : Pattern}

/-! ### Counting and searching -/

theorem tally_eq (w : Node → Nat) {f : Forest} (hf : p.Spans f) {fuel : Nat}
    (hfuel : f.height ≤ fuel) {es : List Edge} (hes : es.map (·.child) = f.roots) (total : Nat) :
    es.foldlM (fun total e => do return total + (← p.tally w fuel e.child)) total
      = some (total + ((p.nodesOn f).map w).sum) := by
  induction f generalizing fuel es total with
  | nil =>
    rw [List.map_eq_nil_iff.mp hes]
    rfl
  | cons h below rest ihb ihr =>
    obtain ⟨e, es, rfl, rfl, hrestes⟩ := exists_edges_of_roots_cons hes
    obtain ⟨hh, hbelow, hrest⟩ := hf
    obtain ⟨n, hn, hchildren⟩ := children?_eq_some_iff.mp hh
    rw [Forest.height] at hfuel
    obtain ⟨fuel, rfl⟩ : ∃ k, fuel = k + 1 := ⟨fuel - 1, by omega⟩
    have hsub := ihb hbelow (by omega : below.height ≤ fuel) hchildren (w n)
    have hothers := ihr hrest (by omega : rest.height ≤ fuel + 1) hrestes
      (total + (w n + ((p.nodesOn below).map w).sum))
    have htally : p.tally w (fuel + 1) e.child = some (w n + ((p.nodesOn below).map w).sum) := by
      rw [tally, hn]
      exact hsub
    rw [List.foldlM_cons, htally]
    refine Eq.trans hothers ?_
    rw [nodesOn_cons hn, List.map_cons, List.sum_cons, List.map_append, List.sum_append]
    congr 1
    omega

/-- A subtree is spanned with enough fuel for a walk from its top. -/
theorem exists_fuel {h : Handle} {below : Forest} (hf : p.Spans (.cons h below .nil)) :
    ∃ fuel n, p.size = fuel + 1 ∧ below.height ≤ fuel ∧ p.node? h = some n ∧
      n.children = below.roots := by
  have hheight := hf.height_le_size
  rw [Forest.height, Forest.height] at hheight
  obtain ⟨n, hn, hchildren⟩ := children?_eq_some_iff.mp hf.1
  exact ⟨p.size - 1, n, by omega, by omega, hn, hchildren⟩

theorem length_nodesOn {f : Forest} (hf : p.Spans f) : (p.nodesOn f).length = f.handles.length := by
  rw [nodesOn, List.filterMap_length_eq_length]
  intro h hh
  obtain ⟨n, hn⟩ := hf.exists_node hh
  rw [hn]
  rfl

/-- The size of a subtree is the number of its slots. -/
theorem count_eq {h : Handle} {below : Forest} (hf : p.Spans (.cons h below .nil)) :
    p.count h = some (below.handles.length + 1) := by
  obtain ⟨fuel, n, hsize, hheight, hn, hchildren⟩ := hf.exists_fuel
  rw [count, hsize, tally, hn]
  refine Eq.trans (hf.2.1.tally_eq (fun _ => 1) hheight hchildren 1) ?_
  rw [List.map_const', List.sum_replicate_nat, hf.2.1.length_nodesOn]
  congr 1
  omega

theorem someBelow_among_eq (q : Node → Bool) {f : Forest} (hf : p.Spans f) {fuel : Nat}
    (hfuel : f.height ≤ fuel) {es : List Edge} (hes : es.map (·.child) = f.roots) :
    es.anyM (fun e => p.someBelow q fuel e.child) = some ((p.nodesOn f).any q) := by
  induction f generalizing fuel es with
  | nil =>
    rw [List.map_eq_nil_iff.mp hes]
    rfl
  | cons h below rest ihb ihr =>
    obtain ⟨e, es, rfl, rfl, hrestes⟩ := exists_edges_of_roots_cons hes
    obtain ⟨hh, hbelow, hrest⟩ := hf
    obtain ⟨n, hn, hchildren⟩ := children?_eq_some_iff.mp hh
    rw [Forest.height] at hfuel
    obtain ⟨fuel, rfl⟩ : ∃ k, fuel = k + 1 := ⟨fuel - 1, by omega⟩
    -- whether the tree of the first edge has such a node, and whether the others have one
    have hsub := ihb hbelow (by omega : below.height ≤ fuel) hchildren
    have hothers := ihr hrest (by omega : rest.height ≤ fuel + 1) hrestes
    have hsome : p.someBelow q (fuel + 1) e.child = some (q n || (p.nodesOn below).any q) := by
      rw [someBelow, hn]
      cases hq : q n with
      | true => simp [hq]
      | false => simpa [hq] using hsub
    rw [List.anyM_cons, hsome, hothers, nodesOn_cons hn, List.any_cons, List.any_append,
      ← Bool.or_assoc]
    cases q n || (p.nodesOn below).any q <;> rfl

/-- Searching a subtree finds a node with a property if there is one. -/
theorem someBelow_eq (q : Node → Bool) {h : Handle} {below : Forest}
    (hf : p.Spans (.cons h below .nil)) :
    p.someBelow q p.size h = some ((p.nodesOn (.cons h below .nil)).any q) := by
  obtain ⟨fuel, n, hsize, hheight, hn, hchildren⟩ := hf.exists_fuel
  rw [hsize, someBelow, hn]
  have hbelow := hf.2.1.someBelow_among_eq q hheight hchildren
  cases hq : q n with
  | true => simp [hn, hq]
  | false => simpa [hn, hq] using hbelow

/-! ### Listings -/

/-- The stack machine lists the forests on its stack in pre-order, one after the other. -/
theorem popAll_eq {f : Forest} (hf : p.Spans f) (steps : Nat) (stack : List Handle) :
    p.popAll (f.handles.length + steps) (f.roots ++ stack)
      = (p.popAll steps stack).map (f.handles ++ ·) := by
  induction f generalizing steps stack with
  | nil => simp
  | cons h below rest ihb ihr =>
    obtain ⟨hh, hbelow, hrest⟩ := hf
    obtain ⟨n, hn, hchildren⟩ := children?_eq_some_iff.mp hh
    have hsteps : (Forest.cons h below rest).handles.length + steps
        = below.handles.length + (rest.handles.length + steps) + 1 := by
      rw [Forest.handles_cons, List.length_cons, List.length_append]
      omega
    -- popping a slot pushes the ones below it, which are listed before the rest
    rw [hsteps, Forest.roots_cons, List.cons_append, popAll, hn]
    simp only [Option.bind_eq_bind, Option.bind_some, hchildren]
    rw [ihb hbelow, ihr hrest]
    cases p.popAll steps stack <;> simp

/-- The pre-order listing of a tree is that of the forest it spans. -/
theorem preorder_eq {f : Forest} (hf : p.Spans f) (hroots : f.roots = [p.root]) :
    p.preorder = some f.handles := by
  obtain ⟨below, rfl⟩ := Forest.exists_eq_of_roots_singleton hroots
  have hpop := hf.popAll_eq 0 []
  rw [preorder, hf.count_eq]
  simpa [popAll] using hpop

/-- The queue machine lists everything below the top slots once. -/
theorem exists_serveAll {k : Nat} {f : Forest} (hf : p.Spans f) (hk : f.handles.length = k) :
    ∃ l, p.serveAll k f.roots = some l ∧ l.Perm f.lower := by
  induction k generalizing f with
  | zero =>
    cases f with
    | nil => exact ⟨[], rfl, .refl _⟩
    | cons h below rest => cases hk
  | succ k ih =>
    cases f with
    | nil => cases hk
    | cons h below rest =>
      obtain ⟨hh, hbelow, hrest⟩ := hf
      obtain ⟨n, hn, hchildren⟩ := children?_eq_some_iff.mp hh
      -- the slots below the first one are served after the rest of its level
      have hlength : (rest.append below).handles.length = k := by
        rw [Forest.handles_cons, List.length_cons, List.length_append] at hk
        rw [Forest.handles_append, List.length_append]
        omega
      obtain ⟨l, hl, hperm⟩ := ih (spans_append_iff.mpr ⟨hrest, hbelow⟩) hlength
      refine ⟨below.roots ++ l, ?_, ?_⟩
      · rw [Forest.roots_append] at hl
        rw [Forest.roots_cons, serveAll, hn]
        simp [hchildren, hl]
      · rw [Forest.lower_append] at hperm
        calc (below.roots ++ l).Perm (below.roots ++ (rest.lower ++ below.lower)) :=
              hperm.append_left _
          List.Perm _ (below.roots ++ (below.lower ++ rest.lower)) :=
              List.perm_append_comm.append_left _
          _ = (below.roots ++ below.lower) ++ rest.lower := (List.append_assoc ..).symm
          List.Perm _ (below.handles ++ rest.lower) := below.handles_perm.symm.append_right _

/-- The listing by levels has every slot of the subtree once. -/
theorem exists_bfs {h : Handle} {below : Forest} (hf : p.Spans (.cons h below .nil)) :
    ∃ l, p.bfs h = some l ∧ l.Perm (h :: below.handles) := by
  obtain ⟨l, hl, hperm⟩ := hf.exists_serveAll rfl
  rw [Forest.lower_cons, Forest.lower_nil, List.append_nil] at hperm
  refine ⟨h :: l, ?_, hperm.cons h⟩
  rw [Forest.handles_cons, Forest.handles_nil, List.append_nil, List.length_cons] at hl
  rw [bfs, hf.count_eq]
  simp only [Option.bind_eq_bind, Option.bind_some]
  rw [show [h] = (Forest.cons h below .nil).roots from rfl, hl]
  rfl

theorem mapM_node?_eq {f : Forest} (hf : p.Spans f) {l : List Handle} (hl : l ⊆ f.handles) :
    l.mapM p.node? = some (l.filterMap p.node?) := by
  induction l with
  | nil => rfl
  | cons h l ih =>
    obtain ⟨n, hn⟩ := hf.exists_node (hl List.mem_cons_self)
    rw [List.mapM_cons, hn, ih fun i hi => hl (List.mem_cons_of_mem _ hi)]
    simp [hn]

theorem nodesInOrder_eq {f : Forest} (hf : p.Spans f) (hroots : f.roots = [p.root]) :
    p.nodesInOrder = some (p.nodesOn f) := by
  rw [nodesInOrder, hf.preorder_eq hroots]
  exact hf.mapM_node?_eq (List.Subset.refl _)

end Spans

/-! ### Finite trees -/

/-- From its root on, the pattern is the finite tree that the forest lists. -/
structure Unfolds (p : Pattern) (f : Forest) : Prop where
  /-- The slots of the forest hold its nodes. -/
  spans : p.Spans f
  /-- The root is its only top slot. -/
  roots_eq : f.roots = [p.root]

/-- From its root on, the pattern is a finite tree. -/
def IsFinite (p : Pattern) : Prop := ∃ f, p.Unfolds f

namespace Unfolds

variable {p : Pattern} {f : Forest}

theorem nodesInOrder_eq (h : p.Unfolds f) : p.nodesInOrder = some (p.nodesOn f) :=
  h.spans.nodesInOrder_eq h.roots_eq

theorem boundVars_eq (h : p.Unfolds f) : p.boundVars = some ((p.nodesOn f).flatMap (·.vars)) := by
  rw [boundVars, h.nodesInOrder_eq, Option.map_some]

/-- The size of a finite tree is the number of its slots. -/
theorem count_eq (h : p.Unfolds f) : p.count p.root = some f.handles.length := by
  obtain ⟨below, rfl⟩ := Forest.exists_eq_of_roots_singleton h.roots_eq
  rw [h.spans.count_eq, Forest.handles_cons, Forest.handles_nil, List.append_nil, List.length_cons]

end Unfolds

/-- A stack that the machine empties holds the top slots of a forest, and this is what it lists. -/
theorem exists_spans_of_popAll {p : Pattern} {steps : Nat} {stack l : List Handle}
    (h : p.popAll steps stack = some l) :
    ∃ f : Forest, p.Spans f ∧ f.roots = stack ∧ f.handles = l := by
  induction steps generalizing stack l with
  | zero =>
    cases stack with
    | nil =>
      cases h
      exact ⟨.nil, trivial, rfl, rfl⟩
    | cons i stack => cases h
  | succ steps ih =>
    cases stack with
    | nil =>
      cases h
      exact ⟨.nil, trivial, rfl, rfl⟩
    | cons i stack =>
      obtain ⟨n, hn, h⟩ := Option.bind_eq_some_iff.mp h
      obtain ⟨l, hl, h⟩ := Option.bind_eq_some_iff.mp h
      cases h
      -- what was pushed for the slot lies on top of the stack, and becomes the forest below it
      obtain ⟨f, hspans, hroots, rfl⟩ := ih hl
      obtain ⟨below, rest, rfl, hbelow, rfl⟩ := Forest.exists_append_of_roots hroots
      obtain ⟨hspansb, hspansr⟩ := spans_append_iff.mp hspans
      refine ⟨.cons i below rest, ⟨?_, hspansb, hspansr⟩, rfl, ?_⟩
      · exact children?_eq_some_iff.mpr ⟨n, hn, hbelow.symm⟩
      · rw [Forest.handles_cons, Forest.handles_append]

/-- The variables are those bound in the pattern's tree, which is finite, in pre-order of its
nodes. -/
def Binds (p : Pattern) (vs : List Variable) : Prop :=
  ∃ f : Forest, p.Spans f ∧ f.roots = [p.root] ∧ (p.nodesOn f).flatMap (·.vars) = vs

/-- The bound variables are found if the pattern is a finite tree, and in pre-order. -/
theorem boundVars_eq_some_iff {p : Pattern} {vs : List Variable} :
    p.boundVars = some vs ↔ p.Binds vs := by
  constructor
  · intro h
    obtain ⟨ns, hns, rfl⟩ := Option.map_eq_some_iff.mp h
    obtain ⟨l, hl, hns⟩ := Option.bind_eq_some_iff.mp hns
    obtain ⟨k, -, hpop⟩ := Option.bind_eq_some_iff.mp hl
    obtain ⟨f, hspans, hroots, rfl⟩ := exists_spans_of_popAll hpop
    rw [hspans.mapM_node?_eq (List.Subset.refl _), Option.some.injEq] at hns
    subst hns
    exact ⟨f, hspans, hroots, rfl⟩
  · rintro ⟨f, hspans, hroots, rfl⟩
    exact Unfolds.boundVars_eq ⟨hspans, hroots⟩

end TwigAlgebra.Pattern
