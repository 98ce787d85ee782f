import Mathlib.Algebra.GroupWithZero.Nat
import Mathlib.Data.List.Perm.Subperm
import TwigAlgebra.Pattern.Basic

/-!
# Trees of slots

The nodes that hang together in an arena form trees of slots.  A forest lists such trees, each by
the slot of its top node and the forest below it, and a pattern spans a forest if every slot of it
holds a node with exactly the children that the forest says.  Walks over the arena are proved
correct by induction on the forest that the arena spans.

## Main definitions

* `Forest` — trees of slots.
* `Forest.roots`, `Forest.handles`, `Forest.lower` — the top slots, all slots in pre-order, and the
  slots below the top ones.
* `Pattern.Spans` — the arena holds the forest.
* `Pattern.Below` — a slot lies in the subtree of another.

## Main results

* `Forest.handles_perm` — the slots are the top ones and those below.
* `Pattern.Spans.unique` — an arena spans one forest at most over given top slots.
* `Pattern.Spans.exists_subtree` — every slot of a forest has its own subtree.
* `Pattern.Spans.height_le_size` — a forest is no higher than the arena.
-/

namespace TwigAlgebra

/-- Trees of slots. -/
inductive Forest where
  /-- No tree. -/
  | nil : Forest
  /-- A first tree, by the slot of its top node and the trees below that, and the other trees. -/
  | cons (h : Handle) (below rest : Forest) : Forest
  deriving DecidableEq, Repr, Inhabited

namespace Forest

/-- The slots of the top nodes. -/
def roots : Forest → List Handle
  | nil => []
  | cons h _ rest => h :: rest.roots

/-- All slots, in pre-order. -/
def handles : Forest → List Handle
  | nil => []
  | cons h below rest => h :: (below.handles ++ rest.handles)

/-- The slots below the top nodes. -/
def lower : Forest → List Handle
  | nil => []
  | cons _ below rest => below.handles ++ rest.lower

/-- The number of nodes on the longest way down. -/
def height : Forest → Nat
  | nil => 0
  | cons _ below rest => max (below.height + 1) rest.height

/-- The trees of two forests. -/
def append : Forest → Forest → Forest
  | nil, g => g
  | cons h below rest, g => cons h below (rest.append g)

/-- The trees in the opposite order; each tree stays as it is. -/
def reverse : Forest → Forest
  | nil => nil
  | cons h below rest => rest.reverse.append (cons h below nil)

@[simp] theorem roots_nil : nil.roots = [] := rfl

@[simp] theorem roots_cons (h : Handle) (below rest : Forest) :
    (cons h below rest).roots = h :: rest.roots := rfl

@[simp] theorem handles_nil : nil.handles = [] := rfl

@[simp] theorem handles_cons (h : Handle) (below rest : Forest) :
    (cons h below rest).handles = h :: (below.handles ++ rest.handles) := rfl

@[simp] theorem lower_nil : nil.lower = [] := rfl

@[simp] theorem lower_cons (h : Handle) (below rest : Forest) :
    (cons h below rest).lower = below.handles ++ rest.lower := rfl

@[simp] theorem nil_append (g : Forest) : nil.append g = g := rfl

@[simp] theorem cons_append (h : Handle) (below rest g : Forest) :
    (cons h below rest).append g = cons h below (rest.append g) := rfl

@[simp] theorem roots_append (f g : Forest) : (f.append g).roots = f.roots ++ g.roots := by
  induction f with
  | nil => rfl
  | cons h below rest _ ih => rw [cons_append, roots_cons, ih, roots_cons, List.cons_append]

@[simp] theorem handles_append (f g : Forest) :
    (f.append g).handles = f.handles ++ g.handles := by
  induction f with
  | nil => rfl
  | cons h below rest _ ih =>
    rw [cons_append, handles_cons, ih, handles_cons, List.cons_append, List.append_assoc]

@[simp] theorem lower_append (f g : Forest) : (f.append g).lower = f.lower ++ g.lower := by
  induction f with
  | nil => rfl
  | cons h below rest _ ih => rw [cons_append, lower_cons, ih, lower_cons, List.append_assoc]

theorem handles_reverse_perm (f : Forest) : f.reverse.handles.Perm f.handles := by
  induction f with
  | nil => exact .refl _
  | cons h below rest _ ih =>
    rw [reverse, handles_append]
    have hcomm := (ih.append_right (cons h below nil).handles).trans List.perm_append_comm
    simpa using hcomm

/-- Every slot is that of a top node or lies below one. -/
theorem handles_perm (f : Forest) : f.handles.Perm (f.roots ++ f.lower) := by
  induction f with
  | nil => exact .refl _
  | cons h below rest _ ih =>
    rw [handles_cons, roots_cons, lower_cons, List.cons_append]
    refine List.Perm.cons h ?_
    calc (below.handles ++ rest.handles).Perm (below.handles ++ (rest.roots ++ rest.lower)) :=
          ih.append_left _
      _ = (below.handles ++ rest.roots) ++ rest.lower := (List.append_assoc ..).symm
      List.Perm _ ((rest.roots ++ below.handles) ++ rest.lower) :=
          List.perm_append_comm.append_right _
      _ = rest.roots ++ (below.handles ++ rest.lower) := List.append_assoc ..

theorem mem_handles_of_mem_roots {f : Forest} {h : Handle} (hh : h ∈ f.roots) : h ∈ f.handles :=
  f.handles_perm.symm.subset (List.mem_append_left _ hh)

theorem exists_eq_of_roots_cons {f : Forest} {h : Handle} {l : List Handle}
    (hroots : f.roots = h :: l) : ∃ below rest, f = cons h below rest ∧ rest.roots = l := by
  cases f with
  | nil => cases hroots
  | cons h' below rest =>
    rw [roots_cons, List.cons.injEq] at hroots
    obtain ⟨rfl, hrest⟩ := hroots
    exact ⟨below, rest, rfl, hrest⟩

/-- A forest with one top slot is a tree. -/
theorem exists_eq_of_roots_singleton {f : Forest} {h : Handle} (hroots : f.roots = [h]) :
    ∃ below, f = cons h below nil := by
  obtain ⟨below, rest, rfl, hrest⟩ := exists_eq_of_roots_cons hroots
  cases rest with
  | nil => exact ⟨below, rfl⟩
  | cons h' below' rest' => cases hrest

/-- A split of the top slots splits the forest. -/
theorem exists_append_of_roots {f : Forest} {l l' : List Handle} (hroots : f.roots = l ++ l') :
    ∃ g g' : Forest, f = g.append g' ∧ g.roots = l ∧ g'.roots = l' := by
  induction l generalizing f with
  | nil => exact ⟨nil, f, rfl, rfl, hroots⟩
  | cons h l ih =>
    obtain ⟨below, rest, rfl, hrest⟩ := exists_eq_of_roots_cons hroots
    obtain ⟨g, g', rfl, rfl, hg'⟩ := ih hrest
    exact ⟨cons h below g, g', rfl, rfl, hg'⟩

theorem height_append (f g : Forest) : (f.append g).height = max f.height g.height := by
  induction f with
  | nil => simp [height]
  | cons h below rest _ ih =>
    rw [cons_append, height, height, ih, Nat.max_assoc]

end Forest

/-! ### Forests in an arena -/

namespace Pattern

/-- Every slot of the forest holds a node whose children are those in the forest. -/
def Spans (p : Pattern) : Forest → Prop
  | .nil => True
  | .cons h below rest => p.children? h = some below.roots ∧ p.Spans below ∧ p.Spans rest

theorem spans_append_iff {p : Pattern} {f g : Forest} :
    p.Spans (f.append g) ↔ p.Spans f ∧ p.Spans g := by
  induction f with
  | nil => simp [Spans]
  | cons h below rest _ ih => simp [Spans, ih, and_assoc]

theorem children?_eq_some_iff {p : Pattern} {h : Handle} {cs : List Handle} :
    p.children? h = some cs ↔ ∃ n, p.node? h = some n ∧ n.children = cs :=
  Option.map_eq_some_iff

namespace Spans

variable {p q : Pattern} {f g : Forest}

/-- Only the children of the slots matter. -/
theorem congr (hf : p.Spans f) (hpq : ∀ h ∈ f.handles, q.children? h = p.children? h) :
    q.Spans f := by
  induction f with
  | nil => trivial
  | cons h below rest ihb ihr =>
    obtain ⟨hh, hbelow, hrest⟩ := hf
    refine ⟨?_, ihb hbelow fun i hi => hpq i ?_, ihr hrest fun i hi => hpq i ?_⟩
    · rw [hpq h List.mem_cons_self, hh]
    · exact List.mem_cons_of_mem _ (List.mem_append_left _ hi)
    · exact List.mem_cons_of_mem _ (List.mem_append_right _ hi)

/-- The top slots determine the forest. -/
theorem unique (hf : p.Spans f) (hg : p.Spans g) (hroots : f.roots = g.roots) : f = g := by
  induction f generalizing g with
  | nil =>
    cases g with
    | nil => rfl
    | cons h below rest => cases hroots
  | cons h below rest ihb ihr =>
    cases g with
    | nil => cases hroots
    | cons h' below' rest' =>
      simp only [Forest.roots_cons, List.cons.injEq] at hroots
      obtain ⟨rfl, hroots⟩ := hroots
      obtain ⟨hh, hbelow, hrest⟩ := hf
      obtain ⟨hh', hbelow', hrest'⟩ := hg
      -- the listed children are those of the node, so that the trees below have the same tops
      have hbelow_roots : below.roots = below'.roots := Option.some.inj (hh.symm.trans hh')
      rw [ihb hbelow hbelow' hbelow_roots, ihr hrest hrest' hroots]

theorem exists_node (hf : p.Spans f) {h : Handle} (hh : h ∈ f.handles) :
    ∃ n, p.node? h = some n := by
  induction f with
  | nil => cases hh
  | cons h' below rest ihb ihr =>
    obtain ⟨hchildren, hbelow, hrest⟩ := hf
    rcases List.mem_cons.mp hh with rfl | hh
    · obtain ⟨n, hn, -⟩ := children?_eq_some_iff.mp hchildren
      exact ⟨n, hn⟩
    · rcases List.mem_append.mp hh with hh | hh
      · exact ihb hbelow hh
      · exact ihr hrest hh

theorem lt_size (hf : p.Spans f) {h : Handle} (hh : h ∈ f.handles) : h < p.size := by
  obtain ⟨n, hn⟩ := hf.exists_node hh
  by_contra hlt
  rw [node?_eq_none_iff.mpr (Nat.le_of_not_lt hlt)] at hn
  cases hn

/-- The subtree of a slot of the forest is no higher, and its slots stand in the forest in the same
order. -/
theorem exists_subtree (hf : p.Spans f) {h : Handle} (hh : h ∈ f.handles) :
    ∃ below, p.Spans (.cons h below .nil) ∧ (h :: below.handles).Sublist f.handles ∧
      below.height < f.height := by
  induction f with
  | nil => cases hh
  | cons h' below rest ihb ihr =>
    obtain ⟨hchildren, hbelow, hrest⟩ := hf
    rw [Forest.height]
    rcases List.mem_cons.mp hh with rfl | hh
    · refine ⟨below, ⟨hchildren, hbelow, trivial⟩, ?_, by omega⟩
      exact (List.sublist_append_left _ _).cons_cons h
    · rcases List.mem_append.mp hh with hh | hh
      · obtain ⟨b, hb, hsub, hheight⟩ := ihb hbelow hh
        exact ⟨b, hb, (hsub.trans (List.sublist_append_left _ _)).cons _, by omega⟩
      · obtain ⟨b, hb, hsub, hheight⟩ := ihr hrest hh
        exact ⟨b, hb, (hsub.trans (List.sublist_append_right _ _)).cons _, by omega⟩

/-- A slot is not below itself, for it would have a subtree lower than its own. -/
theorem self_not_mem {h : Handle} {below : Forest} (hf : p.Spans (.cons h below .nil)) : h ∉ below.handles := by
  intro hh
  obtain ⟨below', hspans', -, hlower⟩ := hf.2.1.exists_subtree hh
  cases hspans'.unique hf rfl
  exact Nat.lt_irrefl _ hlower

/-- Some way down a forest passes as many different slots as the forest is high. -/
theorem exists_way (hf : p.Spans f) :
    ∃ l : List Handle, l.length = f.height ∧ l.Nodup ∧ l ⊆ f.handles := by
  induction f with
  | nil => exact ⟨[], rfl, .nil, List.Subset.refl _⟩
  | cons h below rest ihb ihr =>
    obtain ⟨hchildren, hbelow, hrest⟩ := hf
    obtain ⟨l, hlength, hnodup, hsub⟩ := ihb hbelow
    obtain ⟨l', hlength', hnodup', hsub'⟩ := ihr hrest
    rw [Forest.height, Forest.handles_cons]
    rcases Nat.le_total rest.height (below.height + 1) with hle | hle
    · -- the longest way goes through the first tree, and its top is not below itself
      have hself : h ∉ below.handles := self_not_mem ⟨hchildren, hbelow, trivial⟩
      refine ⟨h :: l, ?_, List.nodup_cons.mpr ⟨fun hh => hself (hsub hh), hnodup⟩, ?_⟩
      · rw [List.length_cons, hlength, Nat.max_eq_left hle]
      · exact List.cons_subset_cons h fun i hi => List.mem_append_left _ (hsub hi)
    · -- the longest way goes through the other trees
      refine ⟨l', ?_, hnodup', fun i hi => ?_⟩
      · rw [hlength', Nat.max_eq_right hle]
      · exact List.mem_cons_of_mem _ (List.mem_append_right _ (hsub' hi))

/-- A forest is no higher than the arena has slots, for a way down never returns to a slot. -/
theorem height_le_size (hf : p.Spans f) : f.height ≤ p.size := by
  obtain ⟨l, hlength, hnodup, hsub⟩ := hf.exists_way
  have hrange : l ⊆ List.range p.size := fun h hh => List.mem_range.mpr (hf.lt_size (hsub hh))
  rw [← hlength]
  simpa using (hnodup.subperm hrange).length_le

/-- The children of a slot of the forest are slots of the forest. -/
theorem mem_of_mem_children (hf : p.Spans f) {h c : Handle} {cs : List Handle}
    (hh : h ∈ f.handles) (hcs : p.children? h = some cs) (hc : c ∈ cs) : c ∈ f.handles := by
  obtain ⟨below, ⟨hchildren, -, -⟩, hsub, -⟩ := hf.exists_subtree hh
  cases hcs.symm.trans hchildren
  exact hsub.subset (List.mem_cons_of_mem _ (Forest.mem_handles_of_mem_roots hc))

/-- A slot of the forest is that of a top node or a child of another slot of the forest. -/
theorem exists_parent (hf : p.Spans f) {c : Handle} (hc : c ∈ f.handles) :
    c ∈ f.roots ∨ ∃ h ∈ f.handles, ∃ cs, p.children? h = some cs ∧ c ∈ cs := by
  induction f with
  | nil => cases hc
  | cons h below rest ihb ihr =>
    obtain ⟨hchildren, hbelow, hrest⟩ := hf
    rcases List.mem_cons.mp hc with rfl | hc
    · exact Or.inl List.mem_cons_self
    · rcases List.mem_append.mp hc with hc | hc
      · right
        rcases ihb hbelow hc with htop | ⟨h', hh', hcs⟩
        · exact ⟨h, List.mem_cons_self, below.roots, hchildren, htop⟩
        · exact ⟨h', List.mem_cons_of_mem _ (List.mem_append_left _ hh'), hcs⟩
      · rcases ihr hrest hc with htop | ⟨h', hh', hcs⟩
        · exact Or.inl (List.mem_cons_of_mem _ htop)
        · exact Or.inr ⟨h', List.mem_cons_of_mem _ (List.mem_append_right _ hh'), hcs⟩

end Spans

/-! ### Subtrees in an arena -/

variable {p : Pattern} {f : Forest}

/-- The slot `i` lies in the subtree of `c`. -/
def Below (p : Pattern) (c i : Handle) : Prop :=
  ∃ below, p.Spans (.cons c below .nil) ∧ i ∈ c :: below.handles

theorem Spans.below_iff {c i : Handle} {below : Forest} (hf : p.Spans (.cons c below .nil)) :
    p.Below c i ↔ i ∈ c :: below.handles := by
  constructor
  · rintro ⟨below', hf', hi⟩
    cases hf.unique hf' rfl
    exact hi
  · exact fun hi => ⟨below, hf, hi⟩

/-- What is below a slot in a subtree is in the subtree. -/
theorem Below.of_mem_children {c i j : Handle} {n : Node} (h : p.Below c i)
    (hn : p.node? i = some n) (hj : j ∈ n.children) : p.Below c j := by
  obtain ⟨below, hf, hi⟩ := h
  refine ⟨below, hf, ?_⟩
  have hmem := hf.mem_of_mem_children (h := i) (by simpa using hi)
    (children?_eq_some_iff.mpr ⟨n, hn, rfl⟩) hj
  simpa using hmem

/-- A slot in a subtree is the top of it or a child of another slot there. -/
theorem Below.exists_parent {c j : Handle} (h : p.Below c j) :
    j = c ∨ ∃ i n, p.Below c i ∧ p.node? i = some n ∧ j ∈ n.children := by
  obtain ⟨below, hf, hj⟩ := h
  rcases hf.exists_parent (c := j) (by simpa using hj) with htop | ⟨i, hi, cs, hcs, hmem⟩
  · exact Or.inl (List.mem_singleton.mp htop)
  · obtain ⟨n, hn, rfl⟩ := children?_eq_some_iff.mp hcs
    exact Or.inr ⟨i, n, ⟨below, hf, by simpa using hi⟩, hn, hmem⟩

theorem Spans.below_self (hf : p.Spans f) {c : Handle} (hc : c ∈ f.handles) : p.Below c c := by
  obtain ⟨below, hspans, -, -⟩ := hf.exists_subtree hc
  exact ⟨below, hspans, List.mem_cons_self⟩

theorem Spans.mem_of_below (hf : p.Spans f) {c i : Handle} (hc : c ∈ f.handles)
    (h : p.Below c i) : i ∈ f.handles := by
  obtain ⟨below, hspans, hsub, -⟩ := hf.exists_subtree hc
  exact hsub.subset (hspans.below_iff.mp h)

end Pattern

end TwigAlgebra
