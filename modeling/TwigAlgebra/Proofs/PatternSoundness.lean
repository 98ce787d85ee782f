import Mathlib.Data.List.Pairwise
import TwigAlgebra.Pattern.Validate
import TwigAlgebra.Proofs.Traversal

/-!
# What the check of a pattern accepts

The check descends with a stack of slots, each with the parent it was reached from.  It accepts if
and only if a forest hangs from the stack, of slots, codes and variables that fit together.  The
children of a node go on the stack in reverse, so that the forest below it is met in reverse, too.

## Main definitions

* `Pattern.Hangs` — a forest whose parent links are right.
* `Pattern.Unseen` — a forest without repetitions, apart from what is seen.
* `Pattern.Sound` — a pattern that is a tree.

## Main results

* `Pattern.checkAll_eq_ok_iff` — the check of a stack.
* `Pattern.validate_eq_ok_iff` — the check accepts exactly the sound patterns.
-/

namespace TwigAlgebra.Pattern

/-! ### Forests and parent links -/

/-- The forest has the listed top slots, each node links to the parent listed with it, and the
forest below hangs from its children in turn. -/
def Hangs (p : Pattern) : List (Handle × Option Handle) → Forest → Prop
  | [], .nil => True
  | (h, parent) :: links, .cons h' below rest => h' = h ∧ ∃ n, p.node? h = some n ∧
      n.parent = parent ∧ p.Hangs (n.children.map fun c => (c, some h)) below ∧ p.Hangs links rest
  | _, _ => False

variable {p q : Pattern} {f g : Forest} {links links' : List (Handle × Option Handle)}

theorem hangs_nil_iff : p.Hangs [] f ↔ f = .nil := by
  cases f <;> simp [Hangs]

theorem hangs_cons_iff {h : Handle} {parent : Option Handle} :
    p.Hangs ((h, parent) :: links) f ↔ ∃ n below rest, f = .cons h below rest ∧
      p.node? h = some n ∧ n.parent = parent ∧
      p.Hangs (n.children.map fun c => (c, some h)) below ∧ p.Hangs links rest := by
  cases f with
  | nil => simp [Hangs]
  | cons h' below rest =>
    simp only [Hangs, Forest.cons.injEq]
    constructor
    · rintro ⟨rfl, n, hn, hparent, hbelow, hrest⟩
      exact ⟨n, below, rest, ⟨rfl, rfl, rfl⟩, hn, hparent, hbelow, hrest⟩
    · rintro ⟨n, below', rest', ⟨rfl, rfl, rfl⟩, hn, hparent, hbelow, hrest⟩
      exact ⟨rfl, n, hn, hparent, hbelow, hrest⟩

theorem hangs_append_iff :
    p.Hangs (links ++ links') f
      ↔ ∃ g g', f = g.append g' ∧ p.Hangs links g ∧ p.Hangs links' g' := by
  induction links generalizing f with
  | nil => simp [hangs_nil_iff]
  | cons link links ih =>
    obtain ⟨h, parent⟩ := link
    rw [List.cons_append, hangs_cons_iff]
    constructor
    · rintro ⟨n, below, rest, rfl, hn, hparent, hbelow, hrest⟩
      obtain ⟨g, g', rfl, hg, hg'⟩ := ih.mp hrest
      exact ⟨.cons h below g, g', rfl, hangs_cons_iff.mpr ⟨n, below, g, rfl, hn, hparent, hbelow, hg⟩,
        hg'⟩
    · rintro ⟨g, g', rfl, hg, hg'⟩
      obtain ⟨n, below, rest, rfl, hn, hparent, hbelow, hrest⟩ := hangs_cons_iff.mp hg
      exact ⟨n, below, rest.append g', rfl, hn, hparent, hbelow, ih.mpr ⟨rest, g', rfl, hrest, hg'⟩⟩

namespace Hangs

theorem roots_eq (hf : p.Hangs links f) : f.roots = links.map Prod.fst := by
  induction links generalizing f with
  | nil => rw [hangs_nil_iff.mp hf, Forest.roots_nil, List.map_nil]
  | cons link links ih =>
    obtain ⟨n, below, rest, rfl, -, -, -, hrest⟩ := hangs_cons_iff.mp hf
    rw [Forest.roots_cons, ih hrest, List.map_cons]

theorem spans (hf : p.Hangs links f) : p.Spans f := by
  induction f generalizing links with
  | nil => trivial
  | cons h below rest ihb ihr =>
    cases links with
    | nil => cases hf
    | cons link links =>
      obtain ⟨rfl, n, hn, -, hbelow, hrest⟩ := hf
      refine ⟨?_, ihb hbelow, ihr hrest⟩
      rw [children?, hn, hbelow.roots_eq, List.map_map, Option.map_some]
      exact congrArg some (List.map_id _).symm

theorem reverse (hf : p.Hangs links f) : p.Hangs links.reverse f.reverse := by
  induction f generalizing links with
  | nil =>
    cases links with
    | nil => trivial
    | cons link links => cases hf
  | cons h below rest _ ihr =>
    cases links with
    | nil => cases hf
    | cons link links =>
      obtain ⟨rfl, n, hn, hparent, hbelow, hrest⟩ := hf
      rw [List.reverse_cons, Forest.reverse]
      exact hangs_append_iff.mpr
        ⟨_, _, rfl, ihr hrest, rfl, n, hn, hparent, hbelow, trivial⟩

theorem parent_eq_of_mem (hf : p.Hangs links f)
    {c : Handle} {parent : Option Handle} (hc : (c, parent) ∈ links) {m : Node}
    (hm : p.node? c = some m) : m.parent = parent := by
  induction f generalizing links with
  | nil =>
    cases links with
    | nil => cases hc
    | cons link links => cases hf
  | cons h below rest _ ihr =>
    cases links with
    | nil => cases hf
    | cons link links =>
      obtain ⟨rfl, n, hn, hparent, -, hrest⟩ := hf
      rcases List.mem_cons.mp hc with rfl | hc
      · cases hn.symm.trans hm
        exact hparent
      · exact ihr hrest hc

/-- A child links to its parent. -/
theorem parent_eq (hf : p.Hangs links f)
    {i c : Handle} (hi : i ∈ f.handles) {n m : Node} (hn : p.node? i = some n)
    (hc : c ∈ n.children) (hm : p.node? c = some m) : m.parent = some i := by
  induction f generalizing links with
  | nil => cases hi
  | cons h below rest ihb ihr =>
    cases links with
    | nil => cases hf
    | cons link links =>
      obtain ⟨rfl, n', hn', -, hbelow, hrest⟩ := hf
      rcases List.mem_cons.mp hi with rfl | hi
      · cases hn.symm.trans hn'
        exact hbelow.parent_eq_of_mem (List.mem_map_of_mem hc) hm
      · rcases List.mem_append.mp hi with hi | hi
        · exact ihb hbelow hi
        · exact ihr hrest hi

end Hangs

/-! ### What is seen -/

/-- The slots and codes of a forest occur once in it and are not seen yet, and every variable
records its node. -/
structure Unseen (p : Pattern) (seen : Seen) (f : Forest) : Prop where
  /-- No slot repeats. -/
  slots : (f.handles ++ seen.slots).Nodup
  /-- No code repeats. -/
  codes : ((p.nodesOn f).map (·.code) ++ seen.codes).Nodup
  /-- Every variable records the node it is bound to. -/
  recorded : ∀ n ∈ p.nodesOn f, ∀ v ∈ n.vars, v.node = some n.code

theorem unseen_congr {seen : Seen} (h : f.handles.Perm g.handles) :
    p.Unseen seen f ↔ p.Unseen seen g := by
  have hnodes : (p.nodesOn f).Perm (p.nodesOn g) := h.filterMap _
  constructor
  · rintro ⟨hslots, hcodes, hrecorded⟩
    exact ⟨(h.append_right _).nodup hslots, ((hnodes.map _).append_right _).nodup hcodes,
      fun n hn => hrecorded n (hnodes.symm.subset hn)⟩
  · rintro ⟨hslots, hcodes, hrecorded⟩
    exact ⟨(h.symm.append_right _).nodup hslots,
      ((hnodes.symm.map _).append_right _).nodup hcodes,
      fun n hn => hrecorded n (hnodes.subset hn)⟩

/-- The first node is unseen, and so is the rest when it is seen. -/
theorem unseen_cons_iff {seen : Seen} {h : Handle} {n : Node} {below rest : Forest}
    (hn : p.node? h = some n) :
    p.Unseen seen (.cons h below rest)
      ↔ (h ∉ seen.slots ∧ n.code ∉ seen.codes ∧ ∀ v ∈ n.vars, v.node = some n.code) ∧
        p.Unseen ⟨h :: seen.slots, n.code :: seen.codes⟩ (below.append rest) := by
  -- the slot moves from the forest to what has been seen
  have hslots : ((below.append rest).handles ++ h :: seen.slots).Perm
      ((Forest.cons h below rest).handles ++ seen.slots) := by
    rw [Forest.handles_append, Forest.handles_cons, List.cons_append]
    exact List.perm_middle
  have hcodes : ((p.nodesOn (below.append rest)).map (·.code) ++ n.code :: seen.codes).Perm
      ((p.nodesOn (.cons h below rest)).map (·.code) ++ seen.codes) := by
    rw [nodesOn_cons hn, nodesOn, Forest.handles_append, List.filterMap_append, List.map_cons,
      List.cons_append]
    exact List.perm_middle
  have hmem : ∀ m, m ∈ p.nodesOn (.cons h below rest) ↔ m = n ∨ m ∈ p.nodesOn (below.append rest) := by
    intro m
    rw [nodesOn_cons hn, nodesOn, nodesOn, nodesOn, Forest.handles_append, List.filterMap_append,
      List.mem_cons]
  constructor
  · rintro ⟨h1, h2, h3⟩
    refine ⟨⟨?_, ?_, h3 n ((hmem n).mpr (Or.inl rfl))⟩, hslots.symm.nodup h1, hcodes.symm.nodup h2,
      fun m hm => h3 m ((hmem m).mpr (Or.inr hm))⟩
    · exact fun hseen => (List.nodup_cons.mp h1).1 (List.mem_append_right _ hseen)
    · rw [nodesOn_cons hn, List.map_cons, List.cons_append] at h2
      exact fun hseen => (List.nodup_cons.mp h2).1 (List.mem_append_right _ hseen)
  · rintro ⟨⟨-, -, h3⟩, h1, h2, h4⟩
    refine ⟨hslots.nodup h1, hcodes.nodup h2, fun m hm => ?_⟩
    rcases (hmem m).mp hm with rfl | hm
    · exact h3
    · exact h4 m hm

theorem unseen_nil_iff {seen : Seen} :
    p.Unseen seen .nil ↔ seen.slots.Nodup ∧ seen.codes.Nodup := by
  refine ⟨fun h => ⟨h.slots, h.codes⟩, fun h => ⟨h.1, h.2, fun n hn => ?_⟩⟩
  rw [nodesOn_nil] at hn
  cases hn

/-- It does not matter in which order children are met. -/
theorem exists_hangs_reverse_iff {seen : Seen} :
    (∃ f, p.Hangs (links.reverse ++ links') f ∧ p.Unseen seen f)
      ↔ ∃ f, p.Hangs (links ++ links') f ∧ p.Unseen seen f := by
  have himp : ∀ l : List (Handle × Option Handle),
      (∃ f, p.Hangs (l ++ links') f ∧ p.Unseen seen f) →
        ∃ f, p.Hangs (l.reverse ++ links') f ∧ p.Unseen seen f := by
    rintro l ⟨f, hf, hunseen⟩
    obtain ⟨g, g', rfl, hg, hg'⟩ := hangs_append_iff.mp hf
    refine ⟨g.reverse.append g', hangs_append_iff.mpr ⟨_, _, rfl, hg.reverse, hg'⟩,
      (unseen_congr ?_).mp hunseen⟩
    rw [Forest.handles_append, Forest.handles_append]
    exact g.handles_reverse_perm.symm.append_right _
  refine ⟨fun h => ?_, himp links⟩
  -- reversing twice changes nothing, so that one direction is enough
  have hback := himp links.reverse h
  rwa [List.reverse_reverse] at hback

/-- A forest hangs from a stack if the first slot is unseen and a forest hangs from its children and
the rest of the stack. -/
theorem exists_hangs_cons_iff {seen : Seen} {h : Handle} {parent : Option Handle} :
    (∃ f, p.Hangs ((h, parent) :: links) f ∧ p.Unseen seen f) ↔
      ∃ n, p.node? h = some n ∧ n.parent = parent ∧
        (h ∉ seen.slots ∧ n.code ∉ seen.codes ∧ ∀ v ∈ n.vars, v.node = some n.code) ∧
        ∃ f, p.Hangs ((n.children.map fun c => (c, some h)) ++ links) f ∧
          p.Unseen ⟨h :: seen.slots, n.code :: seen.codes⟩ f := by
  constructor
  · rintro ⟨f, hf, hunseen⟩
    obtain ⟨n, below, rest, rfl, hn, hparent, hbelow, hrest⟩ := hangs_cons_iff.mp hf
    obtain ⟨hfresh, hunseen⟩ := (unseen_cons_iff hn).mp hunseen
    exact ⟨n, hn, hparent, hfresh, below.append rest,
      hangs_append_iff.mpr ⟨below, rest, rfl, hbelow, hrest⟩, hunseen⟩
  · rintro ⟨n, hn, hparent, hfresh, f, hf, hunseen⟩
    obtain ⟨below, rest, rfl, hbelow, hrest⟩ := hangs_append_iff.mp hf
    exact ⟨.cons h below rest, hangs_cons_iff.mpr ⟨n, below, rest, rfl, hn, hparent, hbelow, hrest⟩,
      (unseen_cons_iff hn).mpr ⟨hfresh, hunseen⟩⟩

/-! ### The check -/

theorem checkSlot_eq_ok_iff {h : Handle} {parent : Option Handle} {seen : Seen}
    {r : Node × Seen} :
    p.checkSlot h parent seen = .ok r ↔ ∃ n, p.node? h = some n ∧ n.parent = parent ∧
      (h ∉ seen.slots ∧ n.code ∉ seen.codes ∧ ∀ v ∈ n.vars, v.node = some n.code) ∧
      r = (n, ⟨h :: seen.slots, n.code :: seen.codes⟩) := by
  have hstray : ∀ n : Node, strayVariable n = none ↔ ∀ v ∈ n.vars, v.node = some n.code := by
    intro n
    simp [strayVariable]
  rw [checkSlot]
  cases hn : p.node? h with
  | none => simp
  | some n =>
    -- the checks come one after the other, and each that fails is an error
    by_cases hslot : h ∈ seen.slots
    · simp [hslot]
    by_cases hcode : n.code ∈ seen.codes
    · simp [hslot, hcode]
    by_cases hparent : n.parent = parent
    · cases hv : strayVariable n with
      | none =>
        have hrecorded := (hstray n).mp hv
        simp only [hslot, hcode, hparent, hv, ne_eq, not_true_eq_false, not_false_eq_true, if_false,
          Except.ok.injEq, Option.some.injEq, true_and]
        exact ⟨fun hr => ⟨n, rfl, hparent, ⟨hcode, hrecorded⟩, hr.symm⟩,
          fun ⟨m, hm, _, _, hr⟩ => by rw [hr, hm]⟩
      | some v =>
        have hbad : ¬ ∀ v ∈ n.vars, v.node = some n.code := by
          rw [← hstray, hv]
          exact nofun
        simp [hslot, hcode, hparent, hv, hbad]
    · simp [hslot, hcode, hparent]

/-- The number of edges of the slots that are not listed. -/
def openEdges (p : Pattern) (slots : List Handle) : Nat :=
  (((List.range p.size).filter (· ∉ slots)).map
    fun h => ((p.node? h).map (·.edges.length)).getD 0).sum

theorem edgeCount_eq (p : Pattern) : p.edgeCount = p.openEdges [] := by
  have hmap : (List.range p.size).map (fun h => ((p.node? h).map (·.edges.length)).getD 0)
      = p.nodes.toList.map (·.edges.length) := by
    refine List.ext_getElem (by simp [size]) fun i hi hi' => ?_
    have hlt : i < p.nodes.size := by simpa using hi'
    simp [node?, hlt]
  have hall : (List.range p.size).filter (fun h => decide (h ∉ ([] : List Handle)))
      = List.range p.size := by simp
  rw [openEdges, hall, hmap, edgeCount, ← Array.foldl_toList, List.sum_eq_foldl, List.foldl_map]

/-- Listing another slot takes its edges away. -/
theorem openEdges_cons {slots : List Handle} {h : Handle} {n : Node} (hn : p.node? h = some n)
    (hh : h ∉ slots) : p.openEdges slots = n.edges.length + p.openEdges (h :: slots) := by
  have hlt : h < p.size := by
    by_contra hge
    rw [node?_eq_none_iff.mpr (Nat.le_of_not_lt hge)] at hn
    cases hn
  have hmem : h ∈ (List.range p.size).filter (· ∉ slots) := by simp [hlt, hh]
  have hnodup : ((List.range p.size).filter (· ∉ slots)).Nodup := List.nodup_range.filter _
  -- the slot is one of the range, and taking it out leaves those off the longer list
  have herase : ((List.range p.size).filter (· ∉ slots)).erase h
      = (List.range p.size).filter (· ∉ h :: slots) := by
    rw [hnodup.erase_eq_filter, List.filter_filter]
    refine List.filter_congr fun i _ => ?_
    simp [bne, Bool.beq_eq_decide_eq]
  have hperm := List.perm_cons_erase hmem
  rw [herase] at hperm
  rw [openEdges, (hperm.map _).sum_nat, List.map_cons, List.sum_cons, hn]
  rfl

/-- What the check of a stack amounts to after the first slot. -/
theorem checkAll_cons_eq_ok_iff {steps : Nat} {h : Handle} {parent : Option Handle}
    {stack : List (Handle × Option Handle)} {seen : Seen} :
    p.checkAll (steps + 1) ((h, parent) :: stack) seen = .ok () ↔
      ∃ n, p.node? h = some n ∧ n.parent = parent ∧
        (h ∉ seen.slots ∧ n.code ∉ seen.codes ∧ ∀ v ∈ n.vars, v.node = some n.code) ∧
        p.checkAll steps ((n.children.map fun c => (c, some h)).reverse ++ stack)
          ⟨h :: seen.slots, n.code :: seen.codes⟩ = .ok () := by
  rw [checkAll]
  constructor
  · intro hok
    cases hslot : p.checkSlot h parent seen with
    | error e =>
      rw [hslot] at hok
      cases hok
    | ok r =>
      rw [hslot] at hok
      obtain ⟨n, hn, hparent, hfresh, rfl⟩ := checkSlot_eq_ok_iff.mp hslot
      exact ⟨n, hn, hparent, hfresh, hok⟩
  · rintro ⟨n, hn, hparent, hfresh, hok⟩
    rw [checkSlot_eq_ok_iff.mpr ⟨n, hn, hparent, hfresh, rfl⟩]
    exact hok

/-- With a step for every slot on the stack and every edge still to be followed, the check accepts
exactly the stacks from which an unseen forest hangs. -/
theorem checkAll_eq_ok_iff {steps : Nat} {stack : List (Handle × Option Handle)} {seen : Seen}
    (hseen : p.Unseen seen .nil) (hsteps : stack.length + p.openEdges seen.slots ≤ steps) :
    p.checkAll steps stack seen = .ok () ↔ ∃ f, p.Hangs stack f ∧ p.Unseen seen f := by
  induction steps generalizing stack seen with
  | zero =>
    have hstack : stack = [] := List.length_eq_zero_iff.mp (by omega)
    subst hstack
    exact iff_of_true (by rw [checkAll]) ⟨.nil, trivial, hseen⟩
  | succ steps ih =>
    cases stack with
    | nil => exact iff_of_true (by rw [checkAll]) ⟨.nil, trivial, hseen⟩
    | cons link stack =>
      obtain ⟨h, parent⟩ := link
      rw [checkAll_cons_eq_ok_iff, exists_hangs_cons_iff]
      refine exists_congr fun n => and_congr_right fun hn => and_congr_right fun _ =>
        and_congr_right fun hfresh => ?_
      -- the edges of the slot are no longer open, and its children are on the stack instead
      have hopen := openEdges_cons hn hfresh.1
      have hchildren : n.children.length = n.edges.length := List.length_map _
      have hseen' : p.Unseen ⟨h :: seen.slots, n.code :: seen.codes⟩ .nil :=
        unseen_nil_iff.mpr ⟨List.nodup_cons.mpr ⟨hfresh.1, hseen.slots⟩,
          List.nodup_cons.mpr ⟨hfresh.2.1, hseen.codes⟩⟩
      rw [ih hseen', exists_hangs_reverse_iff]
      rw [List.length_append, List.length_reverse, List.length_map]
      rw [List.length_cons, hopen] at hsteps
      show _ + p.openEdges (h :: seen.slots) ≤ steps
      omega

/-- The pattern is a tree: the forest hangs from its root, every slot and every code of it occurs
once, and every variable records its node. -/
structure Sound (p : Pattern) (f : Forest) : Prop where
  /-- The root has no parent, and every other node links to its own. -/
  hangs : p.Hangs [(p.root, none)] f
  /-- No slot repeats. -/
  nodup : f.handles.Nodup
  /-- No code repeats. -/
  codes : ((p.nodesOn f).map (·.code)).Nodup
  /-- Every variable records the node it is bound to. -/
  recorded : ∀ n ∈ p.nodesOn f, ∀ v ∈ n.vars, v.node = some n.code

/-- The check accepts exactly the patterns that are trees. -/
theorem validate_eq_ok_iff : p.validate = .ok () ↔ ∃ f, p.Sound f := by
  have hseen : p.Unseen .nothing .nil := unseen_nil_iff.mpr ⟨List.nodup_nil, List.nodup_nil⟩
  have hsteps : [(p.root, (none : Option Handle))].length + p.openEdges Seen.nothing.slots
      ≤ p.edgeCount + 1 := by
    rw [edgeCount_eq, List.length_singleton, Nat.add_comm]
    exact Nat.le_refl _
  rw [validate, checkAll_eq_ok_iff hseen hsteps]
  constructor
  · rintro ⟨f, hf, hslots, hcodes, hrecorded⟩
    rw [Seen.nothing, List.append_nil] at hslots hcodes
    exact ⟨f, hf, hslots, hcodes, hrecorded⟩
  · rintro ⟨f, hf, hslots, hcodes, hrecorded⟩
    refine ⟨f, hf, ?_, ?_, hrecorded⟩
    · rwa [Seen.nothing, List.append_nil]
    · rwa [Seen.nothing, List.append_nil]

namespace Sound

theorem spans (h : p.Sound f) : p.Spans f := h.hangs.spans

theorem roots_eq (h : p.Sound f) : f.roots = [p.root] := h.hangs.roots_eq

/-- A sound pattern is a finite tree. -/
theorem unfolds (h : p.Sound f) : p.Unfolds f := ⟨h.spans, h.roots_eq⟩

/-- The walks over a sound pattern list its nodes. -/
theorem nodesInOrder_eq (h : p.Sound f) : p.nodesInOrder = some (p.nodesOn f) :=
  h.unfolds.nodesInOrder_eq

theorem boundVars_eq (h : p.Sound f) : p.boundVars = some ((p.nodesOn f).flatMap (·.vars)) :=
  h.unfolds.boundVars_eq

/-- In a sound pattern a code has one slot. -/
theorem eq_of_code_eq (hp : p.Sound f) {i j : Handle} (hi : i ∈ f.handles)
    (hj : j ∈ f.handles) {n m : Node} (hn : p.node? i = some n) (hm : p.node? j = some m)
    (hcode : n.code = m.code) : i = j := by
  have hpairwise := hp.codes
  rw [List.Nodup, List.pairwise_map, nodesOn, List.pairwise_filterMap] at hpairwise
  have hsymm : Std.Symm fun i j => ∀ n, p.node? i = some n → ∀ m, p.node? j = some m →
      n.code ≠ m.code := ⟨fun _ _ h n hn m hm heq => h m hm n hn heq.symm⟩
  by_contra hne
  exact hpairwise.forall hi hj hne n hn m hm hcode

end Sound

end TwigAlgebra.Pattern
