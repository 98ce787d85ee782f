import TwigAlgebra.Proofs.PlanResolution
import TwigAlgebra.Proofs.Repetition

/-!
# Resolution in document order

The references of a predicate, a template or a path stand in slots, and the slots have an order:
that in which they are listed.  Resolution visits them in the same order, although it goes through
the clauses, the nodes and the levels of a structure and never sees the list.  The list of slots that
it leaves, and its failure, are what the resolution of the list of slots gives, which replaces the
references one after the other up to the first that cannot be settled.

Nothing but references is replaced.  What else there is shows when all references are replaced by
the same one.

## Main definitions

* `Slot.SettlesTo`, `Slot.Unsettled` — what a slot becomes, and why it cannot be settled.
* `Positions.resolveSlot` — the resolution of a slot.
* `Predicate.outline`, `Template.outline` — everything but the references.
* `InOrder` — slots are resolved in order up to the first that cannot be settled.

## Main results

* `Positions.each_resolveSlot_cases` — the resolution of a list of slots.
* `Predicate.map_slots_resolve`, `Template.map_slots_resolve`, `Positions.map_along_resolveFrom` —
  the slots are resolved as a list.
* `Positions.resolve_inOrder` — predicates, templates and paths are resolved in order.
-/

namespace TwigAlgebra

/-! ### Work on lists -/

namespace Attempt

variable {α β : Type} {f : α → Attempt α} {g : β → Attempt β} {l : List α}

/-- Work on two lists, one after the other. -/
theorem each_append (f : α → Attempt α) (l l' : List α) :
    each f (l ++ l') = match (each f l).failure with
      | none => (each f l').map ((each f l).value ++ ·)
      | some e => stopped ((each f l).value ++ l') e := by
  induction l with
  | nil => rfl
  | cons a as ih =>
    rw [List.cons_append, each, each, ih]
    cases (f a).failure with
    | some e => rfl
    | none =>
      rw [failure_map, value_map]
      cases (each f as).failure <;> rfl

/-- If the work on something is work on its parts, then so is the work on a list of such things. -/
theorem map_flatMap_each {parts : α → List β} (h : ∀ a, (f a).map parts = each g (parts a))
    (l : List α) : (each f l).map (·.flatMap parts) = each g (l.flatMap parts) := by
  induction l with
  | nil => rfl
  | cons a as ih =>
    rw [each, List.flatMap_cons, each_append, ← h a, failure_map, value_map, ← ih]
    cases (f a).failure <;> rfl

/-- What work on one thing does not change is not changed by work on a list. -/
theorem Keeps.each {γ : Type} {m : α → γ} (h : Keeps m f) : Keeps (List.map m) (each f) := by
  intro l
  induction l with
  | nil => rfl
  | cons a as ih =>
    rw [Attempt.each]
    cases (f a).failure with
    | none => exact congrArg₂ List.cons (h a) ih
    | some e => exact congrArg₂ List.cons (h a) rfl

/-- Work on a list is complete, or it has stopped at an element and not touched the later ones. -/
theorem each_cases {Done : α → α → Prop} {Stopped : α → PlanError → Prop}
    (h : ∀ a, (∃ b, f a = done b ∧ Done a b) ∨ ∃ e, f a = stopped a e ∧ Stopped a e)
    (l : List α) :
    (∃ m, each f l = done m ∧ List.Forall₂ Done l m) ∨
      ∃ before a after before' e, l = before ++ a :: after ∧ Stopped a e ∧
        List.Forall₂ Done before before' ∧ each f l = stopped (before' ++ a :: after) e := by
  induction l with
  | nil => exact Or.inl ⟨[], rfl, .nil⟩
  | cons a as ih =>
    rcases h a with ⟨b, ha, hab⟩ | ⟨e, ha, he⟩
    · -- the first element is done, and the others are gone through
      have hcons : each f (a :: as) = (each f as).map (b :: ·) := by
        rw [each, ha]
        rfl
      rcases ih with ⟨m, hm, hasm⟩ | ⟨before, a', after, before', e, rfl, he, hbefore, hm⟩
      · refine Or.inl ⟨b :: m, ?_, .cons hab hasm⟩
        rw [hcons, hm]
        rfl
      · refine Or.inr ⟨a :: before, a', after, b :: before', e, rfl, he, .cons hab hbefore, ?_⟩
        rw [hcons, hm]
        rfl
    · -- the first element stops everything
      refine Or.inr ⟨[], a, as, [], e, rfl, he, .nil, ?_⟩
      rw [each, ha]
      rfl

end Attempt

open Attempt

/-! ### Slots -/

namespace Slot

/-- What a slot becomes: a position stays, and a key becomes the index of its path at the level of
the slot. -/
inductive SettlesTo (ps : Positions) : Slot → Slot → Prop
  /-- A position stays as it is. -/
  | position (depth i : Nat) : SettlesTo ps ⟨depth, .resolved i⟩ ⟨depth, .resolved i⟩
  /-- A key becomes an index of its path. -/
  | key {depth i : Nat} {key : ColumnKey} {path : List Nat} (hpath : ps.get? key = some path)
      (hi : path[depth]? = some i) : SettlesTo ps ⟨depth, .symbolic key⟩ ⟨depth, .resolved i⟩

/-- Why a slot cannot be settled. -/
inductive Unsettled (ps : Positions) (reader : String) : Slot → PlanError → Prop
  /-- The key has no path. -/
  | nowhere {depth : Nat} {key : ColumnKey} (h : ps.get? key = none) :
      Unsettled ps reader ⟨depth, .symbolic key⟩ (.unbound key reader)
  /-- The path of the key does not reach the level of the slot. -/
  | shallow {depth : Nat} {key : ColumnKey} {path : List Nat} (hpath : ps.get? key = some path)
      (hlength : path.length ≤ depth) :
      Unsettled ps reader ⟨depth, .symbolic key⟩ (.tooShallow key reader depth)

variable {ps : Positions} {reader : String} {s t : Slot} {e : PlanError}

theorem SettlesTo.not_unsettled (h : s.SettlesTo ps t) : ¬ s.Unsettled ps reader e := by
  intro he
  cases h with
  | position depth i => cases he
  | key hpath hi =>
    cases he with
    | nowhere hnone =>
      rw [hpath] at hnone
      cases hnone
    | shallow hpath' hlength =>
      cases hpath.symm.trans hpath'
      have hlt := (List.getElem?_eq_some_iff.mp hi).1
      omega

/-- A slot that was settled names no key. -/
theorem SettlesTo.key?_eq_none (h : s.SettlesTo ps t) : t.ref.key? = none := by
  cases h <;> rfl

end Slot

namespace Positions

variable (ps : Positions) (reader : String)

/-- Resolves the reference in a slot. -/
def resolveSlot (s : Slot) : Attempt Slot :=
  (Attempt.replacing s.ref (ps.resolveAt reader s.depth s.ref)).map (Slot.mk s.depth)

/-- A slot is settled, or stays as it is. -/
theorem resolveSlot_cases (s : Slot) :
    (∃ t, ps.resolveSlot reader s = done t ∧ s.SettlesTo ps t) ∨
      ∃ e, ps.resolveSlot reader s = stopped s e ∧ s.Unsettled ps reader e := by
  obtain ⟨depth, c⟩ := s
  cases c with
  | resolved i => exact Or.inl ⟨⟨depth, .resolved i⟩, rfl, .position depth i⟩
  | symbolic key =>
    cases hpath : ps.get? key with
    | none =>
      have hat : ps.resolveAt reader depth (.symbolic key) = .error (.unbound key reader) := by
        rw [resolveAt, hpath]
      refine Or.inr ⟨.unbound key reader, ?_, .nowhere hpath⟩
      rw [resolveSlot, hat]
      rfl
    | some path =>
      cases hi : path[depth]? with
      | none =>
        have hat : ps.resolveAt reader depth (.symbolic key)
            = .error (.tooShallow key reader depth) := by
          simp only [resolveAt, hpath, hi]
        have hlength : path.length ≤ depth := List.getElem?_eq_none_iff.mp hi
        refine Or.inr ⟨.tooShallow key reader depth, ?_, .shallow hpath hlength⟩
        rw [resolveSlot, hat]
        rfl
      | some i =>
        have hat : ps.resolveAt reader depth (.symbolic key) = .ok (.resolved i) := by
          simp only [resolveAt, hpath, hi]
        refine Or.inl ⟨⟨depth, .resolved i⟩, ?_, .key hpath hi⟩
        rw [resolveSlot, hat]
        rfl

/-- A list of slots is settled, or one of them cannot be, and all before it are settled. -/
theorem each_resolveSlot_cases (l : List Slot) :
    (∃ m, each (ps.resolveSlot reader) l = done m ∧ List.Forall₂ (Slot.SettlesTo ps) l m) ∨
      ∃ before s after before' e, l = before ++ s :: after ∧ s.Unsettled ps reader e ∧
        List.Forall₂ (Slot.SettlesTo ps) before before' ∧
        each (ps.resolveSlot reader) l = stopped (before' ++ s :: after) e :=
  each_cases (ps.resolveSlot_cases reader) l

end Positions

/-! ### Predicates, templates and paths -/

section Slots

variable (ps : Positions) (reader : String)

theorem Positions.map_single_resolveOne (c : ColumnRef) :
    (ps.resolveOne reader c).map Slot.single = ps.resolveSlot reader (Slot.single c) := rfl

/-- A path is resolved slot by slot. -/
theorem Positions.map_along_resolveFrom (depth : Nat) (cs : List ColumnRef) :
    (ps.resolveFrom reader depth cs).map (Slot.along depth)
      = each (ps.resolveSlot reader) (Slot.along depth cs) := by
  induction cs generalizing depth with
  | nil => rfl
  | cons c cs ih =>
    have hslot : ps.resolveSlot reader ⟨depth, c⟩
        = (Attempt.replacing c (ps.resolveAt reader depth c)).map (Slot.mk depth) := rfl
    rw [resolveFrom, Slot.along_cons, each, hslot]
    cases ps.resolveAt reader depth c with
    | ok c' =>
      show _ = (each (ps.resolveSlot reader) (Slot.along (depth + 1) cs)).map (⟨depth, c'⟩ :: ·)
      rw [← ih (depth + 1)]
      rfl
    | error e => rfl

/-- The slots of a comparison, the left one first. -/
def Condition.slots (c : Condition) : List Slot := c.columns.map Slot.single

theorem Condition.map_slots_resolve (c : Condition) :
    (c.resolve ps reader).map slots = each (ps.resolveSlot reader) c.slots := by
  obtain ⟨left, right, comparison⟩ := c
  have hslots : slots ⟨left, right, comparison⟩
      = Slot.single left :: right.column?.toList.map Slot.single := rfl
  rw [resolve, hslots, each, ← ps.map_single_resolveOne]
  -- whether the left side is settled decides whether the right one is visited
  rcases ps.resolveOne reader left with ⟨left', _ | e⟩
  · cases right with
    | literal l => rfl
    | column c =>
      show _ = (each (ps.resolveSlot reader) [Slot.single c]).map (Slot.single left' :: ·)
      rw [each, ← ps.map_single_resolveOne]
      show ((ps.resolveOne reader c).map fun c' =>
        (⟨left', .column c', comparison⟩ : Condition)).map slots = _
      rcases ps.resolveOne reader c with ⟨c', _ | e⟩ <;> rfl
  · rfl

/-- The slots of a predicate are those of its comparisons. -/
theorem Predicate.slots_eq_flatMap (p : Predicate) :
    p.slots = p.clauses.flatMap fun cs => cs.flatMap Condition.slots := by
  rw [slots, columns, List.map_flatMap]
  exact congrArg (p.clauses.flatMap ·) (funext fun cs => List.map_flatMap)

/-- A predicate is resolved slot by slot. -/
theorem Predicate.map_slots_resolve (p : Predicate) :
    (p.resolve ps reader).map slots = each (ps.resolveSlot reader) p.slots := by
  have hclauses := map_flatMap_each (map_flatMap_each (Condition.map_slots_resolve ps reader))
    p.clauses
  rw [slots_eq_flatMap, ← hclauses, resolve]
  exact congrArg (Attempt.mk · _) (slots_eq_flatMap _)

/-- The slots of what a template node emits. -/
def Content.slots (c : Content) : List Slot := c.path?.toList.flatMap (Slot.along 0)

theorem Content.map_slots_resolve (c : Content) :
    (c.resolve ps).map slots = each (ps.resolveSlot Content.reader) c.slots := by
  cases c with
  | path refs =>
    have hslots : ∀ refs, (path refs).slots = Slot.along 0 refs := fun refs =>
      List.flatMap_singleton (Slot.along 0) refs
    rw [hslots, ← ps.map_along_resolveFrom Content.reader 0]
    exact congrArg (Attempt.mk · _) (hslots _)
  | _ => rfl

namespace Template

/-- The slots of some templates, in document order. -/
def slotsAll (ts : List Template) : List Slot := (pathsAll ts).flatMap (Slot.along 0)

theorem slots_node (c : Content) (ts : List Template) :
    (node c ts).slots = c.slots ++ slotsAll ts := by
  rw [slots, paths_node, List.flatMap_append]
  rfl

theorem slotsAll_cons (t : Template) (ts : List Template) :
    slotsAll (t :: ts) = t.slots ++ slotsAll ts := by
  rw [slotsAll, pathsAll, List.flatMap_append]
  rfl

mutual

/-- A template is resolved slot by slot. -/
theorem map_slots_resolve : ∀ t : Template,
    (t.resolve ps).map slots = each (ps.resolveSlot Content.reader) t.slots
  | node c ts => by
    rw [resolve, slots_node, each_append, ← c.map_slots_resolve ps, failure_map, value_map,
      ← map_slotsAll_resolveEach ts]
    cases (c.resolve ps).failure with
    | none => exact congrArg (Attempt.mk · _) (slots_node _ _)
    | some e => exact congrArg (Attempt.mk · _) (slots_node _ _)

theorem map_slotsAll_resolveEach : ∀ ts : List Template,
    (resolveEach ps ts).map slotsAll = each (ps.resolveSlot Content.reader) (slotsAll ts)
  | [] => rfl
  | t :: ts => by
    rw [resolveEach, slotsAll_cons, each_append, ← map_slots_resolve t, failure_map, value_map,
      ← map_slotsAll_resolveEach ts]
    cases (t.resolve ps).failure with
    | none => exact congrArg (Attempt.mk · _) (slotsAll_cons _ _)
    | some e => exact congrArg (Attempt.mk · _) (slotsAll_cons _ _)

end

end Template

end Slots

/-! ### What resolution leaves alone -/

/-- The same reference at every place. -/
def ColumnRef.blank (_ : Nat) (_ : ColumnRef) : ColumnRef := .resolved 0

/-- The comparisons of a predicate, their literals and how they are joined, but not the references
that are compared. -/
def Predicate.outline (p : Predicate) : Predicate := p.mapRefs ColumnRef.blank

/-- The nodes of a template, their tags, names and texts and the lengths of their paths, but not the
references on these. -/
def Template.outline (t : Template) : Template := t.mapRefs ColumnRef.blank

section Outlines

variable (ps : Positions) (reader : String)

theorem ColumnRef.mapAlong_blank (depth : Nat) (cs : List ColumnRef) :
    mapAlong blank depth cs = List.replicate cs.length (.resolved 0) := by
  induction cs generalizing depth with
  | nil => rfl
  | cons c cs ih => exact congrArg (.resolved 0 :: ·) (ih (depth + 1))

theorem Positions.keeps_length_resolveFrom (depth : Nat) :
    Keeps List.length (ps.resolveFrom reader depth) := by
  intro cs
  induction cs generalizing depth with
  | nil => rfl
  | cons c cs ih =>
    rw [resolveFrom]
    cases ps.resolveAt reader depth c with
    | ok c' => exact congrArg (· + 1) (ih (depth + 1))
    | error e => rfl

theorem Condition.keeps_mapRefs_resolve :
    Keeps (mapRefs ColumnRef.blank) (resolve ps reader) := by
  have hleft : Keeps (mapRefs ColumnRef.blank) (leftPart.on (ps.resolveOne reader)) := fun _ => rfl
  have hright : Keeps (mapRefs ColumnRef.blank) (rightPart.on (Operand.resolve ps reader)) := by
    intro c
    obtain ⟨left, right, comparison⟩ := c
    cases right <;> rfl
  rw [resolve_eq_andThen]
  exact hleft.andThen hright

theorem Predicate.keeps_outline_resolve : Keeps outline (resolve ps reader) := fun p =>
  congrArg Predicate.mk ((Condition.keeps_mapRefs_resolve ps reader).each.each p.clauses)

theorem Content.keeps_mapRefs_resolve : Keeps (mapRefs ColumnRef.blank) (resolve ps) := by
  intro c
  cases c with
  | path refs =>
    have hlength := ps.keeps_length_resolveFrom Content.reader 0 refs
    show path (ColumnRef.mapAlong _ 0 (ps.resolveFrom Content.reader 0 refs).value) = path _
    rw [ColumnRef.mapAlong_blank, ColumnRef.mapAlong_blank, hlength]
  | _ => rfl

namespace Template

mutual

theorem outline_resolve : ∀ t : Template, (t.resolve ps).value.outline = t.outline
  | node c ts => by
    have hc := Content.keeps_mapRefs_resolve ps c
    rw [resolve]
    cases (c.resolve ps).failure with
    | none => exact congrArg₂ node hc (mapRefsAll_resolveEach ts)
    | some e => exact congrArg₂ node hc rfl

theorem mapRefsAll_resolveEach : ∀ ts : List Template,
    mapRefsAll ColumnRef.blank (resolveEach ps ts).value = mapRefsAll ColumnRef.blank ts
  | [] => rfl
  | t :: ts => by
    have ht := outline_resolve t
    rw [resolveEach]
    cases (t.resolve ps).failure with
    | none => exact congrArg₂ List.cons ht (mapRefsAll_resolveEach ts)
    | some e => exact congrArg₂ List.cons ht rfl

end

end Template

end Outlines

/-! ### Order -/

/-- The slots of `a` are resolved in their order.  If all of them can be settled, they are, and no
key is left.  Otherwise the failure is that of the first slot that cannot be settled; those before
it are settled, and it stays as it is with all after it.  In both cases the outline stays the same,
and the resolution of what is left comes to the same end. -/
structure InOrder {α σ : Type} (ps : Positions) (reader : String) (slots : α → List Slot)
    (keys : α → List ColumnKey) (outline : α → σ) (resolve : α → Attempt α) (a : α) : Prop where
  /-- The resolution is complete if every slot can be settled, and only then. -/
  complete_iff : (resolve a).failure = none ↔ ∀ s ∈ slots a, ∃ t, s.SettlesTo ps t
  /-- If it is complete, every slot is settled and no key is left. -/
  complete : (resolve a).failure = none →
    List.Forall₂ (Slot.SettlesTo ps) (slots a) (slots (resolve a).value) ∧
      keys (resolve a).value = []
  /-- If it stops, it is at the first slot that cannot be settled. -/
  stopped : ∀ e, (resolve a).failure = some e → ∃ before s after before',
    slots a = before ++ s :: after ∧ s.Unsettled ps reader e ∧
      slots (resolve a).value = before' ++ s :: after ∧
      List.Forall₂ (Slot.SettlesTo ps) before before'
  /-- In any case nothing but references is replaced. -/
  outline : outline (resolve a).value = outline a
  /-- Resolving the result comes to the same end and changes nothing. -/
  again : resolve (resolve a).value = resolve a

theorem InOrder.of_map_slots {α σ : Type} {ps : Positions} {reader : String}
    {slots : α → List Slot} {keys : α → List ColumnKey} {outline : α → σ}
    {resolve : α → Attempt α}
    (hslots : ∀ a, (resolve a).map slots = each (ps.resolveSlot reader) (slots a))
    (hkeys : ∀ a, keys a = ColumnRef.keys ((slots a).map Slot.ref))
    (houtline : Keeps outline resolve) (hagain : Repeats resolve) (a : α) :
    InOrder ps reader slots keys outline resolve a := by
  have hfailure : (resolve a).failure = (each (ps.resolveSlot reader) (slots a)).failure :=
    congrArg Attempt.failure (hslots a)
  have hvalue : slots (resolve a).value = (each (ps.resolveSlot reader) (slots a)).value :=
    congrArg Attempt.value (hslots a)
  rcases ps.each_resolveSlot_cases reader (slots a) with
    ⟨m, hm, hsettled⟩ | ⟨before, s, after, before', e, hs, he, hbefore, hm⟩
  · -- no slot fails
    rw [hm] at hfailure hvalue
    have hall : ∀ s ∈ slots a, ∃ t, s.SettlesTo ps t := by
      intro s hs
      obtain ⟨t, -, ht⟩ := hsettled.flip.exists_of_mem_right hs
      exact ⟨t, ht⟩
    have hnone : keys (resolve a).value = [] := by
      rw [hkeys, hvalue, ColumnRef.keys, List.filterMap_eq_nil_iff, List.forall_mem_map]
      intro t ht
      obtain ⟨s, -, hst⟩ := hsettled.exists_of_mem_right ht
      exact hst.key?_eq_none
    refine ⟨iff_of_true hfailure hall, fun _ => ⟨?_, hnone⟩, fun e he => ?_, houtline a, hagain a⟩
    · rw [hvalue]
      exact hsettled
    · rw [hfailure] at he
      cases he
  · -- a slot fails, and those before it are settled
    rw [hm] at hfailure hvalue
    have hstuck : ¬ ∀ s ∈ slots a, ∃ t, s.SettlesTo ps t := by
      intro hall
      obtain ⟨t, ht⟩ := hall s (by simp [hs])
      exact ht.not_unsettled he
    have hsome : (resolve a).failure ≠ none := by
      rw [hfailure]
      exact nofun
    refine ⟨iff_of_false hsome hstuck, fun h => absurd h hsome, fun e' he' => ?_, houtline a,
      hagain a⟩
    cases hfailure.symm.trans he'
    exact ⟨before, s, after, before', hs, he, hvalue, hbefore⟩

/-- Predicates, templates and paths are resolved in order. -/
theorem Positions.resolve_inOrder (ps : Positions) (reader : String) :
    (∀ p : Predicate, InOrder ps reader Predicate.slots Predicate.keys Predicate.outline
      (Predicate.resolve ps reader) p) ∧
    (∀ t : Template, InOrder ps Content.reader Template.slots Template.keys Template.outline
      (Template.resolve ps) t) ∧
    ∀ path : List ColumnRef, InOrder ps reader (Slot.along 0) ColumnRef.keys List.length
      (ps.resolvePath reader) path := by
  refine ⟨?_, ?_, ?_⟩
  · apply InOrder.of_map_slots
    · exact Predicate.map_slots_resolve ps reader
    · exact fun p => congrArg ColumnRef.keys (Unary.select p).map_ref_slots.symm
    · exact Predicate.keeps_outline_resolve ps reader
    · exact Predicate.repeats_resolve ps reader
  · apply InOrder.of_map_slots
    · exact Template.map_slots_resolve ps
    · exact fun t => congrArg ColumnRef.keys (Unary.construct t).map_ref_slots.symm
    · exact Template.outline_resolve ps
    · exact Template.resolve_resolve ps
  · apply InOrder.of_map_slots
    · exact ps.map_along_resolveFrom reader 0
    · exact fun path => congrArg ColumnRef.keys (Slot.map_ref_along 0 path).symm
    · exact ps.keeps_length_resolveFrom reader 0
    · exact ps.repeats_resolveFrom reader 0

/-- The first path is settled, and the second one up to the level that the path of its key does not
reach. -/
example :
    let document : ColumnRef := .symbolic (.document ⟨0⟩)
    let title : ColumnRef := .symbolic (.var ⟨0⟩)
    let ps : Positions := ⟨[(.document ⟨0⟩, [0]), (.var ⟨0⟩, [2, 1])]⟩
    let t : Template := .node (.path [title, title]) [.node (.path [document, document, title]) []]
    (t.resolve ps).failure = some (.tooShallow (.document ⟨0⟩) Content.reader 1) ∧
      (t.resolve ps).value.paths
        = [[.resolved 2, .resolved 1], [.resolved 0, document, title]] := by
  decide

end TwigAlgebra
