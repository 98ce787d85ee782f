import TwigAlgebra.Predicate
import TwigAlgebra.Proofs.Attempts
import TwigAlgebra.Proofs.Lists
import TwigAlgebra.Template

/-!
# The references of predicates, templates and paths

References stand in slots, listed in the order in which they are resolved.  A slot knows the level
of its reference: its index in its path, and zero for a reference outside of paths.  Resolving a
predicate, a template or a path stops at the first slot with a fault, and if there is none it
replaces every reference by its target and nothing else.

## Main definitions

* `Slot` — a reference with its level.
* `Positions.fault`, `Positions.target` — why a slot cannot be resolved, and what it is resolved to.
* `Predicate.slots`, `Template.slots` — the slots of a predicate and of a template.
* `Predicate.mapRefs`, `Template.mapRefs` — the same with other references in the slots.

## Main results

* `Positions.failure_resolveAll`, `Positions.failure_resolvePath`, `Predicate.failure_resolve`,
  `Template.failure_resolve` — the failure is the fault of the first slot that has one.
* `Positions.value_resolveAll`, `Positions.value_resolvePath`, `Predicate.value_resolve`,
  `Template.value_resolve` — without a failure every reference is replaced by its target.
-/

namespace TwigAlgebra

/-- A reference among the parameters of an operator. -/
structure Slot where
  /-- The index of the reference in its path, zero outside of paths. -/
  depth : Nat
  /-- The reference. -/
  ref : ColumnRef
  deriving DecidableEq, Repr

namespace Slot

/-- The slot of a reference outside of paths. -/
def single (c : ColumnRef) : Slot := ⟨0, c⟩

/-- The slots of a path from level `depth` on. -/
def along : (depth : Nat) → List ColumnRef → List Slot
  | _, [] => []
  | depth, c :: cs => ⟨depth, c⟩ :: along (depth + 1) cs

/-- The slot with the reference replaced. -/
def map (f : Nat → ColumnRef → ColumnRef) (s : Slot) : Slot := ⟨s.depth, f s.depth s.ref⟩

@[simp] theorem along_nil (depth : Nat) : along depth [] = [] := rfl

@[simp] theorem along_cons (depth : Nat) (c : ColumnRef) (cs : List ColumnRef) :
    along depth (c :: cs) = ⟨depth, c⟩ :: along (depth + 1) cs := rfl

@[simp] theorem map_single (f : Nat → ColumnRef → ColumnRef) (c : ColumnRef) :
    (single c).map f = single (f 0 c) := rfl

@[simp] theorem map_ref_along (depth : Nat) (cs : List ColumnRef) :
    (along depth cs).map ref = cs := by
  induction cs generalizing depth with
  | nil => rfl
  | cons c cs ih => rw [along_cons, List.map_cons, ih]

end Slot

/-- A list of references with each replaced according to its level, which starts at `depth`. -/
def ColumnRef.mapAlong (f : Nat → ColumnRef → ColumnRef) : (depth : Nat) → List ColumnRef →
    List ColumnRef
  | _, [] => []
  | depth, c :: cs => f depth c :: mapAlong f (depth + 1) cs

theorem ColumnRef.along_mapAlong (f : Nat → ColumnRef → ColumnRef) (depth : Nat)
    (cs : List ColumnRef) :
    Slot.along depth (mapAlong f depth cs) = (Slot.along depth cs).map (Slot.map f) := by
  induction cs generalizing depth with
  | nil => rfl
  | cons c cs ih =>
    rw [mapAlong, Slot.along_cons, ih]
    rfl

/-! ### Faults and targets -/

namespace Positions

/-- Why the reference in a slot cannot be resolved. -/
def fault (ps : Positions) (reader : String) (s : Slot) : Option PlanError :=
  match ps.resolveAt reader s.depth s.ref with
  | .ok _ => .none
  | .error e => some e

/-- What a reference at a level is resolved to; one that cannot be resolved stays as it is. -/
def target (ps : Positions) (depth : Nat) : ColumnRef → ColumnRef
  | .resolved i => .resolved i
  | .symbolic key =>
    match (ps.get? key).bind fun path => path[depth]? with
    | some i => .resolved i
    | .none => .symbolic key

theorem resolveAt_of_fault_eq_none {ps : Positions} {reader : String} {depth : Nat} {c : ColumnRef}
    (h : ps.fault reader ⟨depth, c⟩ = .none) :
    ps.resolveAt reader depth c = .ok (ps.target depth c) := by
  cases c with
  | resolved i => rfl
  | symbolic key =>
    cases hpath : ps.get? key with
    | none => simp [fault, resolveAt, hpath] at h
    | some path =>
      cases hi : path[depth]? with
      | none => simp [fault, resolveAt, hpath, hi] at h
      | some i => simp [resolveAt, target, hpath, hi]

theorem resolveAt_of_fault_eq_some {ps : Positions} {reader : String} {depth : Nat} {c : ColumnRef}
    {e : PlanError} (h : ps.fault reader ⟨depth, c⟩ = some e) :
    ps.resolveAt reader depth c = .error e := by
  rw [fault] at h
  cases hr : ps.resolveAt reader depth c with
  | ok c' => simp [hr] at h
  | error e' =>
    simp only [hr, Option.some.injEq] at h
    rw [h]

@[simp] theorem fault_resolved (ps : Positions) (reader : String) (depth i : Nat) :
    ps.fault reader ⟨depth, .resolved i⟩ = .none := rfl

/-- A slot without fault gets the index of its key's path at its level. -/
theorem target_symbolic_of_fault_eq_none {ps : Positions} {reader : String} {depth : Nat}
    {key : ColumnKey} (h : ps.fault reader ⟨depth, .symbolic key⟩ = .none) :
    ∃ path i, ps.get? key = some path ∧ path[depth]? = some i ∧
      ps.target depth (.symbolic key) = .resolved i := by
  cases hpath : ps.get? key with
  | none => simp [fault, resolveAt, hpath] at h
  | some path =>
    cases hi : path[depth]? with
    | none => simp [fault, resolveAt, hpath, hi] at h
    | some i => exact ⟨path, i, rfl, hi, by simp [target, hpath, hi]⟩

/-- A slot with a fault names a key that has no path, or none that reaches its level. -/
theorem fault_eq_some_iff {ps : Positions} {reader : String} {s : Slot} {e : PlanError} :
    ps.fault reader s = some e ↔ ∃ key, s.ref = .symbolic key ∧
      (ps.get? key = .none ∧ e = .unbound key reader ∨
        ∃ path, ps.get? key = some path ∧ path.length ≤ s.depth ∧
          e = .tooShallow key reader s.depth) := by
  obtain ⟨depth, c⟩ := s
  cases c with
  | resolved i => simp
  | symbolic key =>
    cases hpath : ps.get? key with
    | none => simp [fault, resolveAt, hpath, eq_comm]
    | some path =>
      -- the path ends above the level
      cases hi : path[depth]? with
      | none =>
        have hlen : path.length ≤ depth := List.getElem?_eq_none_iff.mp hi
        simp [fault, resolveAt, hpath, hlen, eq_comm]
      | some i =>
        have hlen : depth < path.length := (List.getElem?_eq_some_iff.mp hi).1
        simp [fault, resolveAt, hpath, hi, Nat.not_le.mpr hlen]

/-- Replacing a reference by its target leaves a position. -/
theorem exists_target_eq_resolved {ps : Positions} {reader : String} {s : Slot}
    (h : ps.fault reader s = .none) : ∃ i, ps.target s.depth s.ref = .resolved i := by
  obtain ⟨depth, c⟩ := s
  cases c with
  | resolved i => exact ⟨i, rfl⟩
  | symbolic key =>
    obtain ⟨-, i, -, -, hi⟩ := target_symbolic_of_fault_eq_none h
    exact ⟨i, hi⟩

/-! ### Lists and paths -/

theorem failure_resolveOne (ps : Positions) (reader : String) (c : ColumnRef) :
    (ps.resolveOne reader c).failure = ps.fault reader (Slot.single c) := by
  rw [resolveOne, resolve, fault, Slot.single]
  cases ps.resolveAt reader 0 c <;> rfl

theorem value_resolveOne {ps : Positions} {reader : String} {c : ColumnRef}
    (h : (ps.resolveOne reader c).failure = .none) :
    (ps.resolveOne reader c).value = ps.target 0 c := by
  rw [failure_resolveOne] at h
  rw [resolveOne, resolve, resolveAt_of_fault_eq_none h]
  rfl

theorem failure_resolveAll (ps : Positions) (reader : String) (cs : List ColumnRef) :
    (ps.resolveAll reader cs).failure = (cs.map Slot.single).findSome? (ps.fault reader) := by
  rw [resolveAll, Attempt.failure_each, List.findSome?_map]
  exact congrArg (fun f => cs.findSome? f) (funext (failure_resolveOne ps reader))

theorem value_resolveAll {ps : Positions} {reader : String} {cs : List ColumnRef}
    (h : (ps.resolveAll reader cs).failure = .none) :
    (ps.resolveAll reader cs).value = cs.map (ps.target 0) := by
  rw [resolveAll, Attempt.failure_each_eq_none_iff] at h
  rw [resolveAll, Attempt.value_each_of_complete h]
  exact List.map_congr_left fun c hc => value_resolveOne (h c hc)

theorem failure_resolveFrom (ps : Positions) (reader : String) (depth : Nat)
    (cs : List ColumnRef) :
    (ps.resolveFrom reader depth cs).failure
      = (Slot.along depth cs).findSome? (ps.fault reader) := by
  induction cs generalizing depth with
  | nil => rfl
  | cons c cs ih =>
    rw [resolveFrom, Slot.along_cons, List.findSome?_cons]
    cases h : ps.fault reader ⟨depth, c⟩ with
    | none => rw [resolveAt_of_fault_eq_none h, Attempt.failure_map, ih]
    | some e => rw [resolveAt_of_fault_eq_some h, Attempt.failure_stopped]

theorem value_resolveFrom {ps : Positions} {reader : String} {depth : Nat} {cs : List ColumnRef}
    (h : (ps.resolveFrom reader depth cs).failure = .none) :
    (ps.resolveFrom reader depth cs).value = ColumnRef.mapAlong ps.target depth cs := by
  induction cs generalizing depth with
  | nil => rfl
  | cons c cs ih =>
    rw [failure_resolveFrom, Slot.along_cons, List.findSome?_eq_none_iff] at h
    have hc : ps.fault reader ⟨depth, c⟩ = .none := h _ List.mem_cons_self
    have hcs : (ps.resolveFrom reader (depth + 1) cs).failure = .none := by
      rw [failure_resolveFrom, List.findSome?_eq_none_iff]
      exact fun s hs => h s (List.mem_cons_of_mem _ hs)
    rw [resolveFrom, resolveAt_of_fault_eq_none hc, Attempt.value_map, ih hcs]
    rfl

theorem failure_resolvePath (ps : Positions) (reader : String) (path : List ColumnRef) :
    (ps.resolvePath reader path).failure = (Slot.along 0 path).findSome? (ps.fault reader) :=
  failure_resolveFrom ps reader 0 path

theorem value_resolvePath {ps : Positions} {reader : String} {path : List ColumnRef}
    (h : (ps.resolvePath reader path).failure = .none) :
    (ps.resolvePath reader path).value = ColumnRef.mapAlong ps.target 0 path :=
  value_resolveFrom h

end Positions

/-! ### Predicates -/

/-- A right-hand side with another reference. -/
def Operand.mapRefs (f : Nat → ColumnRef → ColumnRef) : Operand → Operand
  | column c => column (f 0 c)
  | literal l => literal l

/-- A comparison with other references. -/
def Condition.mapRefs (f : Nat → ColumnRef → ColumnRef) (c : Condition) : Condition :=
  { c with left := f 0 c.left, right := c.right.mapRefs f }

/-- A predicate with other references. -/
def Predicate.mapRefs (f : Nat → ColumnRef → ColumnRef) (p : Predicate) : Predicate :=
  ⟨p.clauses.map fun cs => cs.map (Condition.mapRefs f)⟩

/-- The slots of a predicate, from left to right. -/
def Predicate.slots (p : Predicate) : List Slot := p.columns.map Slot.single

theorem Condition.columns_mapRefs (f : Nat → ColumnRef → ColumnRef) (c : Condition) :
    (c.mapRefs f).columns = c.columns.map (f 0) := by
  obtain ⟨left, right, comparison⟩ := c
  cases right <;> rfl

theorem Predicate.columns_mapRefs (f : Nat → ColumnRef → ColumnRef) (p : Predicate) :
    (p.mapRefs f).columns = p.columns.map (f 0) := by
  simp only [columns, mapRefs, List.flatMap_map, List.map_flatMap, Condition.columns_mapRefs]

theorem Condition.failure_resolve (ps : Positions) (reader : String) (c : Condition) :
    (c.resolve ps reader).failure
      = (c.columns.map Slot.single).findSome? (ps.fault reader) := by
  obtain ⟨left, right, comparison⟩ := c
  have hleft := Positions.failure_resolveOne ps reader left
  -- the operand on the right is not looked at after the one on the left has stopped
  cases h : ps.fault reader (Slot.single left) with
  | some e =>
    rw [h] at hleft
    rw [resolve, Attempt.andThen_of_stopped (by rw [Attempt.failure_map, hleft])]
    simp [columns, hleft, h]
  | none =>
    rw [h] at hleft
    rw [resolve, Attempt.andThen_of_complete (by rw [Attempt.failure_map, hleft])]
    cases right with
    | literal l => simp [columns, Operand.resolve, Operand.column?, h]
    | column c => simp [columns, Operand.resolve, Operand.column?, h, Positions.failure_resolveOne]

theorem Condition.value_resolve {ps : Positions} {reader : String} {c : Condition}
    (h : (c.resolve ps reader).failure = none) :
    (c.resolve ps reader).value = c.mapRefs ps.target := by
  obtain ⟨left, right, comparison⟩ := c
  rw [resolve, Attempt.failure_andThen_eq_none_iff] at h
  obtain ⟨hleft, hright⟩ := h
  rw [resolve, Attempt.andThen_of_complete hleft]
  have hl := Positions.value_resolveOne hleft
  cases right with
  | literal l => simp [mapRefs, Operand.mapRefs, Operand.resolve, hl]
  | column c =>
    have hr := Positions.value_resolveOne (c := c) hright
    simp [mapRefs, Operand.mapRefs, Operand.resolve, hl, hr]

theorem Predicate.failure_resolve (ps : Positions) (reader : String) (p : Predicate) :
    (p.resolve ps reader).failure = p.slots.findSome? (ps.fault reader) := by
  simp only [resolve, Attempt.failure_map, Attempt.failure_each, Condition.failure_resolve, slots,
    columns, List.map_flatMap, List.findSome?_flatMap]

theorem Predicate.value_resolve {ps : Positions} {reader : String} {p : Predicate}
    (h : (p.resolve ps reader).failure = none) :
    (p.resolve ps reader).value = p.mapRefs ps.target := by
  rw [resolve, Attempt.failure_map, Attempt.failure_each_eq_none_iff] at h
  rw [resolve, Attempt.value_map, Attempt.value_each_of_complete h, mapRefs]
  refine congrArg Predicate.mk (List.map_congr_left fun cs hcs => ?_)
  have hcs' := Attempt.failure_each_eq_none_iff.mp (h cs hcs)
  rw [Attempt.value_each_of_complete hcs']
  exact List.map_congr_left fun c hc => Condition.value_resolve (hcs' c hc)

/-! ### Templates -/

/-- What a template node emits, with other references. -/
def Content.mapRefs (f : Nat → ColumnRef → ColumnRef) : Content → Content
  | path slots => path (ColumnRef.mapAlong f 0 slots)
  | c => c

namespace Template

mutual

/-- A template with other references. -/
def mapRefs (f : Nat → ColumnRef → ColumnRef) : Template → Template
  | node c ts => node (c.mapRefs f) (mapRefsAll f ts)

/-- Templates with other references. -/
def mapRefsAll (f : Nat → ColumnRef → ColumnRef) : List Template → List Template
  | [] => []
  | t :: ts => t.mapRefs f :: mapRefsAll f ts

end

/-- The slots of a template, in document order. -/
def slots (t : Template) : List Slot := t.paths.flatMap (Slot.along 0)

theorem path?_mapRefs (f : Nat → ColumnRef → ColumnRef) (c : Content) :
    (c.mapRefs f).path? = c.path?.map (ColumnRef.mapAlong f 0) := by
  cases c <;> rfl

mutual

theorem paths_mapRefs (f : Nat → ColumnRef → ColumnRef) :
    ∀ t : Template, (t.mapRefs f).paths = t.paths.map (ColumnRef.mapAlong f 0)
  | node c ts => by
    rw [mapRefs, paths_node, paths_node, pathsAll_mapRefsAll f ts, path?_mapRefs, List.map_append]
    cases c.path? <;> rfl

theorem pathsAll_mapRefsAll (f : Nat → ColumnRef → ColumnRef) :
    ∀ ts : List Template,
      pathsAll (mapRefsAll f ts) = (pathsAll ts).map (ColumnRef.mapAlong f 0)
  | [] => rfl
  | t :: ts => by
    rw [mapRefsAll, pathsAll, pathsAll, paths_mapRefs f t, pathsAll_mapRefsAll f ts, List.map_append]

end

theorem failure_content_resolve (ps : Positions) (c : Content) :
    (c.resolve ps).failure
      = (c.path?.toList.flatMap (Slot.along 0)).findSome? (ps.fault Content.reader) := by
  cases c with
  | path slots => simp [Content.resolve, Content.path?, Positions.failure_resolvePath]
  | element tag => rfl
  | attr name => rfl
  | text s => rfl

theorem value_content_resolve {ps : Positions} {c : Content}
    (h : (c.resolve ps).failure = none) : (c.resolve ps).value = c.mapRefs ps.target := by
  cases c with
  | path slots => exact congrArg Content.path (Positions.value_resolvePath h)
  | element tag => rfl
  | attr name => rfl
  | text s => rfl

mutual

theorem failure_resolve (ps : Positions) :
    ∀ t : Template, (t.resolve ps).failure = t.slots.findSome? (ps.fault Content.reader)
  | node c ts => by
    have hc := failure_content_resolve ps c
    rw [resolve, slots, paths_node, List.flatMap_append, List.findSome?_append, ← hc]
    cases h : (c.resolve ps).failure with
    | some e => simp
    | none =>
      simp only [Attempt.failure_map, Option.none_or]
      exact failure_resolveEach ps ts

theorem failure_resolveEach (ps : Positions) :
    ∀ ts : List Template, (resolveEach ps ts).failure
      = ((pathsAll ts).flatMap (Slot.along 0)).findSome? (ps.fault Content.reader)
  | [] => rfl
  | t :: ts => by
    have ht := failure_resolve ps t
    rw [slots] at ht
    rw [resolveEach, pathsAll, List.flatMap_append, List.findSome?_append, ← ht]
    cases h : (t.resolve ps).failure with
    | some e => simp
    | none =>
      simp only [Attempt.failure_map, Option.none_or]
      exact failure_resolveEach ps ts

end

mutual

theorem value_resolve {ps : Positions} :
    ∀ {t : Template}, (t.resolve ps).failure = none → (t.resolve ps).value = t.mapRefs ps.target
  | node c ts, h => by
    rw [resolve] at h ⊢
    cases hc : (c.resolve ps).failure with
    | some e => simp [hc] at h
    | none =>
      simp only [hc, Attempt.failure_map] at h
      simp only [Attempt.value_map]
      rw [value_content_resolve hc, value_resolveEach h, mapRefs]

theorem value_resolveEach {ps : Positions} :
    ∀ {ts : List Template}, (resolveEach ps ts).failure = none →
      (resolveEach ps ts).value = mapRefsAll ps.target ts
  | [], _ => rfl
  | t :: ts, h => by
    rw [resolveEach] at h ⊢
    cases ht : (t.resolve ps).failure with
    | some e => simp [ht] at h
    | none =>
      simp only [ht, Attempt.failure_map] at h
      simp only [Attempt.value_map]
      rw [value_resolve ht, value_resolveEach h, mapRefsAll]

end

end Template

end TwigAlgebra
