import TwigAlgebra.Proofs.Operators

/-!
# Repeated attempts

Work that stopped has replaced what came before the failure and left the rest alone.  Repeating it
on what it left therefore passes over what is replaced already, fails where it failed before, and
changes nothing.  This holds of one reference, and it is passed on to lists, to the parts of a
whole and to steps that follow one another, as long as no step undoes what an earlier one has
finished.

## Main definitions

* `Attempt.Repeats` — repeating the work on what it left comes to the same end.
* `Attempt.Retains` — what one step has finished stays finished under another.
* `Attempt.Keeps` — the work does not change some quantity.
* `Part` — a part of a whole that can be replaced.

## Main results

* `Unary.settle_settle`, `Binary.settle_settle` — settling the parameters of an operator repeats.
* `Unary.resolve_resolve`, `Binary.resolve_resolve` — so does the resolution of an operator.
-/

namespace TwigAlgebra

/-! ### Laws of repetition -/

namespace Attempt

variable {α β : Type} {f g k : α → Attempt α} {m : α → β} {test : α → Except PlanError Unit}

/-- Repeating the work on what it left, complete or not, comes to the same end. -/
def Repeats (f : α → Attempt α) : Prop := ∀ a, f (f a).value = f a

/-- What `f` has finished stays finished under `g`. -/
def Retains (f g : α → Attempt α) : Prop := ∀ a, f a = done a → f (g a).value = done (g a).value

/-- The work does not change the quantity `m`. -/
def Keeps (m : α → β) (f : α → Attempt α) : Prop := ∀ a, m (f a).value = m a

theorem Repeats.check (hf : Repeats f) (test : α → Except PlanError Unit) :
    Repeats fun a => (f a).check test := by
  intro a
  show (f ((f a).check test).value).check test = (f a).check test
  rw [value_check, hf a]

theorem Repeats.andThen (hf : Repeats f) (hg : Repeats g) (hfg : Retains f g) :
    Repeats fun a => (f a).andThen g := by
  intro a
  show (f ((f a).andThen g).value).andThen g = (f a).andThen g
  cases h : (f a).failure with
  -- the first part stops again, with the same error
  | some e => rw [andThen_of_stopped h, hf a, andThen_of_stopped h]
  | none =>
    obtain ⟨b, hb⟩ : ∃ b, f a = done b := ⟨_, eq_done_of_complete h⟩
    -- the first step finds its work done, and does not spoil it for the second
    have hfinished : f b = done b := by
      have hrepeat := hf a
      rwa [hb, value_done] at hrepeat
    rw [hb, andThen_done, hfg b hfinished, andThen_done, hg b]

theorem Repeats.each (hf : Repeats f) : Repeats (each f) := by
  intro l
  induction l with
  | nil => rfl
  | cons a as ih =>
    cases h : (f a).failure with
    -- an element that is finished stays as it is, and one that stops ends the list as before
    | none =>
      have hvalue : (Attempt.each f (a :: as)).value
          = (f a).value :: (Attempt.each f as).value := by simp [Attempt.each, h]
      rw [hvalue]
      simp only [Attempt.each, hf a, h, ih]
    | some e =>
      have hvalue : (Attempt.each f (a :: as)).value = (f a).value :: as := by
        simp [Attempt.each, h]
      rw [hvalue]
      simp only [Attempt.each, hf a, h]

theorem Retains.andThen (hg : Retains f g) (hk : Retains f k) :
    Retains f fun a => (g a).andThen k := by
  intro a ha
  show f ((g a).andThen k).value = done ((g a).andThen k).value
  cases h : (g a).failure with
  | some e =>
    rw [andThen_of_stopped h]
    exact hg a ha
  | none =>
    rw [andThen_of_complete h]
    exact hk _ (hg a ha)

theorem Retains.check (hg : Retains f g) (test : α → Except PlanError Unit) :
    Retains f fun a => (g a).check test := by
  intro a ha
  show f ((g a).check test).value = done ((g a).check test).value
  rw [value_check]
  exact hg a ha

/-- A check that the other step cannot upset is as good as finished work. -/
theorem Retains.of_check (hg : Retains f g)
    (htest : ∀ a, test a = .ok () → test (g a).value = .ok ()) :
    Retains (fun a => (f a).check test) g := by
  intro a ha
  have hfailure : ((f a).check test).failure = none := by
    rw [show (f a).check test = done a from ha, failure_done]
  have hvalue : (f a).value = a := by
    rw [← value_check (f a) test, show (f a).check test = done a from ha, value_done]
  rw [failure_check_eq_none_iff, hvalue] at hfailure
  have hfinished := hg a (eq_done_iff.mpr ⟨hvalue, hfailure.1⟩)
  show (f (g a).value).check test = done (g a).value
  rw [hfinished, Attempt.check, andThen_done, htest a hfailure.2]

theorem Keeps.andThen (hf : Keeps m f) (hg : Keeps m g) : Keeps m fun a => (f a).andThen g := by
  intro a
  show m ((f a).andThen g).value = m a
  cases h : (f a).failure with
  | some e =>
    rw [andThen_of_stopped h]
    exact hf a
  | none =>
    rw [andThen_of_complete h, hg, hf]

theorem Keeps.check (hf : Keeps m f) (test : α → Except PlanError Unit) :
    Keeps m fun a => (f a).check test := by
  intro a
  show m ((f a).check test).value = m a
  rw [value_check, hf]

end Attempt

open Attempt

/-! ### Parts of a whole -/

/-- A part of a whole that can be replaced. -/
structure Part (σ α : Type) where
  /-- The part. -/
  get : σ → α
  /-- The whole with another part in its place. -/
  set : σ → α → σ
  /-- The new part is in its place. -/
  get_set : ∀ s a, get (set s a) = a
  /-- Of two replacements the second counts. -/
  set_set : ∀ s a b, set (set s a) b = set s b
  /-- Replacing the part by itself changes nothing. -/
  set_get : ∀ s, set s (get s) = s

namespace Part

variable {σ α β : Type} {P : Part σ α} {Q : Part σ β} {f : α → Attempt α} {g : β → Attempt β}

/-- Work on a part. -/
def on (P : Part σ α) (f : α → Attempt α) (s : σ) : Attempt σ := (f (P.get s)).map (P.set s)

theorem repeats_on (P : Part σ α) (hf : Repeats f) : Repeats (P.on f) := by
  intro s
  have hpart : P.get (P.on f s).value = (f (P.get s)).value := P.get_set _ _
  have hset : P.set (P.on f s).value = P.set s := funext fun b => P.set_set _ _ b
  rw [on, hpart, hf, hset, on]

/-- Finished work on a part is not affected by work on another. -/
theorem retains_on (h : ∀ s b, P.get (Q.set s b) = P.get s) : Retains (P.on f) (Q.on g) := by
  intro s hs
  obtain ⟨hvalue, hfailure⟩ := eq_done_iff.mp hs
  -- the part itself is finished
  have hpart : f (P.get s) = done (P.get s) := by
    refine eq_done_iff.mpr ⟨?_, hfailure⟩
    calc (f (P.get s)).value = P.get (P.on f s).value := (P.get_set _ _).symm
      _ = P.get s := by rw [hvalue]
  have hget : P.get (Q.on g s).value = P.get s := h s _
  rw [on, hget, hpart]
  refine eq_done_iff.mpr ⟨?_, rfl⟩
  rw [value_map, value_done, ← hget, P.set_get]

end Part

/-! ### References, predicates and templates -/

namespace Positions

variable (ps : Positions) (reader : String) (width : Nat)

/-- Only positions are results. -/
theorem exists_resolved_of_resolveAt {ps : Positions} {reader : String} {depth : Nat}
    {c c' : ColumnRef} (h : ps.resolveAt reader depth c = .ok c') : ∃ i, c' = .resolved i := by
  cases c with
  | resolved i =>
    cases h
    exact ⟨i, rfl⟩
  | symbolic key =>
    rw [resolveAt] at h
    split at h
    · cases h
    · split at h
      · cases h
      · cases h
        exact ⟨_, rfl⟩

theorem repeats_resolveOne : Repeats (ps.resolveOne reader) := by
  intro c
  cases h : ps.resolveAt reader 0 c with
  | error e =>
    have hstopped : ps.resolveOne reader c = stopped c e := by rw [resolveOne, resolve, h, replacing]
    rw [hstopped, value_stopped, hstopped]
  | ok c' =>
    obtain ⟨i, rfl⟩ := exists_resolved_of_resolveAt h
    have hdone : ps.resolveOne reader c = done (.resolved i) := by
      rw [resolveOne, resolve, h, replacing]
    rw [hdone]
    rfl

theorem repeats_resolveFrom (depth : Nat) : Repeats (ps.resolveFrom reader depth) := by
  intro cs
  induction cs generalizing depth with
  | nil => rfl
  | cons c cs ih =>
    cases h : ps.resolveAt reader depth c with
    | error e => simp only [resolveFrom, h, value_stopped]
    | ok c' =>
      obtain ⟨i, rfl⟩ := exists_resolved_of_resolveAt h
      simp only [resolveFrom, h, value_map, resolveAt_resolved, ih]

theorem repeats_resolveInRange : Repeats (ps.resolveInRange reader width) :=
  (ps.repeats_resolveOne reader).each.check _

theorem repeats_resolveOneInRange : Repeats (ps.resolveOneInRange reader width) :=
  (ps.repeats_resolveOne reader).check _

end Positions

theorem Operand.repeats_resolve (ps : Positions) (reader : String) :
    Repeats (Operand.resolve ps reader) := by
  intro o
  cases o with
  | literal l => rfl
  | column c =>
    show (ps.resolveOne reader (ps.resolveOne reader c).value).map column = _
    rw [ps.repeats_resolveOne reader c]
    rfl

namespace Condition

/-- The left side of a comparison. -/
def leftPart : Part Condition ColumnRef :=
  ⟨left, fun c left => { c with left }, fun _ _ => rfl, fun _ _ _ => rfl, fun _ => rfl⟩

/-- The right side of a comparison. -/
def rightPart : Part Condition Operand :=
  ⟨right, fun c right => { c with right }, fun _ _ => rfl, fun _ _ _ => rfl, fun _ => rfl⟩

theorem resolve_eq_andThen (ps : Positions) (reader : String) : resolve ps reader
    = fun c => (leftPart.on (ps.resolveOne reader) c).andThen
        (rightPart.on (Operand.resolve ps reader)) :=
  rfl

theorem repeats_resolve (ps : Positions) (reader : String) : Repeats (resolve ps reader) := by
  have hleft := leftPart.repeats_on (ps.repeats_resolveOne reader)
  have hright := rightPart.repeats_on (Operand.repeats_resolve ps reader)
  rw [resolve_eq_andThen]
  exact hleft.andThen hright (Part.retains_on fun _ _ => rfl)

end Condition

namespace Predicate

/-- The conjunctions of a predicate. -/
def clausesPart : Part Predicate (List (List Condition)) :=
  ⟨clauses, fun _ clauses => ⟨clauses⟩, fun _ _ => rfl, fun _ _ _ => rfl, fun _ => rfl⟩

theorem repeats_resolve (ps : Positions) (reader : String) : Repeats (resolve ps reader) :=
  clausesPart.repeats_on (Condition.repeats_resolve ps reader).each.each

theorem repeats_resolveInRange (ps : Positions) (reader : String) (width : Nat) :
    Repeats (resolveInRange ps reader width) :=
  (repeats_resolve ps reader).check _

end Predicate

theorem Content.repeats_resolve (ps : Positions) : Repeats (Content.resolve ps) := by
  intro c
  cases c with
  | path slots =>
    show (ps.resolveFrom reader 0 (ps.resolveFrom reader 0 slots).value).map path = _
    rw [ps.repeats_resolveFrom reader 0 slots]
    rfl
  | _ => rfl

namespace Template

variable (ps : Positions)

mutual

theorem resolve_resolve : ∀ t : Template, (t.resolve ps).value.resolve ps = t.resolve ps
  | node c ts => by
    cases h : (c.resolve ps).failure with
    | some e =>
      have hvalue : ((node c ts).resolve ps).value = node (c.resolve ps).value ts := by
        simp [resolve, h]
      rw [hvalue]
      simp only [resolve, Content.repeats_resolve ps c, h]
    | none =>
      have hvalue : ((node c ts).resolve ps).value
          = node (c.resolve ps).value (resolveEach ps ts).value := by simp [resolve, h]
      rw [hvalue]
      simp only [resolve, Content.repeats_resolve ps c, h, resolveEach_resolveEach ts]

theorem resolveEach_resolveEach : ∀ ts : List Template,
    resolveEach ps (resolveEach ps ts).value = resolveEach ps ts
  | [] => rfl
  | t :: ts => by
    cases h : (t.resolve ps).failure with
    | some e =>
      have hvalue : (resolveEach ps (t :: ts)).value = (t.resolve ps).value :: ts := by
        simp [resolveEach, h]
      rw [hvalue]
      simp only [resolveEach, resolve_resolve t, h]
    | none =>
      have hvalue : (resolveEach ps (t :: ts)).value
          = (t.resolve ps).value :: (resolveEach ps ts).value := by simp [resolveEach, h]
      rw [hvalue]
      simp only [resolveEach, resolve_resolve t, h, resolveEach_resolveEach ts]

end

end Template

/-! ### Operators -/

section Operators

variable (ps : Positions) (reader : String) (width : Nat)

theorem NestedAggregation.repeats_resolve : Repeats (NestedAggregation.resolve ps reader width) := by
  intro a
  cases a with
  | none => rfl
  | some a =>
    show (ps.resolveOneInRange reader width (ps.resolveOneInRange reader width a.column).value).map
      (fun c => some { a with column := c }) = _
    rw [ps.repeats_resolveOneInRange reader width a.column]
    rfl

theorem NestedAggregation.isSome_resolve (a : Option NestedAggregation) :
    (NestedAggregation.resolve ps reader width a).value.isSome = a.isSome := by
  cases a <;> rfl

namespace Grouping

/-- The columns that tell groups apart. -/
def groupByPart : Part Grouping (List ColumnRef) :=
  ⟨groupBy, fun g cs => { g with groupBy := cs }, fun _ _ => rfl, fun _ _ _ => rfl, fun _ => rfl⟩

/-- The columns kept once per group. -/
def reduceByPart : Part Grouping (List ColumnRef) :=
  ⟨reduceBy, fun g cs => { g with reduceBy := cs }, fun _ _ => rfl, fun _ _ _ => rfl, fun _ => rfl⟩

/-- The columns nested in each group. -/
def nestPart : Part Grouping (List ColumnRef) :=
  ⟨nest, fun g cs => { g with nest := cs }, fun _ _ => rfl, fun _ _ _ => rfl, fun _ => rfl⟩

/-- The function over each group. -/
def aggregationPart : Part Grouping (Option NestedAggregation) :=
  ⟨aggregation, fun g a => { g with aggregation := a }, fun _ _ => rfl, fun _ _ _ => rfl,
    fun _ => rfl⟩

theorem resolve_eq_andThen : resolve ps reader width
    = fun g => (groupByPart.on (ps.resolveInRange reader width) g).andThen
        fun g => (reduceByPart.on (ps.resolveInRange reader width) g).andThen
        fun g => (nestPart.on (ps.resolveInRange reader width) g).andThen
        (aggregationPart.on (NestedAggregation.resolve ps reader width)) :=
  rfl

theorem repeats_resolve : Repeats (resolve ps reader width) := by
  have hlist := ps.repeats_resolveInRange reader width
  rw [resolve_eq_andThen]
  have haggr := aggregationPart.repeats_on (NestedAggregation.repeats_resolve ps reader width)
  have hnest := (nestPart.repeats_on hlist).andThen haggr (Part.retains_on fun _ _ => rfl)
  have hreduce := (reduceByPart.repeats_on hlist).andThen hnest
    ((Part.retains_on fun _ _ => rfl).andThen (Part.retains_on fun _ _ => rfl))
  exact (groupByPart.repeats_on hlist).andThen hreduce ((Part.retains_on fun _ _ => rfl).andThen
    ((Part.retains_on fun _ _ => rfl).andThen (Part.retains_on fun _ _ => rfl)))

/-- Whether a grouping aggregates does not change. -/
theorem keeps_isSome_aggregation : Keeps (fun g => g.aggregation.isSome) (resolve ps reader width) := by
  have hlist (P : Part Grouping (List ColumnRef))
      (h : ∀ g cs, (P.set g cs).aggregation = g.aggregation) :
      Keeps (fun g => g.aggregation.isSome) (P.on (ps.resolveInRange reader width)) := by
    intro g
    exact congrArg Option.isSome (h g _)
  have haggr : Keeps (fun g => g.aggregation.isSome)
      (aggregationPart.on (NestedAggregation.resolve ps reader width)) :=
    fun g => NestedAggregation.isSome_resolve ps reader width g.aggregation
  rw [resolve_eq_andThen]
  exact (hlist groupByPart fun _ _ => rfl).andThen ((hlist reduceByPart fun _ _ => rfl).andThen
    ((hlist nestPart fun _ _ => rfl).andThen haggr))

end Grouping

namespace NestedJoin

/-- What pairs of tuples fulfil. -/
def conditionPart : Part NestedJoin Predicate :=
  ⟨condition, fun j p => { j with condition := p }, fun _ _ => rfl, fun _ _ _ => rfl, fun _ => rfl⟩

/-- The left column with the document identifier. -/
def docIdPart : Part NestedJoin ColumnRef :=
  ⟨docIdColumn, fun j c => { j with docIdColumn := c }, fun _ _ => rfl, fun _ _ _ => rfl,
    fun _ => rfl⟩

/-- The left columns with the node identifiers. -/
def nodeIdsPart : Part NestedJoin (List ColumnRef) :=
  ⟨nodeIdColumns, fun j cs => { j with nodeIdColumns := cs }, fun _ _ => rfl, fun _ _ _ => rfl,
    fun _ => rfl⟩

/-- The function over the matches. -/
def aggregationPart : Part NestedJoin (Option NestedAggregation) :=
  ⟨aggregation, fun j a => { j with aggregation := a }, fun _ _ => rfl, fun _ _ _ => rfl,
    fun _ => rfl⟩

theorem resolve_eq_andThen (leftWidth : Nat) : resolve ps reader leftWidth width
    = fun j => (conditionPart.on (Predicate.resolveInRange ps reader width) j).andThen
        fun j => (docIdPart.on (ps.resolveOne reader) j).andThen
        fun j => ((nodeIdsPart.on (ps.resolveAll reader) j).check
          fun j => ColumnRef.allInRange reader leftWidth (j.docIdColumn :: j.nodeIdColumns)).andThen
        (aggregationPart.on (NestedAggregation.resolve ps reader width)) :=
  rfl

theorem repeats_resolve (leftWidth : Nat) : Repeats (resolve ps reader leftWidth width) := by
  rw [resolve_eq_andThen]
  have hone := ps.repeats_resolveOne reader
  have hpredicate := Predicate.repeats_resolveInRange ps reader width
  have haggr := aggregationPart.repeats_on (NestedAggregation.repeats_resolve ps reader width)
  -- the check of the shared identifiers reads two parts, neither of which is replaced afterwards
  have hnodes := ((nodeIdsPart.repeats_on hone.each).check
    fun j => ColumnRef.allInRange reader leftWidth (j.docIdColumn :: j.nodeIdColumns)).andThen haggr
    ((Part.retains_on fun _ _ => rfl).of_check fun _ h => h)
  have hdoc := (docIdPart.repeats_on hone).andThen hnodes
    (((Part.retains_on fun _ _ => rfl).check _).andThen (Part.retains_on fun _ _ => rfl))
  exact (conditionPart.repeats_on hpredicate).andThen hdoc ((Part.retains_on fun _ _ => rfl).andThen
    (((Part.retains_on fun _ _ => rfl).check _).andThen (Part.retains_on fun _ _ => rfl)))

/-- Whether a nested join aggregates does not change. -/
theorem keeps_isSome_aggregation (leftWidth : Nat) :
    Keeps (fun j => j.aggregation.isSome) (resolve ps reader leftWidth width) := by
  have hcondition : Keeps (fun j => j.aggregation.isSome)
      (conditionPart.on (Predicate.resolveInRange ps reader width)) := fun _ => rfl
  have hdoc : Keeps (fun j => j.aggregation.isSome) (docIdPart.on (ps.resolveOne reader)) :=
    fun _ => rfl
  have hnodes : Keeps (fun j => j.aggregation.isSome) (nodeIdsPart.on (ps.resolveAll reader)) :=
    fun _ => rfl
  have haggr : Keeps (fun j => j.aggregation.isSome)
      (aggregationPart.on (NestedAggregation.resolve ps reader width)) :=
    fun j => NestedAggregation.isSome_resolve ps reader width j.aggregation
  rw [resolve_eq_andThen]
  exact hcondition.andThen (hdoc.andThen ((hnodes.check _).andThen haggr))

end NestedJoin

end Operators

theorem aggregationMark_congr {a b : Option NestedAggregation} (h : a.isSome = b.isSome) :
    aggregationMark a = aggregationMark b := by
  rw [aggregationMark, aggregationMark, h]

namespace Unary

/-- Settling an operator does not change its name. -/
theorem name_settle (op : Unary) (input : Schema) : (op.settle input).value.name = op.name := by
  cases op with
  | group g =>
    exact congrArg ("GroupBy" ++ ·)
      (aggregationMark_congr (Grouping.keeps_isSome_aggregation input.positions _ _ g))
  | _ => rfl

/-- Settling an operator again comes to the same end. -/
theorem settle_settle (op : Unary) (input : Schema) :
    (op.settle input).value.settle input = op.settle input := by
  cases op with
  | select p =>
    exact congrArg (Attempt.map select) (Predicate.repeats_resolveInRange input.positions _ _ p)
  | project cs =>
    exact congrArg (Attempt.map project) (input.positions.repeats_resolveInRange _ _ cs)
  | distinct cs =>
    exact congrArg (Attempt.map distinct) (input.positions.repeats_resolveInRange _ _ cs)
  | group g =>
    have hrepeat := Grouping.repeats_resolve input.positions (group g).name input.width g
    have hname := name_settle (group g) input
    show (Grouping.resolve _ ((group g).settle input).value.name _ _).map group = _
    rw [hname]
    exact congrArg (Attempt.map group) hrepeat
  | aggregate a =>
    have hpath := ((input.positions.repeats_resolveFrom (aggregate a).name 0).check
      fun path => input.checkPath (aggregate a).name 0 path) a.path
    exact congrArg (Attempt.map fun path => aggregate { a with path }) hpath
  | flatten c =>
    exact congrArg (Attempt.map flatten) (input.positions.repeats_resolveOneInRange _ _ c)
  | construct t =>
    have htemplate := Repeats.check (Template.resolve_resolve input.positions) (fun t =>
      ColumnRef.allInRange (construct t).name input.width (t.paths.filterMap List.head?)) t
    exact congrArg (Attempt.map construct) htemplate

theorem foldedWidth_settle (op : Unary) (input : Schema) (p : Plan) :
    Plan.foldedWidth (op.settle input).value p = Plan.foldedWidth op p := by
  cases op <;> rfl

theorem isConstruct_settle (op : Unary) (input : Schema) :
    (op.settle input).value.isConstruct = op.isConstruct := by
  cases op <;> rfl

/-- Resolving an operator again comes to the same end. -/
theorem resolve_resolve (op : Unary) (folded : Nat) (input : Schema) :
    (op.resolve folded input).1.resolve folded input = op.resolve folded input := by
  rw [resolve_eq, resolve_eq, settle_settle, name_settle]

end Unary

namespace Binary

/-- Settling an operator does not change its name. -/
theorem name_settle (op : Binary) (left right : Schema) :
    (op.settle left right).value.name = op.name := by
  cases op with
  | nestedJoin j =>
    exact congrArg ("LeftOuterNestedJoin" ++ ·)
      (aggregationMark_congr (NestedJoin.keeps_isSome_aggregation _ _ _ _ j))
  | _ => rfl

/-- Settling an operator again comes to the same end. -/
theorem settle_settle (op : Binary) (left right : Schema) :
    (op.settle left right).value.settle left right = op.settle left right := by
  cases op with
  | product => rfl
  | join p =>
    exact congrArg (Attempt.map join) (Predicate.repeats_resolveInRange _ _ _ p)
  | outerJoin p =>
    exact congrArg (Attempt.map outerJoin) (Predicate.repeats_resolveInRange _ _ _ p)
  | nestedJoin j =>
    have hrepeat := NestedJoin.repeats_resolve (Schema.concat [left, right]).positions
      (nestedJoin j).name (Schema.concat [left, right]).width left.width j
    have hname := name_settle (nestedJoin j) left right
    show (NestedJoin.resolve _ ((nestedJoin j).settle left right).value.name _ _ _).map nestedJoin = _
    rw [hname]
    exact congrArg (Attempt.map nestedJoin) hrepeat

/-- Resolving an operator again comes to the same end. -/
theorem resolve_resolve (op : Binary) (left right : Schema) :
    (op.resolve left right).1.resolve left right = op.resolve left right := by
  rw [resolve_eq, resolve_eq, settle_settle]

end Binary

end TwigAlgebra
