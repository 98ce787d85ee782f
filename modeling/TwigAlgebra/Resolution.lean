import TwigAlgebra.Plan.Basic

/-!
# Column resolution

Resolution goes through a plan from the scans upwards.  The columns of an operator's inputs are
known by then; their concatenation says where each key is, the operator's parameters are replaced
by positions, and its own columns are computed and recorded.  What was resolved before a failure
stays resolved.

A declared schema has no part in this, except that a check may ask that its width is the computed
one.

## Main definitions

* `Unary.resolve`, `Binary.resolve` — the rule of each operator.
* `Plan.trailingWidth` — the number of columns that a grouping folds.
* `Plan.resolve` — the resolution of a plan.
* `Query.resolve` — the same, moving the plan to its last stage.
-/

namespace TwigAlgebra

/-! ### Range checks -/

/-- Accepts a position below `width`. -/
def ColumnRef.inRange (operator : String) (width : Nat) : ColumnRef → Except PlanError Unit
  | .symbolic key => .error (.unbound key operator)
  | .resolved i => if i < width then .ok () else .error (.outOfRange operator i width)

/-- Accepts positions below `width`. -/
def ColumnRef.allInRange (operator : String) (width : Nat) (cs : List ColumnRef) :
    Except PlanError Unit :=
  cs.forM (inRange operator width)

/-- Accepts a path that descends through nested columns; `depth` counts the steps taken. -/
def Schema.checkPath (operator : String) :
    (depth : Nat) → List ColumnRef → Schema → Except PlanError Unit
  | _, [], _ => .ok ()
  | depth, c :: cs, level => do
    c.inRange operator level.width
    match cs, c with
    | [], _ => .ok ()
    -- not reached, as no key is in range
    | _ :: _, .symbolic _ => checkPath operator (depth + 1) cs level
    | _ :: _, .resolved i =>
      match level.nested? i with
      | some inner => checkPath operator (depth + 1) cs inner
      | none => .error (.unsupported operator (.scalarStep depth i))

/-! ### Operators with one input -/

/-- Resolves a list of columns and accepts those that are in range. -/
def Positions.resolveInRange (ps : Positions) (operator : String) (width : Nat)
    (cs : List ColumnRef) : Attempt (List ColumnRef) :=
  (ps.resolveAll operator cs).check (ColumnRef.allInRange operator width)

/-- Resolves a column and accepts it if it is in range. -/
def Positions.resolveOneInRange (ps : Positions) (operator : String) (width : Nat)
    (c : ColumnRef) : Attempt ColumnRef :=
  (ps.resolveOne operator c).check (·.inRange operator width)

/-- Resolves a predicate and accepts columns that are in range. -/
def Predicate.resolveInRange (ps : Positions) (operator : String) (width : Nat) (p : Predicate) :
    Attempt Predicate :=
  (p.resolve ps operator).check fun p => ColumnRef.allInRange operator width p.columns

/-- Resolves the column of a nested aggregation, if there is one. -/
def NestedAggregation.resolve (ps : Positions) (operator : String) (width : Nat) :
    Option NestedAggregation → Attempt (Option NestedAggregation)
  | none => .done none
  | some a =>
    (ps.resolveOneInRange operator width a.column).map fun c => some { a with column := c }

/-- Resolves the columns of a grouping, list by list. -/
def Grouping.resolve (ps : Positions) (operator : String) (width : Nat) (g : Grouping) :
    Attempt Grouping :=
  let list (cs : List ColumnRef) := ps.resolveInRange operator width cs
  ((list g.groupBy).map fun cs => { g with groupBy := cs }).andThen fun g =>
  ((list g.reduceBy).map fun cs => { g with reduceBy := cs }).andThen fun g =>
  ((list g.nest).map fun cs => { g with nest := cs }).andThen fun g =>
  (NestedAggregation.resolve ps operator width g.aggregation).map fun a =>
    { g with aggregation := a }

namespace Schema

/-- The columns at the listed positions, in the order of the list. -/
def select (s : Schema) (cs : List ColumnRef) : Schema :=
  ⟨cs.filterMap fun c => c.position?.bind s.column?⟩

/-- The first columns, and one column that nests the last `folded`. -/
def fold (operator : String) (folded : Nat) (s : Schema) : Except PlanError Schema :=
  if folded ≤ s.width then
    let kept := s.width - folded
    .ok ⟨s.columns.take kept ++ [.nesting (s.columns.drop kept)]⟩
  else .error (.widthMismatch operator folded s.width)

/-- The columns, the nested one at `c` being replaced by the columns inside it. -/
def unnest (operator : String) (c : ColumnRef) (s : Schema) : Except PlanError Schema :=
  match c with
  | .symbolic key => .error (.unbound key operator)
  | .resolved i =>
    match s.nested? i with
    | none => .error (.unsupported operator (.scalarColumn i))
    | some inner => .ok ⟨s.columns.take i ++ inner.columns ++ s.columns.drop (i + 1)⟩

end Schema

/-- The operator with its parameters resolved as far as they can be, and its schema over an input
with the given columns, of which a grouping folds the last `folded`. -/
def Unary.resolve (op : Unary) (folded : Nat) (input : Schema) :
    Unary × Except PlanError Schema :=
  let ps := input.positions
  let name := op.name
  match op with
  | select p =>
    let r := p.resolveInRange ps name input.width
    (select r.value, r.outcome fun _ => .ok input)
  | project cs =>
    let r := ps.resolveInRange name input.width cs
    (project r.value, r.outcome fun cs => .ok (input.select cs))
  | distinct cs =>
    let r := ps.resolveInRange name input.width cs
    (distinct r.value, r.outcome fun _ => .ok input)
  | group g =>
    let r := g.resolve ps name input.width
    (group r.value, r.outcome fun _ => input.fold name folded)
  | aggregate a =>
    let r := (ps.resolvePath name a.path).check fun path => input.checkPath name 0 path
    (aggregate { a with path := r.value },
      r.outcome fun _ => .ok (input.push (.carrying (.var a.result) a.function.resultType)))
  | flatten c =>
    let r := ps.resolveOneInRange name input.width c
    (flatten r.value, r.outcome fun c => input.unnest name c)
  | construct t =>
    let r := (t.resolve ps).check fun t =>
      -- of a path, only the first reference is compared with the width
      ColumnRef.allInRange name input.width (t.paths.filterMap List.head?)
    (construct r.value, r.outcome fun _ => .ok input)

/-! ### Operators with two inputs -/

/-- Resolves the parameters of a nested join: the shared identifiers are columns of the left
input. -/
def NestedJoin.resolve (ps : Positions) (operator : String) (leftWidth width : Nat)
    (j : NestedJoin) : Attempt NestedJoin :=
  ((j.condition.resolveInRange ps operator width).map fun p => { j with condition := p }).andThen
    fun j =>
  ((ps.resolveOne operator j.docIdColumn).map fun c => { j with docIdColumn := c }).andThen fun j =>
  (((ps.resolveAll operator j.nodeIdColumns).map fun cs => { j with nodeIdColumns := cs }).check
    fun j => ColumnRef.allInRange operator leftWidth (j.docIdColumn :: j.nodeIdColumns)).andThen
    fun j =>
  (NestedAggregation.resolve ps operator width j.aggregation).map fun a =>
    { j with aggregation := a }

/-- The operator with its parameters resolved as far as they can be, and its schema over inputs with
the given columns. -/
def Binary.resolve (op : Binary) (left right : Schema) : Binary × Except PlanError Schema :=
  let input := Schema.concat [left, right]
  let ps := input.positions
  let name := op.name
  match op with
  | product => (product, .ok input)
  | join p =>
    let r := p.resolveInRange ps name input.width
    (join r.value, r.outcome fun _ => .ok input)
  | outerJoin p =>
    let r := p.resolveInRange ps name input.width
    (outerJoin r.value, r.outcome fun _ => .ok input)
  | nestedJoin j =>
    let r := j.resolve ps name left.width input.width
    (nestedJoin r.value, r.outcome fun _ => .ok (left.push (.nesting right.columns)))

/-! ### Plans -/

namespace Plan

/-- The columns of the scans at the front of a list, up to the first operator that is no scan or
attaches a document identifier. -/
def scanRunWidth : List Plan → Option Nat
  | scan s _ :: rest => do
    -- a scan with its document identifier ends the run, and nothing of it is folded
    if s.attachDocId then return 0
    return (← s.width) + (← scanRunWidth rest)
  | _ => some 0

/-- The number of columns that a grouping over the plan folds: those of the scans without document
identifier at the end of the operators that introduce variables, the first of which is never
folded. -/
def trailingWidth (input : Plan) : Option Nat :=
  scanRunWidth ((input.postorder.filter isHolder).drop 1).reverse

/-- The number of columns that an operator folds; none but a grouping folds any. -/
def foldedWidth (op : Unary) (input : Plan) : Option Nat :=
  match op with
  | .group _ => trailingWidth input
  | _ => some 0

/-- Records the computed schema in the place of the declared one.  If `checked`, the two must have
the same width. -/
def record (checked : Bool) (name : String) (declared : Option Schema)
    (build : Option Schema → Plan) : Except PlanError Schema → Attempt Plan
  | .error e => .stopped (build declared) e
  | .ok computed =>
    match declared with
    | some d =>
      if checked ∧ d.width ≠ computed.width then
        .stopped (build declared) (.widthMismatch name d.width computed.width)
      else .done (build (some computed))
    | none => .done (build (some computed))

/-- The schema of a resolved plan. -/
def output (p : Plan) : Schema := p.schema.getD .empty

/-- A construction can be no input. -/
def constructionBelow : PlanError := .unsupported Content.reader .constructionBelow

/-- Resolves a plan from the scans upwards. -/
def resolve (checked : Bool) : Plan → Attempt Plan
  | scan s declared =>
    match s.schema with
    | none => .stopped (scan s declared) .lostHandle
    | some computed => record checked s.name declared (scan s) (.ok computed)
  | unary op input declared =>
    -- refused before the input is resolved, so that nothing changes
    if input.isConstruct then .stopped (unary op input declared) constructionBelow
    else
      let r := input.resolve checked
      match r.failure with
      | some e => .stopped (unary op r.value declared) e
      | none =>
        match foldedWidth op r.value with
        | none => .stopped (unary op r.value declared) .lostHandle
        | some folded =>
          let (op', computed) := op.resolve folded r.value.output
          -- the parameters stay as far as they are resolved, also if there is no schema
          record checked op.name declared (unary op' r.value) computed
  | binary op left right declared =>
    if left.isConstruct then .stopped (binary op left right declared) constructionBelow
    else
      let l := left.resolve checked
      match l.failure with
      | some e => .stopped (binary op l.value right declared) e
      | none =>
        -- by now the left input is resolved, and stays so
        if right.isConstruct then .stopped (binary op l.value right declared) constructionBelow
        else
          let r := right.resolve checked
          match r.failure with
          | some e => .stopped (binary op l.value r.value declared) e
          | none =>
            let (op', computed) := op.resolve l.value.output r.value.output
            record checked op.name declared (binary op' l.value r.value) computed

end Plan

/-- Resolves the plan; a success moves it to its last stage. -/
def Query.resolve (checked : Bool) (q : Query) : Attempt Query :=
  let r := q.root.resolve checked
  match r.failure with
  | none => .done ⟨r.value, .resolved⟩
  | some e => .stopped { q with root := r.value } e

end TwigAlgebra
