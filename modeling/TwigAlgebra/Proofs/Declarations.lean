import TwigAlgebra.Proofs.Stops

/-!
# Declared schemas

Before resolution an operator may hold a schema that somebody has declared, and afterwards it holds
the computed one in the same place.  An operator reads the schemas of its inputs, but only after
these are resolved, so that it reads computed ones.  What is declared can therefore matter in one
way only: if it is checked, the width must be the computed one.

## Main definitions

* `Plan.undeclared`, `Query.undeclared` — the same without any schema.
* `Plan.SameEnd` — two plans are resolved to the same, or fail for the same reason.
* `Plan.Announces` — the schemas of one plan have the widths of those of another.

## Main results

* `Plan.sameEnd_undeclared` — without check, declarations do not matter.
* `Plan.resolve_true_eq_done_iff` — with it, they must have the computed widths.
* `Query.resolve_undeclared` — both, for a plan with its stage.
-/

namespace TwigAlgebra

namespace Plan

/-- The plan without any schema. -/
def undeclared : Plan → Plan
  | scan s _ => scan s none
  | unary op p _ => unary op p.undeclared none
  | binary op l r _ => binary op l.undeclared r.undeclared none

@[simp] theorem undeclared_scan (s : Scan) (d : Option Schema) :
    (scan s d).undeclared = scan s none := rfl

@[simp] theorem undeclared_unary (op : Unary) (p : Plan) (d : Option Schema) :
    (unary op p d).undeclared = unary op p.undeclared none := rfl

@[simp] theorem undeclared_binary (op : Binary) (l r : Plan) (d : Option Schema) :
    (binary op l r d).undeclared = binary op l.undeclared r.undeclared none := rfl

@[simp] theorem undeclared_undeclared (p : Plan) : p.undeclared.undeclared = p.undeclared := by
  induction p with
  | scan s d => rfl
  | unary op p d ih => simp [ih]
  | binary op l r d ihl ihr => simp [ihl, ihr]

@[simp] theorem isConstruct_undeclared (p : Plan) : p.undeclared.isConstruct = p.isConstruct := by
  cases p <;> rfl

/-! ### Resolution without check -/

/-- Resolution without check takes both plans to the same, or fails for the same reason and leaves
plans that differ in schemas only. -/
structure SameEnd (p q : Plan) : Prop where
  /-- The failure is the same. -/
  failure : (q.resolve false).failure = (p.resolve false).failure
  /-- If there is none, the result is the same. -/
  complete : ∀ n, p.resolve false = .done n → q.resolve false = .done n
  /-- In any case the parameters are the same. -/
  value : (q.resolve false).value.undeclared = (p.resolve false).value.undeclared

variable {p q m n : Plan} {e : PlanError}

namespace SameEnd

theorem done_iff (h : SameEnd p q) : q.resolve false = .done n ↔ p.resolve false = .done n := by
  refine ⟨fun hq => ?_, h.complete n⟩
  have hfailure : (p.resolve false).failure = none := by
    rw [← h.failure, hq]
    rfl
  have hp := Attempt.eq_done_of_complete hfailure
  have hvalue : (p.resolve false).value = n :=
    congrArg Attempt.value ((h.complete _ hp).symm.trans hq)
  rw [hp, hvalue]

theorem of_stopped (hp : p.resolve false = .stopped m e) (hq : q.resolve false = .stopped n e)
    (h : n.undeclared = m.undeclared) : SameEnd p q := by
  constructor
  · rw [hp, hq]
    rfl
  · intro r hr
    rw [hr] at hp
    cases hp
  · rw [hp, hq]
    exact h

/-- What is declared for the top operator is replaced, or the failure has another reason. -/
theorem of_record {name : String} {d d' : Option Schema} {x : Except PlanError Schema}
    {build : Option Schema → Plan} (hp : p.resolve false = record false name d build x)
    (hq : q.resolve false = record false name d' build x)
    (hbuild : (build d').undeclared = (build d).undeclared) : SameEnd p q := by
  cases x with
  | error e => exact of_stopped hp hq hbuild
  | ok out =>
    have hrecord : ∀ d, record false name d build (.ok out) = .done (build (some out)) :=
      fun d => record_ok_eq_done_iff.mpr ⟨nofun, rfl⟩
    rw [hrecord] at hp hq
    constructor
    · rw [hp, hq]
    · intro r hr
      rw [hq, ← hp, hr]
    · rw [hp, hq]

end SameEnd

/-- Without check a plan is resolved as if nothing were declared. -/
theorem sameEnd_undeclared (p : Plan) : SameEnd p p.undeclared := by
  induction p with
  | scan s d =>
    cases hs : s.schema with
    | none =>
      have hlost : ∀ d, (scan s d).resolve false = .stopped (scan s d) .lostHandle := by
        intro d
        rw [resolve, hs]
      exact .of_stopped (hlost d) (hlost none) rfl
    | some out =>
      have hrecord : ∀ d, (scan s d).resolve false = record false s.name d (scan s) (.ok out) := by
        intro d
        rw [resolve, hs]
      exact .of_record (hrecord d) (hrecord none) rfl
  | unary op p d ih =>
    have hsame := isConstruct_undeclared p
    rcases input_cases false p with hc | ⟨hc, e, hp⟩ | ⟨hc, p', hp⟩
    · -- a construction in the way
      apply SameEnd.of_stopped
      · exact resolve_unary_of_construct hc
      · exact resolve_unary_of_construct (hsame.trans hc)
      · exact undeclared_undeclared (unary op p d)
    · -- the input stops, in both plans alike
      apply SameEnd.of_stopped
      · exact resolve_unary_of_stopped hc hp
      · exact resolve_unary_of_stopped (hsame.trans hc) (ih.failure.trans hp)
      · rw [undeclared_unary, undeclared_unary, ih.value]
    · -- the inputs are the same after resolution, so nothing else can differ
      have hq := ih.complete p' hp
      cases hf : foldedWidth op p' with
      | none =>
        apply SameEnd.of_stopped
        · exact resolve_unary_of_unfolded hc hp hf
        · exact resolve_unary_of_unfolded (hsame.trans hc) hq hf
        · rfl
      | some folded =>
        apply SameEnd.of_record
        · exact resolve_unary_of_done hc hp hf
        · exact resolve_unary_of_done (hsame.trans hc) hq hf
        · rfl
  | binary op l r d ihl ihr =>
    have hsamel := isConstruct_undeclared l
    have hsamer := isConstruct_undeclared r
    rcases input_cases false l with hcl | ⟨hcl, e, hl⟩ | ⟨hcl, l', hl⟩
    · -- a construction on the left
      apply SameEnd.of_stopped
      · exact resolve_binary_of_left_construct hcl
      · exact resolve_binary_of_left_construct (hsamel.trans hcl)
      · exact undeclared_undeclared (binary op l r d)
    · -- the left input stops
      apply SameEnd.of_stopped
      · exact resolve_binary_of_left_stopped hcl hl
      · exact resolve_binary_of_left_stopped (hsamel.trans hcl) (ihl.failure.trans hl)
      · rw [undeclared_binary, undeclared_binary, ihl.value, undeclared_undeclared]
    · have hcl' := hsamel.trans hcl
      have hl' := ihl.complete l' hl
      rcases input_cases false r with hcr | ⟨hcr, e, hr⟩ | ⟨hcr, r', hr⟩
      · -- a construction on the right
        apply SameEnd.of_stopped
        · exact resolve_binary_of_right_construct hcl hl hcr
        · exact resolve_binary_of_right_construct hcl' hl' (hsamer.trans hcr)
        · rw [undeclared_binary, undeclared_binary, undeclared_undeclared]
      · -- the right input stops, after the left one is resolved
        apply SameEnd.of_stopped
        · exact resolve_binary_of_right_stopped hcl hl hcr hr
        · exact resolve_binary_of_right_stopped hcl' hl' (hsamer.trans hcr) (ihr.failure.trans hr)
        · rw [undeclared_binary, undeclared_binary, ihr.value]
      · apply SameEnd.of_record
        · exact resolve_binary_of_done hcl hl hcr hr
        · exact resolve_binary_of_done hcl' hl' (hsamer.trans hcr) (ihr.complete r' hr)
        · rfl

/-! ### Resolution with check -/

/-- Every schema that an operator of the one plan declares has as many columns as the schema of the
operator at the same place of the other. -/
def Announces (p r : Plan) : Prop :=
  List.Forall₂ (fun n m => ∀ d ∈ n.schema, d.width = m.output.width) p.postorder r.postorder

/-- With check a plan is resolved if it is resolved without, and all declared widths are right. -/
theorem resolve_true_eq_done_iff {p r : Plan} :
    p.resolve true = .done r ↔ p.resolve false = .done r ∧ p.Announces r := by
  induction p generalizing r with
  | scan s d =>
    constructor
    · intro h
      obtain ⟨out, hout, hagrees, rfl⟩ := resolve_scan_eq_done_iff.mp h
      exact ⟨resolve_scan_eq_done_iff.mpr ⟨out, hout, nofun, rfl⟩, .cons (hagrees rfl) .nil⟩
    · rintro ⟨h, hwidths⟩
      obtain ⟨out, hout, -, rfl⟩ := resolve_scan_eq_done_iff.mp h
      have htop := (List.forall₂_cons.mp hwidths).1
      exact resolve_scan_eq_done_iff.mpr ⟨out, hout, fun _ => htop, rfl⟩
  | unary op p d ih =>
    constructor
    · intro h
      obtain ⟨hc, p', folded, out, hp, hf, hsettle, hrule, hagrees, rfl⟩ :=
        resolve_unary_eq_done_iff.mp h
      obtain ⟨hp', hbelow⟩ := ih.mp hp
      refine ⟨?_, List.rel_append hbelow (.cons (hagrees rfl) .nil)⟩
      exact resolve_unary_eq_done_iff.mpr
        ⟨hc, p', folded, out, hp', hf, hsettle, hrule, nofun, rfl⟩
    · rintro ⟨h, hwidths⟩
      obtain ⟨hc, p', folded, out, hp, hf, hsettle, hrule, -, rfl⟩ :=
        resolve_unary_eq_done_iff.mp h
      -- the widths announced are those of the operators below, and then that of the top one
      have hlength := (forall₂_postorder_of_resolve hp).length_eq
      obtain ⟨hbelow, htop⟩ := (List.forall₂_append_iff hlength).mp hwidths
      have hagrees : Agrees true d out := fun _ => (List.forall₂_cons.mp htop).1
      exact resolve_unary_eq_done_iff.mpr
        ⟨hc, p', folded, out, ih.mpr ⟨hp, hbelow⟩, hf, hsettle, hrule, hagrees, rfl⟩
  | binary op left right d ihl ihr =>
    constructor
    · intro h
      obtain ⟨hcl, hcr, l', r', hl, hr, hsettle, hagrees, rfl⟩ := resolve_binary_eq_done_iff.mp h
      obtain ⟨hl', hleft⟩ := ihl.mp hl
      obtain ⟨hr', hright⟩ := ihr.mp hr
      refine ⟨?_, List.rel_append (List.rel_append hleft hright) (.cons (hagrees rfl) .nil)⟩
      exact resolve_binary_eq_done_iff.mpr ⟨hcl, hcr, l', r', hl', hr', hsettle, nofun, rfl⟩
    · rintro ⟨h, hwidths⟩
      obtain ⟨hcl, hcr, l', r', hl, hr, hsettle, -, rfl⟩ := resolve_binary_eq_done_iff.mp h
      have hlengthl := (forall₂_postorder_of_resolve hl).length_eq
      have hlengthr := (forall₂_postorder_of_resolve hr).length_eq
      have hlength : (left.postorder ++ right.postorder).length
          = (l'.postorder ++ r'.postorder).length := by
        rw [List.length_append, List.length_append, hlengthl, hlengthr]
      obtain ⟨hbelow, htop⟩ := (List.forall₂_append_iff hlength).mp hwidths
      obtain ⟨hleft, hright⟩ := (List.forall₂_append_iff hlengthl).mp hbelow
      have hagrees : Agrees true d
          ((op.settle l'.output r'.output).value.rule l'.output r'.output) :=
        fun _ => (List.forall₂_cons.mp htop).1
      exact resolve_binary_eq_done_iff.mpr ⟨hcl, hcr, l', r', ihl.mpr ⟨hl, hleft⟩,
        ihr.mpr ⟨hr, hright⟩, hsettle, hagrees, rfl⟩

end Plan

namespace Query

/-- The plan without any schema, at the same stage. -/
def undeclared (q : Query) : Query := { q with root := q.root.undeclared }

/-- Resolving a plan with its stage is resolving the plan; the stage tells whether it failed. -/
theorem resolve_eq (checked : Bool) (q : Query) :
    q.resolve checked = ⟨⟨(q.root.resolve checked).value,
      if (q.root.resolve checked).failure = none then .resolved else q.stage⟩,
      (q.root.resolve checked).failure⟩ := by
  cases h : (q.root.resolve checked).failure with
  | none =>
    rw [resolve, h]
    rfl
  | some e =>
    rw [resolve, h]
    rfl

/-- Resolution without check fails as if nothing were declared, with the same parameters replaced,
or has the same result.  Resolution with check has a result only if resolution without has this
result, and every operator that declares a schema declares as many columns as are computed for
it. -/
theorem resolve_undeclared (q : Query) :
    (q.undeclared.resolve false).failure = (q.resolve false).failure ∧
      (q.undeclared.resolve false).value.undeclared = (q.resolve false).value.undeclared ∧
      (∀ r, q.undeclared.resolve false = .done r ↔ q.resolve false = .done r) ∧
      ∀ r, q.resolve true = .done r ↔ q.resolve false = .done r ∧ q.root.Announces r.root := by
  have hsame := Plan.sameEnd_undeclared q.root
  have hfailure : (q.undeclared.root.resolve false).failure = (q.root.resolve false).failure :=
    hsame.failure
  refine ⟨?_, ?_, fun r => ?_, fun r => ?_⟩
  · rw [resolve_eq, resolve_eq]
    exact hfailure
  · rw [resolve_eq, resolve_eq, hfailure]
    exact congrArg (Query.mk · _) hsame.value
  · rw [resolve_eq_done_iff, resolve_eq_done_iff]
    exact and_congr_left fun _ => hsame.done_iff
  · rw [resolve_eq_done_iff, resolve_eq_done_iff, Plan.resolve_true_eq_done_iff]
    exact and_right_comm

/-- A scan that is declared to have no columns is refused if this is checked; otherwise the
declaration is replaced. -/
example :
    let books := Query.symbolic (.scan ⟨⟨0⟩, none, true, ⟨"books", []⟩⟩ (some .empty))
    (books.resolve true).failure = some (.widthMismatch "XMLCollectionParse" 0 2) ∧
      books.resolve false = books.undeclared.resolve false := by
  decide

end Query

end TwigAlgebra
