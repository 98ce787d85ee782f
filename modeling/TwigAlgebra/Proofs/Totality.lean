import TwigAlgebra.Compile
import TwigAlgebra.Proofs.Minimisation
import TwigAlgebra.Proofs.Settling
import TwigAlgebra.Proofs.Shedding
import TwigAlgebra.Proofs.Stability

/-!
# Plans over finite trees

Walks over a pattern get lost when a handle leads to a missing slot or the edges run in a cycle.
Neither happens in a finite tree, whatever its codes, parent links and variables are.  So a plan
whose patterns are finite trees is checked, minimised, resolved and compiled without getting lost,
and it stays a plan over finite trees, also when one of these stops early.

## Main definitions

* `Plan.IsFinite` — the patterns of a plan are finite trees.
* `Attempt.NotLost` — an attempt that no lost walk stopped.

## Main results

* `Query.check_ne_lost` — checking a plan does not get lost.
* `Query.minimise_cases` — minimising keeps the variables or reports that some are gone.
* `Query.notLost_resolve`, `Query.notLost_compile` — resolution and compilation do not get lost.
* `Query.isFinite_minimise`, `Query.isFinite_resolve`, `Query.isFinite_compile` — the patterns stay
  finite trees.
-/

namespace TwigAlgebra

/-! ### Attempts that do not get lost -/

namespace Attempt

variable {α : Type}

/-- No lost walk stopped the attempt. -/
def NotLost (r : Attempt α) : Prop := r.failure ≠ some .lostHandle

theorem notLost_done (a : α) : (done a).NotLost := nofun

theorem notLost_stopped {a : α} {e : PlanError} (he : e ≠ .lostHandle) : (stopped a e).NotLost :=
  fun h => he (Option.some.inj h)

end Attempt

/-! ### Operators -/

/-- References do not get lost. -/
theorem PlanError.OfReference.ne_lost {e : PlanError} (h : e.OfReference) : e ≠ .lostHandle := by
  rintro rfl
  cases h

theorem Unary.rule_ne_lost (name : String) (folded : Nat) (input : Schema) (op : Unary) :
    op.rule name folded input ≠ .error .lostHandle := by
  cases op with
  | group g =>
    show input.fold name folded ≠ _
    rw [Schema.fold]
    split <;> rintro ⟨⟩
  | flatten c =>
    cases c with
    | symbolic key => rintro ⟨⟩
    | resolved i =>
      show input.unnest name (.resolved i) ≠ _
      rw [Schema.unnest]
      split <;> rintro ⟨⟩
  | _ => rintro ⟨⟩

/-! ### Plans over finite trees -/

/-- The pattern, if there is one, is a finite tree. -/
def Scan.IsFinite (s : Scan) : Prop := ∀ q ∈ s.pattern, q.IsFinite

namespace Scan.IsFinite

variable {s : Scan}

theorem exists_schema (h : s.IsFinite) : ∃ out, s.schema = some out := by
  have hbody : ∃ cs, s.bodyColumns = some cs := by
    cases hp : s.pattern with
    | none => exact ⟨[.carrying (.document s.id) .xml], by rw [bodyColumns, hp]⟩
    | some q =>
      obtain ⟨f, hf⟩ := h q hp
      refine ⟨((q.nodesOn f).flatMap (·.vars)).map variableColumn, ?_⟩
      simp only [bodyColumns, hp, hf.boundVars_eq, Option.map_some]
  obtain ⟨cs, hcs⟩ := hbody
  exact ⟨⟨s.docIdColumns ++ cs⟩, by rw [schema, hcs, Option.map_some]⟩

theorem exists_width (h : s.IsFinite) : ∃ w, s.width = some w := by
  cases hp : s.pattern with
  | none => exact ⟨1 + s.attachDocId.toNat, by simp only [width, hp]; rfl⟩
  | some q =>
    obtain ⟨f, hf⟩ := h q hp
    refine ⟨((q.nodesOn f).flatMap (·.vars)).length + s.attachDocId.toNat, ?_⟩
    simp only [width, hp, hf.boundVars_eq]
    rfl

end Scan.IsFinite

namespace Plan

variable {checked : Bool} {p p' : Plan}

/-- The patterns of the scans are finite trees. -/
def IsFinite (p : Plan) : Prop := ∀ s ∈ p.scans, s.IsFinite

theorem isFinite_scan_iff {s : Scan} {d : Option Schema} : (scan s d).IsFinite ↔ s.IsFinite := by
  simp [IsFinite, scans, scan?]

theorem isFinite_unary_iff {op : Unary} {d : Option Schema} :
    (unary op p d).IsFinite ↔ p.IsFinite := by
  simp [IsFinite, scans, scan?]

theorem isFinite_binary_iff {op : Binary} {l r : Plan} {d : Option Schema} :
    (binary op l r d).IsFinite ↔ l.IsFinite ∧ r.IsFinite := by
  simp [IsFinite, scans, scan?, or_imp, forall_and]

/-- The subplans of a plan over finite trees are plans over finite trees. -/
theorem IsFinite.of_mem (hp : p.IsFinite) {n : Plan} (hn : n ∈ p.postorder) : n.IsFinite := by
  intro s hs
  exact hp s (((postorder_sublist hn).filterMap scan?).subset hs)

theorem Reworks.isFinite_iff (h : p.Reworks p') : p'.IsFinite ↔ p.IsFinite := by
  rw [IsFinite, IsFinite, h.scans_eq]

/-- What the check accepts is a plan over finite trees. -/
theorem isFinite_of_validate (h : p.validate = .ok ()) : p.IsFinite := by
  intro s hs q hq
  obtain ⟨n, hn, hscan⟩ := List.mem_filterMap.mp hs
  obtain ⟨f, hf⟩ := (validate_eq_ok_iff.mp h).patterns n hn s hscan q hq
  exact ⟨f, hf.unfolds⟩

/-- Resolution, complete or not, leaves the patterns alone. -/
theorem isFinite_resolve (hp : p.IsFinite) (checked : Bool) : (p.resolve checked).value.IsFinite :=
  (reworks_resolve checked p).isFinite_iff.mpr hp

theorem exists_scanRunWidth {l : List Plan} (hl : ∀ n ∈ l, ∀ s ∈ n.scan?, s.IsFinite) :
    ∃ w, scanRunWidth l = some w := by
  induction l with
  | nil => exact ⟨0, rfl⟩
  | cons n l ih =>
    obtain ⟨rest, hrest⟩ := ih fun n hn => hl n (List.mem_cons_of_mem _ hn)
    cases n with
    | scan s d =>
      obtain ⟨w, hw⟩ := (hl _ List.mem_cons_self s rfl).exists_width
      rw [scanRunWidth]
      split
      · exact ⟨0, rfl⟩
      · exact ⟨w + rest, by rw [hw, hrest]; rfl⟩
    | unary op p d => exact ⟨0, rfl⟩
    | binary op l r d => exact ⟨0, rfl⟩

theorem exists_foldedWidth (hp : p.IsFinite) (op : Unary) : ∃ w, foldedWidth op p = some w := by
  have hscans : ∀ n ∈ ((p.postorder.filter isHolder).drop 1).reverse, ∀ s ∈ n.scan?,
      s.IsFinite := by
    intro n hn s hs
    have hmem : n ∈ p.postorder :=
      List.mem_of_mem_filter (List.mem_of_mem_drop (List.mem_reverse.mp hn))
    exact hp s (List.mem_filterMap.mpr ⟨n, hmem, hs⟩)
  cases op with
  | group g => exact exists_scanRunWidth hscans
  | _ => exact ⟨0, rfl⟩

/-- Resolving a plan over finite trees does not get lost. -/
theorem notLost_resolve (hp : p.IsFinite) (checked : Bool) : (p.resolve checked).NotLost := by
  intro hlost
  have hconstruct : PlanError.lostHandle ≠ constructionBelow := nofun
  obtain ⟨n, hn⟩ := exists_firstStop hlost hconstruct
  obtain ⟨before, after, hsplit, -⟩ := hn.first
  have hfinite : n.IsFinite := hp.of_mem (hsplit ▸ List.mem_append_right _ List.mem_cons_self)
  -- over finite trees every schema and every width is there, and nothing else loses a handle
  cases hn.refused with
  | lost hs =>
    obtain ⟨out, hout⟩ := (isFinite_scan_iff.mp hfinite).exists_schema
    rw [hs] at hout
    cases hout
  | @unfolded op q q' d hq hf =>
    have hfinite' := isFinite_resolve (isFinite_unary_iff.mp hfinite) checked
    rw [hq, Attempt.value_done] at hfinite'
    obtain ⟨folded, hfolded⟩ := exists_foldedWidth hfinite' op
    rw [hf] at hfolded
    cases hfolded
  | unarySettle hq hsettle => exact (Unary.stopsByReference_settle _ _ _ hsettle).ne_lost rfl
  | binarySettle hl hr hsettle => exact (Binary.stopsByReference_settle _ _ _ _ hsettle).ne_lost rfl
  | rule hq hf hsettle hrule => exact Unary.rule_ne_lost _ _ _ _ hrule

end Plan

/-! ### Minimising plans over finite trees -/

/-- Minimising a scan over a finite tree leaves one, and keeps the variables or reports that some
are gone. -/
theorem Scan.IsFinite.minimise_cases {s : Scan} (hs : s.IsFinite) (m : Minimisation)
    (unread : Bool) :
    (s.minimise m unread).value.1.IsFinite ∧
      ((s.minimise m unread).failure = none ∧ s.Alike (s.minimise m unread).value.1 ∨
        ∃ e, (s.minimise m unread).failure = some e ∧ e.ReportsDrop) := by
  cases hp : s.pattern with
  | none =>
    have hdone : s.minimise m unread = .done (s, ⟨1, 0, 0⟩) := by rw [Scan.minimise, hp]
    rw [hdone]
    exact ⟨hs, Or.inl ⟨rfl, .refl s⟩⟩
  | some p =>
    obtain ⟨f, hf⟩ := hs p hp
    obtain ⟨q, saved, kept, g, hq, htrims, hcases⟩ := hf.exists_minimise m unread
    have hrun : s.minimise m unread = .replacing ({ s with pattern := some q }, saved)
        (kept.map fun _ => ({ s with pattern := some q }, saved)) := by
      simp only [Scan.minimise, hp, hq]
    have hfinite : Scan.IsFinite { s with pattern := some q } := by
      rintro q' ⟨⟩
      exact ⟨g, htrims.unfolds⟩
    rw [hrun]
    rcases hcases with ⟨rfl, hvars⟩ | ⟨e, rfl, he⟩
    · refine ⟨hfinite, Or.inl ⟨rfl, rfl, rfl, rfl, ?_⟩⟩
      show some (q.name, q.boundVars) = _
      rw [hp, Option.map_some, htrims.name, hvars]
    · exact ⟨hfinite, Or.inr ⟨e, rfl, he⟩⟩

namespace Plan

/-- Minimising a plan over finite trees leaves one, and keeps the variables or reports that some are
gone. -/
theorem minimise_cases {p : Plan} (hp : p.IsFinite) (m : Minimisation) (unread : Bool) :
    (p.minimise m unread).value.1.IsFinite ∧
      ((p.minimise m unread).failure = none ∧ p.Alike (p.minimise m unread).value.1 ∨
        ∃ e, (p.minimise m unread).failure = some e ∧ e.ReportsDrop) := by
  induction p with
  | scan s d =>
    obtain ⟨hfinite, hcases⟩ := (isFinite_scan_iff.mp hp).minimise_cases m unread
    exact ⟨isFinite_scan_iff.mpr hfinite, hcases.imp_left fun h => ⟨h.1, .scan h.2 d⟩⟩
  | unary op p d ih =>
    obtain ⟨hfinite, hcases⟩ := ih (isFinite_unary_iff.mp hp)
    exact ⟨isFinite_unary_iff.mpr hfinite, hcases.imp_left fun h => ⟨h.1, .unary op h.2 d⟩⟩
  | binary op l r d ihl ihr =>
    obtain ⟨hl, hr⟩ := isFinite_binary_iff.mp hp
    obtain ⟨hfinitel, hcasesl⟩ := ihl hl
    obtain ⟨hfiniter, hcasesr⟩ := ihr hr
    rw [minimise]
    -- the input on the right is minimised only if the one on the left keeps its variables
    rcases hcasesl with ⟨hleft, halikel⟩ | ⟨e, hleft, he⟩
    · simp only [hleft]
      exact ⟨isFinite_binary_iff.mpr ⟨hfinitel, hfiniter⟩,
        hcasesr.imp_left fun h => ⟨h.1, .binary op halikel h.2 d⟩⟩
    · simp only [hleft]
      exact ⟨isFinite_binary_iff.mpr ⟨hfinitel, hr⟩, Or.inr ⟨e, rfl, he⟩⟩

end Plan

/-! ### Checking plans over finite trees -/

theorem Pattern.checkAll_ne_lost (p : Pattern) (steps : Nat)
    (stack : List (Handle × Option Handle)) (seen : Seen) :
    p.checkAll steps stack seen ≠ .error .lostHandle := by
  have hslot : ∀ h parent seen, p.checkSlot h parent seen ≠ .error .lostHandle := by
    intro h parent seen
    rw [checkSlot]
    repeat' split
    all_goals rintro ⟨⟩
  induction steps generalizing stack seen with
  | zero => cases stack <;> rintro ⟨⟩
  | succ steps ih =>
    cases stack with
    | nil => rintro ⟨⟩
    | cons link stack => exact Except.bind_ne_error (hslot _ _ _) fun _ _ => ih _ _

namespace Bound

theorem addVars_ne_lost (code : Code) (vs : List Variable) (b : Bound) :
    addVars code vs b ≠ .error .lostHandle := by
  induction vs generalizing b with
  | nil => rintro ⟨⟩
  | cons v vs ih =>
    rw [addVars]
    split
    · rintro ⟨⟩
    · exact ih _

theorem addNodes_ne_lost (name : String) (ns : List Node) (b : Bound) :
    addNodes name ns b ≠ .error .lostHandle := by
  induction ns generalizing b with
  | nil => rintro ⟨⟩
  | cons n ns ih =>
    rw [addNodes]
    split
    · rintro ⟨⟩
    · exact Except.bind_ne_error (addVars_ne_lost _ _ _) fun b _ => ih b

/-- The nodes of a pattern are listed only if it is sound, and then the listing succeeds. -/
theorem addScan_ne_lost (s : Scan) (b : Bound) : addScan s b ≠ .error .lostHandle := by
  rw [addScan]
  split
  · rintro ⟨⟩
  · cases s.pattern with
    | none => rintro ⟨⟩
    | some p =>
      refine Except.bind_ne_error (p.checkAll_ne_lost _ _ _) fun _ hvalid => ?_
      obtain ⟨f, hf⟩ := Pattern.validate_eq_ok_iff.mp hvalid
      rw [hf.nodesInOrder_eq]
      exact addNodes_ne_lost _ _ _

theorem addOperator_ne_lost (b : Bound) (n : Plan) : addOperator b n ≠ .error .lostHandle := by
  cases n with
  | scan s d => exact addScan_ne_lost s b
  | binary op l r d => rintro ⟨⟩
  | unary op p d =>
    cases op with
    | aggregate a =>
      rw [addOperator]
      split <;> rintro ⟨⟩
    | _ => rintro ⟨⟩

theorem foldlM_ne_lost (ns : List Plan) (b : Bound) :
    ns.foldlM addOperator b ≠ .error .lostHandle := by
  induction ns generalizing b with
  | nil => rintro ⟨⟩
  | cons n ns ih => exact Except.bind_ne_error (addOperator_ne_lost b n) fun b _ => ih b

end Bound

namespace Plan

theorem validate_ne_lost (p : Plan) : p.validate ≠ .error .lostHandle :=
  Except.bind_ne_error (Bound.foldlM_ne_lost p.postorder .nothing) fun _ _ => nofun

theorem codesBelow_ne_lost {p : Plan} (hp : p.IsFinite) (next : Code) :
    p.codesBelow next ≠ .error .lostHandle := by
  have hscan : ∀ s ∈ p.scans, scanBelow next s ≠ .error .lostHandle := by
    intro s hs
    rw [scanBelow]
    cases hq : s.pattern with
    | none => nofun
    | some q =>
      obtain ⟨f, hf⟩ := hp s hs q hq
      have hcodes : q.codes = some ((q.nodesOn f).map (·.code)) := by
        rw [Pattern.codes, hf.nodesInOrder_eq, Option.map_some]
      simp only [hcodes]
      split <;> nofun
  intro hlost
  obtain ⟨s, hs, hbad⟩ := List.exists_of_forM_eq_error hlost
  exact hscan s hs hbad

end Plan

/-! ### Queries over finite trees -/

namespace Query

variable {q : Query} {o : Options} {c : Counters}

/-- Checking a plan over finite trees does not get lost. -/
theorem check_ne_lost (hq : q.root.IsFinite) (c : Counters) : q.check c ≠ .error .lostHandle :=
  Except.bind_ne_error q.root.validate_ne_lost fun _ _ => Plan.codesBelow_ne_lost hq c.code

/-- A resolved plan is not minimised. -/
theorem minimise_of_resolved (hstage : q.stage = .resolved) (m : Minimisation) :
    q.minimise m = .stopped (q, .zero) .alreadyResolved := by
  rw [Query.minimise, hstage]

/-- Minimising a symbolic plan over finite trees keeps the variables or reports that some are
gone. -/
theorem minimise_cases (hq : q.root.IsFinite) (hstage : q.stage = .symbolic) (m : Minimisation) :
    (q.minimise m).value.1.root.IsFinite ∧ (q.minimise m).value.1.stage = .symbolic ∧
      ((q.minimise m).failure = none ∧ q.Alike (q.minimise m).value.1 ∨
        ∃ e, (q.minimise m).failure = some e ∧ e.ReportsDrop) := by
  obtain ⟨root, stage⟩ := q
  cases hstage
  rw [Query.minimise]
  cases m.enabled with
  | false => exact ⟨hq, rfl, Or.inl ⟨rfl, .refl root, rfl⟩⟩
  | true =>
    obtain ⟨hfinite, hcases⟩ := Plan.minimise_cases hq m root.namesOutput
    exact ⟨hfinite, rfl, hcases.imp_left fun h => ⟨h.1, h.2, rfl⟩⟩

theorem isFinite_minimise (hq : q.root.IsFinite) (m : Minimisation) :
    (q.minimise m).value.1.root.IsFinite := by
  cases hstage : q.stage with
  | symbolic => exact (minimise_cases hq hstage m).1
  | resolved =>
    rw [minimise_of_resolved hstage]
    exact hq

theorem notLost_minimise (hq : q.root.IsFinite) (m : Minimisation) : (q.minimise m).NotLost := by
  cases hstage : q.stage with
  | symbolic =>
    intro hlost
    rcases (minimise_cases hq hstage m).2.2 with ⟨hnone, -⟩ | ⟨e, he, code, count, rfl⟩
    · rw [hnone] at hlost
      cases hlost
    · rw [he] at hlost
      cases hlost
  | resolved =>
    rw [minimise_of_resolved hstage]
    exact Attempt.notLost_stopped nofun

theorem isFinite_resolve (hq : q.root.IsFinite) (checked : Bool) :
    (q.resolve checked).value.root.IsFinite := by
  have hvalue : (q.resolve checked).value.root = (q.root.resolve checked).value := by
    rw [Query.resolve]
    cases (q.root.resolve checked).failure <;> rfl
  rw [hvalue]
  exact Plan.isFinite_resolve hq checked

/-- Resolving a plan over finite trees does not get lost. -/
theorem notLost_resolve (hq : q.root.IsFinite) (checked : Bool) : (q.resolve checked).NotLost := by
  have hroot := Plan.notLost_resolve hq checked
  rw [Query.resolve]
  cases hr : (q.root.resolve checked).failure with
  | none => exact Attempt.notLost_done _
  | some e => exact Attempt.notLost_stopped fun he => hroot (he ▸ hr)

/-! ### Compilation, step by step -/

theorem compile_of_refused {e : PlanError} (ho : o.checks.plan = true)
    (hcheck : q.check c = .error e) : q.compile o c = .stopped (q, .zero) e := by
  simp only [compile, ho, hcheck, if_true]

/-- Past the check, a plan is minimised and what is left is resolved. -/
theorem compile_of_accepted (hcheck : o.checks.plan = true → q.check c = .ok ()) :
    q.compile o c = (q.minimise o.rules).andThen fun r =>
      (r.1.resolve o.checks.declaredSchemas).map fun s => (s, r.2) := by
  rw [compile]
  by_cases ho : o.checks.plan = true
  · simp only [ho, hcheck ho, if_true]
  · simp only [if_neg ho]

/-- A plan is refused by the check, or it is minimised and resolved. -/
theorem check_cases (o : Options) (c : Counters) (q : Query) :
    (o.checks.plan = true ∧ ∃ e, q.check c = .error e) ∨
      (o.checks.plan = true → q.check c = .ok ()) := by
  cases h : q.check c with
  | error e =>
    by_cases ho : o.checks.plan = true
    · exact Or.inl ⟨ho, e, rfl⟩
    · exact Or.inr fun ho' => absurd ho' ho
  | ok _ => exact Or.inr fun _ => rfl

theorem isFinite_compile (hq : q.root.IsFinite) (o : Options) (c : Counters) :
    (q.compile o c).value.1.root.IsFinite := by
  rcases check_cases o c q with ⟨ho, e, he⟩ | hcheck
  · rw [compile_of_refused ho he]
    exact hq
  · have hfinite := isFinite_minimise hq o.rules
    rw [compile_of_accepted hcheck]
    cases hm : (q.minimise o.rules).failure with
    | some e => rwa [Attempt.andThen_of_stopped hm]
    | none =>
      rw [Attempt.andThen_of_complete hm]
      exact isFinite_resolve hfinite _

/-- Compiling a plan over finite trees does not get lost. -/
theorem notLost_compile (hq : q.root.IsFinite) (o : Options) (c : Counters) :
    (q.compile o c).NotLost := by
  rcases check_cases o c q with ⟨ho, e, he⟩ | hcheck
  · rw [compile_of_refused ho he]
    exact Attempt.notLost_stopped fun heq => check_ne_lost hq c (heq ▸ he)
  · rw [compile_of_accepted hcheck]
    intro hlost
    rcases Attempt.failure_andThen_eq_some_iff.mp hlost with hm | ⟨-, hr⟩
    · exact notLost_minimise hq o.rules hm
    · exact notLost_resolve (isFinite_minimise hq o.rules) _ hr

end Query

end TwigAlgebra
