import TwigAlgebra.Plan.Validate
import TwigAlgebra.Proofs.Lists
import TwigAlgebra.Proofs.PatternSoundness

/-!
# What the check of a plan accepts

The check meets the operators of a plan one after the other and keeps the scans, node codes and
variables that it has met.  It accepts if and only if the patterns are sound and nothing that the
operators bring along occurs twice.

## Main definitions

* `Plan.ownScans`, `Plan.ownCodes`, `Plan.ownVars` — what one operator brings along.
* `Plan.Sound` — a plan in which each of these is used once.

## Main results

* `Bound.foldlM_eq_ok_iff` — the check of a list of operators.
* `Plan.validate_eq_ok_iff` — the check accepts exactly the sound plans.
-/

namespace TwigAlgebra

/-! ### What an operator brings along -/

/-- The nodes of the pattern of a scan. -/
def Scan.nodes (s : Scan) : List Node := (s.pattern.bind Pattern.nodesInOrder).getD []

namespace Plan

/-- The number of a scan. -/
def ownScans : Plan → List ScanId
  | scan s _ => [s.id]
  | _ => []

/-- The node codes of a scan. -/
def ownCodes : Plan → List Code
  | scan s _ => s.nodes.map (·.code)
  | _ => []

/-- The variables that a scan or an aggregation binds. -/
def ownVars : Plan → List Var
  | scan s _ => s.nodes.flatMap fun n => n.vars.map (·.id)
  | unary (.aggregate a) _ _ => [a.result]
  | _ => []

/-- The pattern of a scan is sound. -/
def PatternSound (n : Plan) : Prop :=
  ∀ s ∈ n.scan?, ∀ q ∈ s.pattern, ∃ f, q.Sound f

/-- The patterns of a plan are sound, and its scans, node codes and variables occur once. -/
structure Sound (p : Plan) : Prop where
  /-- Every pattern is sound. -/
  patterns : ∀ n ∈ p.postorder, n.PatternSound
  /-- No scan repeats. -/
  scans : (p.postorder.flatMap ownScans).Nodup
  /-- No code repeats. -/
  codes : (p.postorder.flatMap ownCodes).Nodup
  /-- No variable repeats. -/
  vars : (p.postorder.flatMap ownVars).Nodup

end Plan

/-! ### What is met -/

namespace Bound

/-- Nothing met repeats. -/
structure Distinct (b : Bound) : Prop where
  /-- No scan repeats. -/
  scans : b.scans.Nodup
  /-- No code repeats. -/
  codes : b.codes.Nodup
  /-- No variable repeats. -/
  vars : b.vars.Nodup

/-- What is met after some scans, codes and variables. -/
def meet (scans : List ScanId) (codes : List Code) (vars : List Var) (b : Bound) : Bound :=
  ⟨codes.reverse ++ b.codes, vars.reverse ++ b.vars, scans.reverse ++ b.scans⟩

theorem meet_meet (scans scans' : List ScanId) (codes codes' : List Code) (vars vars' : List Var)
    (b : Bound) : (b.meet scans codes vars).meet scans' codes' vars'
      = b.meet (scans ++ scans') (codes ++ codes') (vars ++ vars') := by
  simp [meet]

theorem Distinct.of_meet {scans : List ScanId} {codes : List Code} {vars : List Var} {b : Bound}
    (h : (b.meet scans codes vars).Distinct) : b.Distinct :=
  ⟨(List.nodup_append.mp h.scans).2.1, (List.nodup_append.mp h.codes).2.1,
    (List.nodup_append.mp h.vars).2.1⟩

theorem addVars_eq_ok_iff {code : Code} {vs : List Variable} {b b' : Bound} (hb : b.Distinct) :
    addVars code vs b = .ok b' ↔ b' = b.meet [] [] (vs.map (·.id)) ∧ b'.Distinct := by
  induction vs generalizing b with
  | nil =>
    rw [addVars, Except.ok.injEq]
    exact ⟨fun h => h ▸ ⟨rfl, hb⟩, fun h => h.1.symm⟩
  | cons v vs ih =>
    have hmeet : b.meet [] [] ((v :: vs).map (·.id))
        = (b.meet [] [] [v.id]).meet [] [] (vs.map (·.id)) := by rw [meet_meet]; rfl
    rw [addVars, hmeet]
    by_cases hv : v.id ∈ b.vars
    · -- the variable is met a second time
      rw [if_pos hv]
      refine iff_of_false nofun ?_
      rintro ⟨rfl, hdistinct⟩
      exact (List.nodup_cons.mp hdistinct.of_meet.vars).1 hv
    · rw [if_neg hv]
      exact ih ⟨hb.scans, hb.codes, List.nodup_cons.mpr ⟨hv, hb.vars⟩⟩

theorem addNodes_eq_ok_iff {name : String} {ns : List Node} {b b' : Bound} (hb : b.Distinct) :
    addNodes name ns b = .ok b' ↔
      b' = b.meet [] (ns.map (·.code)) (ns.flatMap fun n => n.vars.map (·.id)) ∧ b'.Distinct := by
  induction ns generalizing b with
  | nil =>
    rw [addNodes, Except.ok.injEq]
    exact ⟨fun h => h ▸ ⟨rfl, hb⟩, fun h => h.1.symm⟩
  | cons n ns ih =>
    have hmeet : b.meet [] ((n :: ns).map (·.code)) ((n :: ns).flatMap fun n => n.vars.map (·.id))
        = ((b.meet [] [n.code] []).meet [] [] (n.vars.map (·.id))).meet [] (ns.map (·.code))
          (ns.flatMap fun n => n.vars.map (·.id)) := by
      rw [meet_meet, meet_meet]
      rfl
    rw [addNodes, hmeet]
    by_cases hc : n.code ∈ b.codes
    · -- the code is met a second time
      rw [if_pos hc]
      refine iff_of_false nofun ?_
      rintro ⟨rfl, hdistinct⟩
      exact (List.nodup_cons.mp hdistinct.of_meet.of_meet.codes).1 hc
    · rw [if_neg hc]
      have hb₁ : (b.meet [] [n.code] []).Distinct :=
        ⟨hb.scans, List.nodup_cons.mpr ⟨hc, hb.codes⟩, hb.vars⟩
      -- the node's variables are met after its code, and the other nodes after both
      constructor
      · intro h
        obtain ⟨b₂, h₂, h'⟩ := Except.bind_eq_ok_iff.mp h
        obtain ⟨rfl, hb₂⟩ := (addVars_eq_ok_iff hb₁).mp h₂
        exact (ih hb₂).mp h'
      · rintro ⟨rfl, hdistinct⟩
        exact Except.bind_eq_ok_iff.mpr ⟨_, (addVars_eq_ok_iff hb₁).mpr ⟨rfl, hdistinct.of_meet⟩,
          (ih hdistinct.of_meet).mpr ⟨rfl, hdistinct⟩⟩

/-! ### The check -/

/-- What is met after an operator. -/
def meetOperator (b : Bound) (n : Plan) : Bound := b.meet n.ownScans n.ownCodes n.ownVars

theorem addScan_eq_ok_iff {s : Scan} {d : Option Schema} {b b' : Bound} (hb : b.Distinct) :
    addScan s b = .ok b' ↔
      (Plan.scan s d).PatternSound ∧ b' = b.meetOperator (.scan s d) ∧ b'.Distinct := by
  have hmeet : b.meetOperator (.scan s d) = (b.meet [s.id] [] []).meet [] (s.nodes.map (·.code))
      (s.nodes.flatMap fun n => n.vars.map (·.id)) := by
    rw [meet_meet]
    rfl
  have hsound : (Plan.scan s d).PatternSound ↔ ∀ q ∈ s.pattern, ∃ f, q.Sound f := by
    simp [Plan.PatternSound, Plan.scan?]
  rw [addScan, hmeet, hsound]
  by_cases hid : s.id ∈ b.scans
  · rw [if_pos hid]
    refine iff_of_false nofun ?_
    rintro ⟨-, rfl, hdistinct⟩
    exact (List.nodup_cons.mp hdistinct.of_meet.scans).1 hid
  · rw [if_neg hid]
    -- the scan counts as met before its pattern is looked at
    have hb₁ : (b.meet [s.id] [] []).Distinct :=
      ⟨List.nodup_cons.mpr ⟨hid, hb.scans⟩, hb.codes, hb.vars⟩
    cases hp : s.pattern with
    | none =>
      have hnodes : s.nodes = [] := by rw [Scan.nodes, hp]; rfl
      rw [hnodes]
      constructor
      · rintro ⟨⟩
        exact ⟨nofun, rfl, hb₁⟩
      · rintro ⟨-, rfl, -⟩
        rfl
    | some p =>
      have hnodes : s.nodes = p.nodesInOrder.getD [] := by rw [Scan.nodes, hp]; rfl
      simp only [Option.mem_some_iff, forall_eq']
      constructor
      · intro h
        obtain ⟨_, hvalid, h⟩ := Except.bind_eq_ok_iff.mp h
        -- the nodes are listed only for a sound pattern, and then the listing succeeds
        obtain ⟨f, hf⟩ := Pattern.validate_eq_ok_iff.mp hvalid
        rw [hf.nodesInOrder_eq] at h hnodes
        rw [hnodes]
        exact ⟨⟨f, hf⟩, (addNodes_eq_ok_iff hb₁).mp h⟩
      · rintro ⟨⟨f, hf⟩, h⟩
        rw [hnodes] at h
        refine Except.bind_eq_ok_iff.mpr ⟨(), Pattern.validate_eq_ok_iff.mpr ⟨f, hf⟩, ?_⟩
        rw [hf.nodesInOrder_eq] at h ⊢
        exact (addNodes_eq_ok_iff hb₁).mpr h

theorem addOperator_eq_ok_iff {n : Plan} {b b' : Bound} (hb : b.Distinct) :
    addOperator b n = .ok b' ↔ n.PatternSound ∧ b' = b.meetOperator n ∧ b'.Distinct := by
  -- operators that bring nothing along are accepted, and leave things as they were
  have hother : n.scan? = none → n.ownVars = [] → n.ownCodes = [] → n.ownScans = [] →
      (Except.ok b = (.ok b' : Except PlanError Bound)
        ↔ n.PatternSound ∧ b' = b.meetOperator n ∧ b'.Distinct) := by
    intro hscan hvars hcodes hscans
    rw [Plan.PatternSound, hscan, meetOperator, hvars, hcodes, hscans, Except.ok.injEq]
    exact ⟨fun h => h ▸ ⟨nofun, rfl, hb⟩, fun h => h.2.1.symm⟩
  cases n with
  | scan s d => exact addScan_eq_ok_iff hb
  | binary op l r d => exact hother rfl rfl rfl rfl
  | unary op p d =>
    cases op with
    | aggregate a =>
      rw [addOperator]
      by_cases hv : a.result ∈ b.vars
      · rw [if_pos hv]
        refine iff_of_false nofun ?_
        rintro ⟨-, rfl, hdistinct⟩
        exact (List.nodup_cons.mp hdistinct.vars).1 hv
      · rw [if_neg hv, Except.ok.injEq]
        constructor
        · rintro rfl
          exact ⟨nofun, rfl, hb.scans, hb.codes, List.nodup_cons.mpr ⟨hv, hb.vars⟩⟩
        · rintro ⟨-, rfl, -⟩
          rfl
    | select c => exact hother rfl rfl rfl rfl
    | project cs => exact hother rfl rfl rfl rfl
    | distinct cs => exact hother rfl rfl rfl rfl
    | group g => exact hother rfl rfl rfl rfl
    | flatten c => exact hother rfl rfl rfl rfl
    | construct t => exact hother rfl rfl rfl rfl

/-- The check of a list of operators accepts if their patterns are sound and nothing that they bring
along repeats, among them or with what is met before. -/
theorem foldlM_eq_ok_iff {ops : List Plan} {b b' : Bound} (hb : b.Distinct) :
    ops.foldlM addOperator b = .ok b' ↔ (∀ n ∈ ops, n.PatternSound) ∧
      b' = b.meet (ops.flatMap Plan.ownScans) (ops.flatMap Plan.ownCodes)
        (ops.flatMap Plan.ownVars) ∧ b'.Distinct := by
  induction ops generalizing b with
  | nil =>
    constructor
    · rintro ⟨⟩
      exact ⟨nofun, rfl, hb⟩
    · rintro ⟨-, rfl, -⟩
      rfl
  | cons n ops ih =>
    have hmeet : b.meet ((n :: ops).flatMap Plan.ownScans) ((n :: ops).flatMap Plan.ownCodes)
        ((n :: ops).flatMap Plan.ownVars) = (b.meetOperator n).meet (ops.flatMap Plan.ownScans)
          (ops.flatMap Plan.ownCodes) (ops.flatMap Plan.ownVars) := by
      rw [meetOperator, meet_meet]
      rfl
    rw [List.foldlM_cons, Except.bind_eq_ok_iff, hmeet, List.forall_mem_cons]
    constructor
    · rintro ⟨b₁, h₁, h⟩
      obtain ⟨hn, rfl, hb₁⟩ := (addOperator_eq_ok_iff hb).mp h₁
      obtain ⟨hops, heq, hb'⟩ := (ih hb₁).mp h
      exact ⟨⟨hn, hops⟩, heq, hb'⟩
    · rintro ⟨⟨hn, hops⟩, rfl, hb'⟩
      exact ⟨_, (addOperator_eq_ok_iff hb).mpr ⟨hn, rfl, hb'.of_meet⟩,
        (ih hb'.of_meet).mpr ⟨hops, rfl, hb'⟩⟩

end Bound

/-- The check accepts exactly the sound plans. -/
theorem Plan.validate_eq_ok_iff {p : Plan} : p.validate = .ok () ↔ p.Sound := by
  have hnothing : Bound.nothing.Distinct := ⟨List.nodup_nil, List.nodup_nil, List.nodup_nil⟩
  have hbind : p.validate = .ok ()
      ↔ ∃ b, p.postorder.foldlM Bound.addOperator Bound.nothing = .ok b := by
    rw [validate, Except.bind_eq_ok_iff]
    exact exists_congr fun b => and_iff_left rfl
  rw [hbind]
  constructor
  · -- what is listed by the check is the reverse of what the operators bring along
    rintro ⟨b, hb⟩
    obtain ⟨hpatterns, rfl, hdistinct⟩ := (Bound.foldlM_eq_ok_iff hnothing).mp hb
    have hscans := hdistinct.scans
    have hcodes := hdistinct.codes
    have hvars := hdistinct.vars
    simp only [Bound.meet, Bound.nothing, List.append_nil, (List.reverse_perm _).nodup_iff]
      at hscans hcodes hvars
    exact ⟨hpatterns, hscans, hcodes, hvars⟩
  · rintro ⟨hpatterns, hscans, hcodes, hvars⟩
    refine ⟨_, (Bound.foldlM_eq_ok_iff hnothing).mpr ⟨hpatterns, rfl, ?_, ?_, ?_⟩⟩
    · simpa only [Bound.meet, Bound.nothing, List.append_nil, (List.reverse_perm _).nodup_iff]
    · simpa only [Bound.meet, Bound.nothing, List.append_nil, (List.reverse_perm _).nodup_iff]
    · simpa only [Bound.meet, Bound.nothing, List.append_nil, (List.reverse_perm _).nodup_iff]

end TwigAlgebra
