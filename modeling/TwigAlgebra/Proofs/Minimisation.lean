import TwigAlgebra.Proofs.PlanResolution
import TwigAlgebra.Proofs.PlanSoundness
import TwigAlgebra.Proofs.Pruning

/-!
# Minimising changes nothing that resolution sees

Minimising a sound plan always succeeds, leaves a sound plan, and changes the patterns of scans
only, none of which gains, loses or moves a variable.  Resolution sees no more of a pattern than its
variables, so that it comes to the same end whichever rules have been applied before.

## Main definitions

* `Pattern.Steps` — what the two rules do to a sound pattern.
* `Plan.Alike` — plans that differ in the patterns of their scans only, with the same variables.
* `Plan.Reduces` — what minimising must keep.

## Main results

* `Pattern.Sound.exists_steps` — the rules take their steps.
* `Plan.exists_minimise` — minimising a sound plan succeeds and keeps what it must.
* `Plan.Alike.resolve` — plans that are alike are resolved alike.
* `Query.resolve_minimise` — resolution after minimising does not depend on the rules.
-/

namespace TwigAlgebra

/-! ### The two rules -/

namespace Pattern

variable {m : Minimisation} {unread : Bool} {p p₁ q : Pattern} {f : Forest} {drop : List Handle}

/-- The rules take a sound pattern `p` to `p₁`, which stores less, and on to `q`, which has lost the
slots of removable branches. -/
structure Steps (m : Minimisation) (unread : Bool) (f : Forest) (p p₁ q : Pattern)
    (drop : List Handle) : Prop where
  /-- The first rule, if it applies, clears what is stored. -/
  clears : p.Clears (p.tagsOn f) (if m.minimizeStorage && unread then f.handles else []) p₁
  /-- The second rule, if it applies, drops the slots of removable branches. -/
  doomed : ∀ i, i ∈ drop ↔ m.pruneBranches = true ∧ p₁.Doomed f i
  /-- The branches are cut off. -/
  cuts : Cuts drop f p₁ q

theorem Steps.reduces_clears (hp : p.Sound f) (h : Steps m unread f p p₁ q drop) :
    p.Reduces f p₁ f :=
  h.clears.reduces hp

theorem Steps.drops (hp : p.Sound f) (h : Steps m unread f p p₁ q drop) : p₁.Drops drop := by
  cases hprune : m.pruneBranches with
  | true => exact (h.reduces_clears hp).sound.drops fun i => by rw [h.doomed, hprune]; simp
  | false =>
    have hnone : ∀ i, i ∉ drop := fun i hi => by
      have hi' := ((h.doomed i).mp hi).1
      rw [hprune] at hi'
      cases hi'
    exact ⟨hnone _, fun i hi => absurd hi (hnone i), fun i hi => absurd hi (hnone i)⟩

/-- The steps keep what a rule must keep. -/
theorem Steps.reduces (hp : p.Sound f) (h : Steps m unread f p p₁ q drop) :
    p.Reduces f q (f.without drop) :=
  (h.reduces_clears hp).trans (h.cuts.reduces (h.drops hp) (h.reduces_clears hp).sound)

/-- Applying the rules to a sound pattern succeeds in two steps, and counts the nodes that no longer
store anything and the slots that are gone.  The first rule leaves nothing remembered. -/
theorem Sound.exists_steps (hp : p.Sound f) (m : Minimisation) (unread : Bool) :
    ∃ cleared p₁ q drop, Steps m unread f p p₁ q drop ∧
      ((m.minimizeStorage && unread) = true → q.forget = q) ∧
      (if (m.minimizeStorage && unread) = true then p.clearUnread else some (0, p))
        = some (cleared, p₁) ∧
      cleared = (p.nodesOn f).countP (·.stores.any) - (p₁.nodesOn f).countP (·.stores.any) ∧
      p.minimise m unread
        = some (q, ⟨1, cleared, f.handles.length - (f.without drop).handles.length⟩, .ok ()) := by
  -- the first rule, if it applies
  obtain ⟨cleared, p₁, hp₁, hcount, hclears, hforgets⟩ : ∃ cleared p₁,
      (if (m.minimizeStorage && unread) = true then p.clearUnread else some (0, p))
        = some (cleared, p₁) ∧
      cleared = (p.nodesOn f).countP (·.stores.any) - (p₁.nodesOn f).countP (·.stores.any) ∧
      p.Clears (p.tagsOn f) (if m.minimizeStorage && unread then f.handles else []) p₁ ∧
      ((m.minimizeStorage && unread) = true → p₁.forget = p₁) := by
    cases m.minimizeStorage && unread with
    | true =>
      obtain ⟨p₁, hclears, hforgets, hp₁⟩ := hp.unfolds.exists_clearUnread
      exact ⟨_, p₁, hp₁, rfl, hclears, fun _ => hforgets⟩
    | false => exact ⟨0, p, rfl, (Nat.sub_self _).symm, .refl _ p, nofun⟩
  have hsound : p₁.Sound f := (hclears.reduces hp).sound
  -- the second rule, if it applies
  obtain ⟨q, drop, hq, hdoomed, hcuts, hforget⟩ : ∃ q drop,
      (if m.pruneBranches = true then p₁.pruneInert else some (0, p₁))
        = some (f.handles.length - (f.without drop).handles.length, q) ∧
      (∀ i, i ∈ drop ↔ m.pruneBranches = true ∧ p₁.Doomed f i) ∧ Cuts drop f p₁ q ∧
      (p₁.forget = p₁ → q.forget = q) := by
    cases m.pruneBranches with
    | true =>
      obtain ⟨q, drop, hq, hdrop, hcuts⟩ := hsound.exists_pruneInert
      exact ⟨q, drop, hq, fun i => (hdrop i).trans (and_iff_right rfl).symm, hcuts,
        fun hp₁ => forget_pruneInert hp₁ hq⟩
    | false =>
      refine ⟨p₁, [], by simp [Forest.without_nil], fun i => ?_, .refl f p₁, id⟩
      exact iff_of_false List.not_mem_nil fun h => nomatch h.1
  have hsteps : Steps m unread f p p₁ q drop := ⟨hclears, hdoomed, hcuts⟩
  exact ⟨cleared, p₁, q, drop, hsteps, fun hrule => hforget (hforgets hrule), hp₁, hcount,
    minimise_eq hp₁ hq ((hsteps.reduces hp).checkKept_eq hp)⟩

/-- Applying the rules to a sound pattern succeeds and keeps what a rule must keep. -/
theorem Sound.exists_minimise (hp : p.Sound f) (m : Minimisation) (unread : Bool) :
    ∃ q saved g, p.minimise m unread = some (q, saved, .ok ()) ∧ p.Reduces f q g := by
  obtain ⟨cleared, p₁, q, drop, hsteps, -, -, -, hq⟩ := hp.exists_steps m unread
  exact ⟨q, _, _, hq, hsteps.reduces hp⟩

end Pattern

/-! ### Plans that are alike -/

/-- The scans read the same documents, and their patterns bind the same variables in the same
order. -/
structure Scan.Alike (s t : Scan) : Prop where
  /-- The number is the same. -/
  id : t.id = s.id
  /-- The document identifier is attached to both or to neither. -/
  attachDocId : t.attachDocId = s.attachDocId
  /-- The documents are the same. -/
  source : t.source = s.source
  /-- Both navigate by a pattern, with the same name and the same variables, or neither does. -/
  pattern : (t.pattern.map fun p => (p.name, p.boundVars))
    = s.pattern.map fun p => (p.name, p.boundVars)

namespace Scan.Alike

variable {s t u : Scan}

theorem refl (s : Scan) : s.Alike s := ⟨rfl, rfl, rfl, rfl⟩

theorem symm (h : s.Alike t) : t.Alike s :=
  ⟨h.id.symm, h.attachDocId.symm, h.source.symm, h.pattern.symm⟩

theorem trans (hst : s.Alike t) (htu : t.Alike u) : s.Alike u :=
  ⟨htu.id.trans hst.id, htu.attachDocId.trans hst.attachDocId, htu.source.trans hst.source,
    htu.pattern.trans hst.pattern⟩

/-- Both scans navigate by a pattern, and bind the same variables, or neither does. -/
theorem pattern_cases (h : s.Alike t) : s.pattern = none ∧ t.pattern = none ∨
    ∃ p q, s.pattern = some p ∧ t.pattern = some q ∧ q.boundVars = p.boundVars := by
  have hpattern := h.pattern
  cases hs : s.pattern <;> cases ht : t.pattern <;> simp_all

theorem name_eq (h : s.Alike t) : t.name = s.name := by
  have hsome := congrArg Option.isSome h.pattern
  rw [Option.isSome_map, Option.isSome_map] at hsome
  rw [Scan.name, Scan.name, hsome]

theorem schema_eq (h : s.Alike t) : t.schema = s.schema := by
  have hbody : t.bodyColumns = s.bodyColumns := by
    rcases h.pattern_cases with ⟨hs, ht⟩ | ⟨p, q, hs, ht, hvars⟩
    · rw [bodyColumns, bodyColumns, hs, ht, h.id]
    · simp only [bodyColumns, hs, ht, hvars]
  rw [schema, schema, hbody, docIdColumns, docIdColumns, h.attachDocId, h.id]

theorem width_eq (h : s.Alike t) : t.width = s.width := by
  rcases h.pattern_cases with ⟨hs, ht⟩ | ⟨p, q, hs, ht, hvars⟩
  · simp only [width, hs, ht, h.attachDocId]
  · simp only [width, hs, ht, hvars, h.attachDocId]

end Scan.Alike

namespace Plan

/-- The plans have the same operators with the same parameters and schemas, over scans that are
alike. -/
inductive Alike : Plan → Plan → Prop where
  /-- Scans that are alike. -/
  | scan {s t : Scan} (h : s.Alike t) (d : Option Schema) : Alike (scan s d) (scan t d)
  /-- The same operator over inputs that are alike. -/
  | unary (op : Unary) {p q : Plan} (h : Alike p q) (d : Option Schema) :
      Alike (unary op p d) (unary op q d)
  /-- The same operator over inputs that are alike. -/
  | binary (op : Binary) {l l' r r' : Plan} (hl : Alike l l') (hr : Alike r r')
      (d : Option Schema) : Alike (binary op l r d) (binary op l' r' d)

namespace Alike

variable {p q r : Plan}

theorem refl (p : Plan) : p.Alike p := by
  induction p with
  | scan s d => exact .scan (.refl s) d
  | unary op p d ih => exact .unary op ih d
  | binary op l r d ihl ihr => exact .binary op ihl ihr d

theorem symm (h : p.Alike q) : q.Alike p := by
  induction h with
  | scan h d => exact .scan h.symm d
  | unary op _ d ih => exact .unary op ih d
  | binary op _ _ d ihl ihr => exact .binary op ihl ihr d

theorem trans (hpq : p.Alike q) (hqr : q.Alike r) : p.Alike r := by
  induction hpq generalizing r with
  | scan h d =>
    cases hqr with
    | scan h' => exact .scan (h.trans h') d
  | unary op _ d ih =>
    cases hqr with
    | unary _ h' => exact .unary op (ih h') d
  | binary op _ _ d ihl ihr =>
    cases hqr with
    | binary _ hl' hr' => exact .binary op (ihl hl') (ihr hr') d

theorem isConstruct_eq (h : p.Alike q) : q.isConstruct = p.isConstruct := by
  cases h <;> rfl

theorem isHolder_eq (h : p.Alike q) : q.isHolder = p.isHolder := by
  cases h with
  | scan => rfl
  | unary op => cases op <;> rfl
  | binary => rfl

theorem output_eq (h : p.Alike q) : q.output = p.output := by
  cases h <;> rfl

theorem forall₂_postorder (h : p.Alike q) : List.Forall₂ Alike p.postorder q.postorder := by
  induction h with
  | scan h d => exact .cons (.scan h d) .nil
  | unary op h d ih => exact List.rel_append ih (.cons (.unary op h d) .nil)
  | binary op hl hr d ihl ihr =>
    exact List.rel_append (List.rel_append ihl ihr) (.cons (.binary op hl hr d) .nil)

theorem scanRunWidth_eq {l l' : List Plan} (h : List.Forall₂ Alike l l') :
    scanRunWidth l' = scanRunWidth l := by
  induction h with
  | nil => rfl
  | cons h _ ih =>
    cases h with
    | scan h d => rw [scanRunWidth, scanRunWidth, h.attachDocId, h.width_eq, ih]
    | unary op h d => rfl
    | binary op hl hr d => rfl

theorem foldedWidth_eq (op : Unary) (h : p.Alike q) : foldedWidth op q = foldedWidth op p := by
  have hholders : List.Forall₂ Alike (p.postorder.filter isHolder) (q.postorder.filter isHolder) :=
    List.rel_filter (fun _ _ h => iff_of_eq (congrArg (· = true) h.isHolder_eq.symm))
      h.forall₂_postorder
  have hwidth : trailingWidth q = trailingWidth p :=
    scanRunWidth_eq (List.rel_reverse (List.forall₂_drop 1 hholders))
  cases op with
  | group g => exact hwidth
  | _ => rfl

theorem record {checked : Bool} {name : String} {d : Option Schema} {build build' : Option Schema → Plan}
    (h : ∀ d, (build d).Alike (build' d)) (x : Except PlanError Schema) :
    (Plan.record checked name d build' x).failure = (Plan.record checked name d build x).failure ∧
      (Plan.record checked name d build x).value.Alike (Plan.record checked name d build' x).value := by
  cases x with
  | error e => exact ⟨rfl, h d⟩
  | ok computed =>
    cases d with
    | none => exact ⟨rfl, h _⟩
    | some d =>
      simp only [Plan.record]
      split
      · exact ⟨rfl, h _⟩
      · exact ⟨rfl, h _⟩

/-- Plans that are alike are resolved alike: both or neither succeed, with the same failure, and
they stay alike. -/
theorem resolve (h : p.Alike q) (checked : Bool) :
    (q.resolve checked).failure = (p.resolve checked).failure ∧
      (p.resolve checked).value.Alike (q.resolve checked).value := by
  induction h with
  | @scan s t h d =>
    rw [Plan.resolve, Plan.resolve, h.schema_eq, h.name_eq]
    cases s.schema with
    | none => exact ⟨rfl, .scan h d⟩
    | some computed => exact record (fun d => .scan h d) _
  | @unary op p q h d ih =>
    rw [Plan.resolve, Plan.resolve, h.isConstruct_eq]
    cases p.isConstruct with
    | true => exact ⟨rfl, .unary op h d⟩
    | false =>
      -- a failure below is the same on both sides, and so is the output if there is none
      simp only [Bool.false_eq_true, if_false, ih.1]
      cases (p.resolve checked).failure with
      | some e => exact ⟨rfl, .unary op ih.2 d⟩
      | none =>
        simp only [ih.2.foldedWidth_eq, ih.2.output_eq]
        cases foldedWidth op (p.resolve checked).value with
        | none => exact ⟨rfl, .unary op ih.2 d⟩
        | some folded => exact record (fun d => .unary _ ih.2 d) _
  | @binary op l l' r r' hl hr d ihl ihr =>
    rw [Plan.resolve, Plan.resolve, hl.isConstruct_eq, hr.isConstruct_eq]
    cases l.isConstruct with
    | true => exact ⟨rfl, .binary op hl hr d⟩
    | false =>
      simp only [Bool.false_eq_true, if_false, ihl.1]
      cases (l.resolve checked).failure with
      | some e => exact ⟨rfl, .binary op ihl.2 hr d⟩
      | none =>
        cases r.isConstruct with
        | true => exact ⟨rfl, .binary op ihl.2 hr d⟩
        | false =>
          -- the left side is the same, and the right one is resolved
          simp only [Bool.false_eq_true, if_false, ihr.1]
          cases (r.resolve checked).failure with
          | some e => exact ⟨rfl, .binary op ihl.2 ihr.2 d⟩
          | none =>
            simp only [ihl.2.output_eq, ihr.2.output_eq]
            exact record (fun d => .binary _ ihl.2 ihr.2 d) _

end Alike

/-! ### Minimised plans -/

/-- What minimising must keep: the plans are alike, the patterns are sound, and the node codes are
among those before. -/
structure Reduces (p q : Plan) : Prop where
  /-- Only patterns change, and no variable of them. -/
  alike : p.Alike q
  /-- The patterns are sound. -/
  patterns : ∀ n ∈ q.postorder, n.PatternSound
  /-- The scans are the same. -/
  scans : q.postorder.flatMap ownScans = p.postorder.flatMap ownScans
  /-- The codes are some of those before. -/
  codes : (q.postorder.flatMap ownCodes).Sublist (p.postorder.flatMap ownCodes)
  /-- The variables are the same. -/
  vars : q.postorder.flatMap ownVars = p.postorder.flatMap ownVars

theorem Reduces.sound {p q : Plan} (h : p.Reduces q) (hp : p.Sound) : q.Sound where
  patterns := h.patterns
  scans := h.scans ▸ hp.scans
  codes := h.codes.nodup hp.codes
  vars := h.vars ▸ hp.vars

end Plan

theorem Pattern.Sound.nodes_eq {s : Scan} {p : Pattern} {f : Forest} (hp : p.Sound f)
    (hs : s.pattern = some p) : s.nodes = p.nodesOn f := by
  rw [Scan.nodes, hs, Option.bind_some, hp.nodesInOrder_eq, Option.getD_some]

namespace Plan

theorem exists_minimise_scan {s : Scan} {d : Option Schema} (hs : (scan s d).PatternSound)
    (m : Minimisation) (unread : Bool) :
    ∃ t saved, s.minimise m unread = .done (t, saved) ∧ (scan s d).Reduces (scan t d) := by
  cases hp : s.pattern with
  | none =>
    -- whole documents are left alone
    refine ⟨s, ⟨1, 0, 0⟩, by rw [Scan.minimise, hp], .refl _, ?_, rfl, List.Sublist.refl _, rfl⟩
    intro n hn
    rwa [List.mem_singleton.mp hn]
  | some p =>
    obtain ⟨f, hf⟩ := hs s rfl p hp
    obtain ⟨q, saved, g, hq, hreduces⟩ := hf.exists_minimise m unread
    have hsnodes := hf.nodes_eq hp
    have htnodes : Scan.nodes { s with pattern := some q } = q.nodesOn g :=
      hreduces.sound.nodes_eq rfl
    have hvars := hreduces.vars_eq
    -- the pattern that is left binds the same variables, so that the scan emits the same columns
    have halike : s.Alike { s with pattern := some q } := by
      refine ⟨rfl, rfl, rfl, ?_⟩
      rw [hp, Option.map_some, Option.map_some, hreduces.name, hreduces.boundVars_eq hf]
    refine ⟨{ s with pattern := some q }, saved, ?_, .scan halike d, ?_, rfl, ?_, ?_⟩
    · simp only [Scan.minimise, hp, hq]
      rfl
    · intro n hn
      rw [List.mem_singleton.mp hn]
      rintro t ⟨⟩ q' ⟨⟩
      exact ⟨g, hreduces.sound⟩
    · simpa [ownCodes, hsnodes, htnodes] using hreduces.codes
    · have hids := congrArg (List.map (·.id)) hvars
      simpa [ownVars, hsnodes, htnodes, List.map_flatMap] using hids

theorem Reduces.unary {p q : Plan} (h : p.Reduces q) (op : Unary) (d : Option Schema) :
    (unary op p d).Reduces (unary op q d) where
  alike := .unary op h.alike d
  patterns n hn := by
    rw [postorder_unary, List.mem_append, List.mem_singleton] at hn
    rcases hn with hn | rfl
    · exact h.patterns n hn
    · exact nofun
  scans := by
    rw [postorder_unary, postorder_unary, List.flatMap_append, List.flatMap_append, h.scans]
    rfl
  codes := by
    rw [postorder_unary, postorder_unary, List.flatMap_append, List.flatMap_append]
    exact h.codes.append (List.Sublist.refl _)
  vars := by
    rw [postorder_unary, postorder_unary, List.flatMap_append, List.flatMap_append, h.vars]
    cases op <;> rfl

theorem Reduces.binary {l l' r r' : Plan} (hl : l.Reduces l') (hr : r.Reduces r') (op : Binary)
    (d : Option Schema) : (binary op l r d).Reduces (binary op l' r' d) where
  alike := .binary op hl.alike hr.alike d
  patterns n hn := by
    rw [postorder_binary, List.mem_append, List.mem_append, List.mem_singleton] at hn
    rcases hn with (hn | hn) | rfl
    · exact hl.patterns n hn
    · exact hr.patterns n hn
    · exact nofun
  scans := by
    simp only [postorder_binary, List.flatMap_append, hl.scans, hr.scans]
    rfl
  codes := by
    simp only [postorder_binary, List.flatMap_append]
    exact (hl.codes.append hr.codes).append (List.Sublist.refl _)
  vars := by
    simp only [postorder_binary, List.flatMap_append, hl.vars, hr.vars]
    rfl

/-- Minimising a plan with sound patterns succeeds and keeps what it must. -/
theorem exists_minimise {p : Plan} (hp : ∀ n ∈ p.postorder, n.PatternSound) (m : Minimisation)
    (unread : Bool) : ∃ q saved, p.minimise m unread = .done (q, saved) ∧ p.Reduces q := by
  induction p with
  | scan s d =>
    obtain ⟨t, saved, ht, hreduces⟩ := exists_minimise_scan (hp _ (mem_postorder_self _)) m unread
    exact ⟨scan t d, saved, by rw [minimise, ht]; rfl, hreduces⟩
  | unary op p d ih =>
    obtain ⟨q, saved, hq, hreduces⟩ := ih fun n hn => hp n (by simp [hn])
    exact ⟨unary op q d, saved, by rw [minimise, hq]; rfl, hreduces.unary op d⟩
  | binary op l r d ihl ihr =>
    obtain ⟨l', savedl, hl', hl⟩ := ihl fun n hn => hp n (by simp [hn])
    obtain ⟨r', savedr, hr', hr⟩ := ihr fun n hn => hp n (by simp [hn])
    exact ⟨binary op l' r' d, savedl.add savedr, by rw [minimise, hl', hr']; rfl,
      hl.binary hr op d⟩

end Plan

namespace Query

/-- The plans are alike and at the same stage. -/
structure Alike (q r : Query) : Prop where
  /-- The plans are alike. -/
  root : q.root.Alike r.root
  /-- The stage is the same. -/
  stage : r.stage = q.stage

theorem Alike.resolve {q r : Query} (h : q.Alike r) (checked : Bool) :
    (r.resolve checked).failure = (q.resolve checked).failure ∧
      (q.resolve checked).value.Alike (r.resolve checked).value := by
  obtain ⟨hfailure, hvalue⟩ := h.root.resolve checked
  rw [Query.resolve, Query.resolve, hfailure]
  cases (q.root.resolve checked).failure with
  | none => exact ⟨rfl, hvalue, rfl⟩
  | some e => exact ⟨rfl, hvalue, h.stage⟩

/-- Minimising a sound symbolic plan succeeds, leaves a sound plan, and changes patterns only. -/
theorem exists_minimise {q : Query} (hstage : q.stage = .symbolic)
    (hvalid : q.root.validate = .ok ()) (m : Minimisation) :
    ∃ r saved, q.minimise m = .done (r, saved) ∧ r.root.validate = .ok () ∧ q.Alike r := by
  have hsound := Plan.validate_eq_ok_iff.mp hvalid
  rw [Query.minimise, hstage]
  cases henabled : m.enabled with
  | false => exact ⟨q, .zero, by simp, hvalid, .refl _, rfl⟩
  | true =>
    obtain ⟨root, saved, hroot, hreduces⟩ :=
      Plan.exists_minimise hsound.patterns m q.root.namesOutput
    refine ⟨{ q with root }, saved, ?_, Plan.validate_eq_ok_iff.mpr (hreduces.sound hsound),
      hreduces.alike, rfl⟩
    simp only [if_true, hroot]
    exact congrArg (fun stage => Attempt.done ({ root, stage : Query }, saved)) hstage.symm

/-- For a sound symbolic plan it does not matter which rules are applied before resolution.  With
any choice, minimising succeeds, the plan stays sound, and only patterns change, which keep their
variables and their order; and for any two choices, resolution stops with the same failure or
succeeds with the same parameters and schemas at every operator. -/
theorem resolve_minimise {q : Query} (hstage : q.stage = .symbolic)
    (hvalid : q.root.validate = .ok ()) (m₁ m₂ : Minimisation) (checked : Bool) :
    ∃ r₁ r₂ saved₁ saved₂,
      q.minimise m₁ = .done (r₁, saved₁) ∧ q.minimise m₂ = .done (r₂, saved₂) ∧
      r₁.root.validate = .ok () ∧ r₂.root.validate = .ok () ∧ q.Alike r₁ ∧ q.Alike r₂ ∧
      (r₂.resolve checked).failure = (r₁.resolve checked).failure ∧
      (r₁.resolve checked).value.Alike (r₂.resolve checked).value := by
  obtain ⟨r₁, saved₁, hr₁, hvalid₁, halike₁⟩ := exists_minimise hstage hvalid m₁
  obtain ⟨r₂, saved₂, hr₂, hvalid₂, halike₂⟩ := exists_minimise hstage hvalid m₂
  have halike : r₁.Alike r₂ :=
    ⟨halike₁.root.symm.trans halike₂.root, halike₂.stage.trans halike₁.stage.symm⟩
  obtain ⟨hfailure, hvalue⟩ := halike.resolve checked
  exact ⟨r₁, r₂, saved₁, saved₂, hr₁, hr₂, hvalid₁, hvalid₂, halike₁, halike₂, hfailure, hvalue⟩

/-- The titles of books, by a pattern with an optional branch for prices that nobody reads. -/
def bookTitles : Query :=
  let node (code : UInt32) (tag : String) (parent : Option Handle) (edges : List Edge) : Node :=
    { Node.make ⟨code⟩ "" tag with parent, edges }
  let book := node 0 "book" none [⟨⟨true, false, false⟩, 1⟩, ⟨⟨true, false, true⟩, 2⟩]
  let title := (node 1 "title" (some 0) []).binding ⟨⟨7⟩, "t", .value, none⟩
  let price := { node 2 "price" (some 0) [] with stores := ⟨false, false, true, false⟩ }
  let pattern : Pattern := ⟨"books", #[book, title, price], 0⟩
  let scan : Plan := .scan ⟨⟨0⟩, some pattern, true, ⟨"shelf", []⟩⟩ none
  .symbolic (.unary (.project [.symbolic (.var ⟨7⟩)]) scan none)

/-- The theorem at a plan whose pattern loses a node if every rule applies, and none otherwise. -/
theorem resolve_minimise_bookTitles :
    bookTitles.stage = .symbolic ∧ bookTitles.root.validate = .ok () ∧
      ∃ r₁ r₂ saved₁ saved₂,
        bookTitles.minimise .all = .done (r₁, saved₁) ∧
        bookTitles.minimise ⟨false, false, false⟩ = .done (r₂, saved₂) ∧
        r₁.root.validate = .ok () ∧ r₂.root.validate = .ok () ∧
        bookTitles.Alike r₁ ∧ bookTitles.Alike r₂ ∧
        (r₂.resolve true).failure = (r₁.resolve true).failure ∧
        (r₁.resolve true).value.Alike (r₂.resolve true).value :=
  have hvalid : bookTitles.root.validate = .ok () := by decide
  ⟨rfl, hvalid, resolve_minimise rfl hvalid .all ⟨false, false, false⟩ true⟩

end Query

end TwigAlgebra
