import Mathlib.Data.List.Flatten
import TwigAlgebra.Proofs.Holders
import TwigAlgebra.Proofs.PlanSoundness

/-!
# Keys of a sound plan are distinct

A key is made from the number of a variable or of a scan.  The scans and aggregations of a sound
plan bind different variables, and the scans have different numbers, so the columns that they
introduce carry different keys.

## Main definitions

* `ColumnKey.Drawn` — keys that are made from some variables and some scans, each used once.

## Main results

* `ColumnKey.Drawn.nodup` — keys made from different numbers are different.
* `Plan.drawn_of_introduces` — the keys that operators introduce are made from their own numbers.
* `Plan.nodup_of_introduces` — below an operator of a resolved plan no key is introduced twice.
-/

namespace TwigAlgebra

/-! ### Keys and numbers -/

namespace ColumnKey

/-- The variable whose value the key stands for. -/
def var? : ColumnKey → Option Var
  | var v => some v
  | _ => none

/-- The scan whose document identifier the key stands for. -/
def docId? : ColumnKey → Option ScanId
  | docId s => some s
  | _ => none

/-- The scan whose documents the key stands for. -/
def document? : ColumnKey → Option ScanId
  | document s => some s
  | _ => none

/-- The keys are made from the variables and the scans, each used once at most for every kind of
key, in the order of the lists. -/
structure Drawn (vars : List Var) (scans : List ScanId) (keys : List ColumnKey) : Prop where
  /-- Keys of variables. -/
  vars : (keys.filterMap var?).Sublist vars
  /-- Keys of document identifiers. -/
  docIds : (keys.filterMap docId?).Sublist scans
  /-- Keys of documents. -/
  documents : (keys.filterMap document?).Sublist scans

namespace Drawn

variable {vars vars' : List Var} {scans scans' : List ScanId} {keys keys' : List ColumnKey}

theorem append (h : Drawn vars scans keys) (h' : Drawn vars' scans' keys') :
    Drawn (vars ++ vars') (scans ++ scans') (keys ++ keys') := by
  refine ⟨?_, ?_, ?_⟩ <;> rw [List.filterMap_append]
  · exact h.vars.append h'.vars
  · exact h.docIds.append h'.docIds
  · exact h.documents.append h'.documents

/-- Keys made from different numbers are different. -/
theorem nodup (h : Drawn vars scans keys) (hvars : vars.Nodup) (hscans : scans.Nodup) :
    keys.Nodup := by
  have hv := hvars.sublist h.vars
  have hi := hscans.sublist h.docIds
  have hd := hscans.sublist h.documents
  clear h
  induction keys with
  | nil => exact List.nodup_nil
  | cons key keys ih =>
    -- the number of the first key is not among those of the same kind that follow
    cases key with
    | var v =>
      obtain ⟨hnew, hv⟩ := List.nodup_cons.mp hv
      refine List.nodup_cons.mpr ⟨fun hmem => hnew ?_, ih hv hi hd⟩
      exact List.mem_filterMap.mpr ⟨_, hmem, rfl⟩
    | docId s =>
      obtain ⟨hnew, hi⟩ := List.nodup_cons.mp hi
      refine List.nodup_cons.mpr ⟨fun hmem => hnew ?_, ih hv hi hd⟩
      exact List.mem_filterMap.mpr ⟨_, hmem, rfl⟩
    | document s =>
      obtain ⟨hnew, hd⟩ := List.nodup_cons.mp hd
      refine List.nodup_cons.mpr ⟨fun hmem => hnew ?_, ih hv hi hd⟩
      exact List.mem_filterMap.mpr ⟨_, hmem, rfl⟩

end Drawn

end ColumnKey

namespace Plan

open ColumnKey

variable {checked : Bool} {p r n : Plan}

/-! ### Introduced keys -/

/-- The variables that a scan binds are those of the nodes of its pattern. -/
theorem ownVars_eq_of_binds {s : Scan} {d : Option Schema} {q : Pattern} {vs : List Variable}
    (hs : s.pattern = some q) (hvs : q.Binds vs) : (scan s d).ownVars = vs.map (·.id) := by
  obtain ⟨ns, hns, rfl⟩ := Option.map_eq_some_iff.mp (Pattern.boundVars_eq_some_iff.mpr hvs)
  rw [ownVars, Scan.nodes, hs, Option.bind_some, hns, Option.getD_some, List.map_flatMap]

theorem keysAll_variables (vs : List Variable) :
    Column.keysAll (vs.map fun v => .carrying (.var v.id) v.kind.scalarType)
      = vs.map fun v => .var v.id := by
  induction vs with
  | nil => rfl
  | cons v vs ih =>
    rw [List.map_cons, Column.keysAll_cons, ih]
    rfl

/-- The keys that an operator introduces are made from the numbers that it brings along. -/
theorem Introduces.drawn {cs : List Column} (h : n.Introduces cs) :
    Drawn n.ownVars n.ownScans (Column.keysAll cs) := by
  cases n with
  | scan s d =>
    obtain ⟨body, rfl, hbody⟩ := h
    rw [Column.keysAll_append]
    cases hp : s.pattern with
    | none =>
      rw [hp] at hbody
      subst hbody
      -- the document is the only column, next to that of the identifier
      constructor <;> cases s.attachDocId <;>
        simp [ownScans, Column.keys, Column.carrying, List.filterMap_cons, var?, docId?, document?]
    | some q =>
      rw [hp] at hbody
      obtain ⟨vs, hvs, rfl⟩ := hbody
      -- each variable has one key, and the only other key is that of the identifier
      rw [ownVars_eq_of_binds hp hvs, keysAll_variables]
      constructor <;> cases s.attachDocId <;>
        simp [ownScans, Column.keys, Column.carrying, List.filterMap_cons, List.filterMap_map,
          Function.comp_def, var?, docId?, document?]
  | unary op p d =>
    cases op with
    | aggregate a =>
      cases h
      exact ⟨.refl _, .slnil, .slnil⟩
    | _ => exact h.elim
  | binary op l r d => exact h.elim

/-- The keys that several operators introduce are made from the numbers that they bring along. -/
theorem drawn_of_introduces {ns : List Plan} {css : List (List Column)}
    (h : List.Forall₂ Introduces ns css) :
    Drawn (ns.flatMap ownVars) (ns.flatMap ownScans) (Column.keysAll css.flatten) := by
  induction h with
  | nil => exact ⟨.slnil, .slnil, .slnil⟩
  | @cons n cs ns css hintro _ ih =>
    rw [List.flatten_cons, Column.keysAll_append]
    exact hintro.drawn.append ih

/-! ### Sound plans -/

/-- The same operator with other references brings the same numbers along. -/
theorem Recast.own_eq {f : Nat → ColumnRef → ColumnRef} {m : Plan} (h : Recast f n m) :
    m.ownVars = n.ownVars ∧ m.ownScans = n.ownScans := by
  cases h with
  | unary op p p' d d' => cases op <;> exact ⟨rfl, rfl⟩
  | _ => exact ⟨rfl, rfl⟩

/-- Resolution keeps the numbers that operators bring along. -/
theorem flatMap_own_of_resolve (h : p.resolve checked = .done r) :
    r.postorder.flatMap ownVars = p.postorder.flatMap ownVars ∧
      r.postorder.flatMap ownScans = p.postorder.flatMap ownScans := by
  have hall := forall₂_postorder_of_resolve h
  generalize p.postorder = ns at hall
  generalize r.postorder = ms at hall
  induction hall with
  | nil => exact ⟨rfl, rfl⟩
  | cons hm _ ih =>
    obtain ⟨hvars, hscans⟩ := (recast_of_resolve hm).1.own_eq
    simp only [List.flatMap_cons, hvars, hscans, ih.1, ih.2, and_self]

/-- What the scans and aggregations below an operator introduce carries different keys, if the plan
was sound before it was resolved. -/
theorem nodup_of_introduces (hp : p.Sound) (h : p.resolve checked = .done r) (hn : n ∈ r.postorder)
    {css : List (List Column)}
    (hcss : List.Forall₂ Introduces (n.postorder.filter isHolder) css) :
    (Column.keysAll css.flatten).Nodup := by
  obtain ⟨hvars, hscans⟩ := flatMap_own_of_resolve h
  -- the operators below are some of those of the plan, in which no number is used twice
  have hsub : (n.postorder.filter isHolder).Sublist r.postorder :=
    List.filter_sublist.trans (postorder_sublist hn)
  refine (drawn_of_introduces hcss).nodup ?_ ?_
  · exact (hvars ▸ hp.vars).sublist (hsub.flatMap ownVars)
  · exact (hscans ▸ hp.scans).sublist (hsub.flatMap ownScans)

end Plan

end TwigAlgebra
