import Mathlib.Data.Set.Card
import TwigAlgebra.Proofs.FirstPath

/-!
# Looking keys up

The positions that are collected from a schema have a path for every key that the schema carries,
and for no other key.  No key is noted twice, so that the number of entries is the number of keys.

Operators look keys up in the columns of several inputs put together.  A key is then found in the
first input that carries it, where its path is the one that it has in this input alone, moved to the
right by the columns of the inputs before.

## Main definitions

* `Schema.moved` — a path into a tuple that has other columns in front.

## Main results

* `Column.pathAmong_append`, `Column.pathAmong_add` — searching columns one after the other.
* `Schema.size_positions` — the number of collected keys.
* `Schema.get?_positions_concat_eq_some_iff` — where a key is in several schemas.
* `Schema.positions_exact` — all of this for one key.
-/

namespace TwigAlgebra

/-- The path that leads to the same column when `k` columns stand in front of the tuple. -/
def Schema.moved (k : Nat) : List Nat → List Nat
  | [] => []
  | i :: rest => (k + i) :: rest

@[simp] theorem Schema.moved_nil (k : Nat) : moved k [] = [] := rfl

@[simp] theorem Schema.moved_cons (k i : Nat) (rest : List Nat) :
    moved k (i :: rest) = (k + i) :: rest := rfl

/-! ### Searching columns one after the other -/

namespace Column

/-- The later columns are searched only if the key is not inside the earlier ones. -/
theorem pathAmong_append (key : ColumnKey) (i : Nat) (as bs : List Column) :
    pathAmong key i (as ++ bs) = (pathAmong key i as).or (pathAmong key (i + as.length) bs) := by
  induction as generalizing i with
  | nil => simp [pathAmong]
  | cons a as ih =>
    have hlength : i + 1 + as.length = i + (a :: as).length := by
      rw [List.length_cons]
      omega
    rw [List.cons_append, pathAmong, pathAmong, ih, hlength, Option.or_assoc]

/-- Counting from `k` on moves the paths by `k`. -/
theorem pathAmong_add (key : ColumnKey) (k i : Nat) (cs : List Column) :
    pathAmong key (k + i) cs = (pathAmong key i cs).map (Schema.moved k) := by
  induction cs generalizing i with
  | nil => rfl
  | cons c cs ih =>
    rw [pathAmong, pathAmong, Nat.add_assoc, ih]
    cases c.pathTo key <;> simp

/-- Columns that stand further to the right have the same paths, moved. -/
theorem pathAmong_eq_map (key : ColumnKey) (k : Nat) (cs : List Column) :
    pathAmong key k cs = (pathAmong key 0 cs).map (Schema.moved k) :=
  pathAmong_add key k 0 cs

/-- Every path begins with the position of one of the columns. -/
theorem exists_of_pathAmong_eq_some {key : ColumnKey} {i : Nat} {cs : List Column}
    {path : List Nat} (h : pathAmong key i cs = some path) :
    ∃ j rest, path = (i + j) :: rest ∧ j < cs.length := by
  have hleast := isLeast_pathAmong key i cs
  rw [h] at hleast
  obtain ⟨j, rest, d, rfl, hd, -⟩ := hleast.1
  exact ⟨j, rest, rfl, (List.getElem?_eq_some_iff.mp hd).1⟩

/-! ### Keys that are carried -/

mutual

theorem carries_iff_mem_keys (key : ColumnKey) :
    ∀ c : Column, c.carries key = true ↔ key ∈ c.keys
  | .scalar o t => by
    rw [carries_scalar, keys, beq_iff_eq, Option.mem_toList]
  | .nested o cs => by
    rw [carries_nested, keys, Bool.or_eq_true, carriesAny_iff_mem_keysAll key cs, List.mem_append,
      beq_iff_eq, Option.mem_toList]

theorem carriesAny_iff_mem_keysAll (key : ColumnKey) :
    ∀ cs : List Column, carriesAny key cs = true ↔ key ∈ keysAll cs
  | [] => by simp
  | c :: cs => by
    rw [carriesAny_cons, keysAll_cons, Bool.or_eq_true, carries_iff_mem_keys key c,
      carriesAny_iff_mem_keysAll key cs, List.mem_append]

end

end Column

/-! ### The entries -/

namespace Positions

/-- The keys that have paths, in the order in which they were met. -/
def keys (ps : Positions) : List ColumnKey := ps.entries.map Prod.fst

theorem isSome_get?_iff {ps : Positions} {key : ColumnKey} :
    (ps.get? key).isSome ↔ key ∈ ps.keys := by
  simp [get?, keys]

/-- Noting a key does not repeat one. -/
theorem nodup_note {ps : Positions} (h : ps.keys.Nodup) (origin : Option ColumnKey)
    (path : List Nat) : (ps.note origin path).keys.Nodup := by
  cases origin with
  | none => exact h
  | some key =>
    by_cases hold : (ps.get? key).isSome
    · rw [note, if_pos hold]
      exact h
    · have hnew : key ∉ ps.keys := fun hkey => hold (isSome_get?_iff.mpr hkey)
      have hkeys : (ps.note (some key) path).keys = ps.keys ++ [key] := by
        rw [note, if_neg hold]
        simp [keys]
      rw [hkeys]
      exact h.append (List.nodup_singleton key) (List.disjoint_singleton.mpr hnew)

mutual

theorem nodup_collect (path : List Nat) :
    ∀ (c : Column) {ps : Positions}, ps.keys.Nodup → (collect path c ps).keys.Nodup
  | .scalar o _, _, h => nodup_note h o path
  | .nested o cs, _, h => nodup_collectAll path 0 cs (nodup_note h o path)

theorem nodup_collectAll (path : List Nat) (i : Nat) :
    ∀ (cs : List Column) {ps : Positions}, ps.keys.Nodup → (collectAll path i cs ps).keys.Nodup
  | [], _, h => h
  | c :: cs, _, h => nodup_collectAll path (i + 1) cs (nodup_collect (path ++ [i]) c h)

end

end Positions

namespace Schema

variable {s : Schema} {key : ColumnKey} {path : List Nat}

theorem carries_iff_mem_keys : s.carries key = true ↔ key ∈ s.keys :=
  Column.carriesAny_iff_mem_keysAll key s.columns

/-- A key has a path exactly if the schema carries it. -/
theorem isSome_get?_positions (s : Schema) (key : ColumnKey) :
    (s.positions.get? key).isSome = s.carries key := by
  rw [Bool.eq_iff_iff, carries_iff_mem_keys, keys, Column.mem_keysAll_iff key 0, get?_positions]

/-- No path is empty. -/
theorem ne_nil_of_get?_positions (h : s.positions.get? key = some path) : path ≠ [] := by
  rw [get?_positions] at h
  obtain ⟨j, rest, rfl, -⟩ := Column.exists_of_pathAmong_eq_some h
  exact List.cons_ne_nil _ _

/-- The number of entries is the number of keys that are carried. -/
theorem size_positions (s : Schema) : s.positions.size = {k | s.carries k = true}.ncard := by
  have hnodup : s.positions.keys.Nodup := Positions.nodup_collectAll [] 0 s.columns List.nodup_nil
  have hkeys : {k | s.carries k = true} = (s.positions.keys.toFinset : Set ColumnKey) := by
    ext k
    rw [Set.mem_ofPred_eq, ← isSome_get?_positions, Positions.isSome_get?_iff, List.coe_toFinset,
      Set.mem_ofPred_eq]
  rw [hkeys, Set.ncard_coe_finset, List.toFinset_card_of_nodup hnodup, Positions.keys,
    List.length_map, Positions.size]

/-! ### Several schemas -/

/-- The first schema hides the others, which stand to the right of it. -/
theorem get?_positions_concat_cons (s : Schema) (parts : List Schema) (key : ColumnKey) :
    (concat (s :: parts)).positions.get? key
      = (s.positions.get? key).or (((concat parts).positions.get? key).map (moved s.width)) := by
  have hcolumns : (concat (s :: parts)).columns = s.columns ++ (concat parts).columns :=
    List.flatMap_cons
  rw [get?_positions, get?_positions, get?_positions, hcolumns, Column.pathAmong_append,
    Nat.zero_add, Column.pathAmong_eq_map key s.columns.length, width]

/-- A key is found in the first of several schemas that carries it, moved to the right by the
columns of those before. -/
theorem get?_positions_concat_eq_some_iff {parts : List Schema} :
    (concat parts).positions.get? key = some path ↔
      ∃ before part after i rest, parts = before ++ part :: after ∧
        (∀ p ∈ before, p.carries key = false) ∧ part.positions.get? key = some (i :: rest) ∧
        path = ((before.map width).sum + i) :: rest := by
  induction parts generalizing path with
  | nil =>
    apply iff_of_false
    · exact nofun
    · rintro ⟨before, part, after, i, rest, hparts, -⟩
      exact absurd hparts.symm (List.append_ne_nil_of_right_ne_nil _ (List.cons_ne_nil _ _))
  | cons s parts ih =>
    have hcarries := isSome_get?_positions s key
    rw [get?_positions_concat_cons]
    cases hs : s.positions.get? key with
    | some found =>
      -- the first schema carries the key, so none can come before the one where it is found
      rw [hs] at hcarries
      obtain ⟨i, rest, rfl⟩ := List.exists_cons_of_ne_nil (ne_nil_of_get?_positions hs)
      rw [Option.some_or, Option.some_inj]
      constructor
      · rintro rfl
        exact ⟨[], s, parts, i, rest, rfl, List.forall_mem_nil _, hs, by simp⟩
      · rintro ⟨before, part, after, j, rest', hparts, hbefore, hpart, rfl⟩
        cases before with
        | nil =>
          cases hparts
          cases hs.symm.trans hpart
          simp
        | cons first before =>
          cases hparts
          rw [hbefore s List.mem_cons_self] at hcarries
          cases hcarries
    | none =>
      -- the first schema is passed over, and its columns move everything to the right
      rw [hs] at hcarries
      rw [Option.none_or, Option.map_eq_some_iff]
      constructor
      · rintro ⟨found, hfound, rfl⟩
        obtain ⟨before, part, after, i, rest, rfl, hbefore, hpart, rfl⟩ := ih.mp hfound
        refine ⟨s :: before, part, after, i, rest, rfl, ?_, hpart, ?_⟩
        · exact List.forall_mem_cons.mpr ⟨hcarries.symm, hbefore⟩
        · rw [moved_cons, List.map_cons, List.sum_cons, Nat.add_assoc]
      · rintro ⟨before, part, after, i, rest, hparts, hbefore, hpart, rfl⟩
        cases before with
        | nil =>
          cases hparts
          cases hs.symm.trans hpart
        | cons first before =>
          cases hparts
          have hlater : ∀ p ∈ before, p.carries key = false :=
            fun p hp => hbefore p (List.mem_cons_of_mem _ hp)
          refine ⟨_, ih.mpr ⟨before, part, after, i, rest, rfl, hlater, hpart, rfl⟩, ?_⟩
          rw [moved_cons, List.map_cons, List.sum_cons, Nat.add_assoc]

/-- A key has a path exactly if the schema carries it.  The path is not empty, its indices lead
through nested columns to a column that carries the key itself, and no path before it in pre-order
does.  There are as many paths as keys.  In several schemas together the path is that of the first
schema with the key, its first index moved by the width of the schemas before. -/
theorem positions_exact (s : Schema) (parts : List Schema) (key : ColumnKey) :
    (s.positions.get? key).isSome = s.carries key ∧
      (∀ path, s.positions.get? key = some path ↔ path ≠ [] ∧ s.FirstPath key path) ∧
      s.positions.size = {k | s.carries k = true}.ncard ∧
      ∀ path, (concat parts).positions.get? key = some path ↔
        ∃ before part after i rest, parts = before ++ part :: after ∧
          (∀ p ∈ before, p.carries key = false) ∧ part.positions.get? key = some (i :: rest) ∧
          path = ((before.map width).sum + i) :: rest := by
  refine ⟨isSome_get?_positions s key, fun path => ?_, size_positions s, fun path => ?_⟩
  · constructor
    · intro h
      exact ⟨ne_nil_of_get?_positions h, get?_positions_eq_some_iff.mp h⟩
    · rintro ⟨-, hfirst⟩
      exact get?_positions_eq_some_iff.mpr hfirst
  · exact get?_positions_concat_eq_some_iff

/-- The reviews beside a book have its key again: the column that nests them is found for their own
key, and the key of the book is found in the book. -/
example :
    let key (i : UInt32) : ColumnKey := .var ⟨i⟩
    let reviews : Column := .nested (some (key 2)) [.carrying (key 1) .id, .carrying (key 2) .xml]
    let together := concat [⟨[.carrying (.docId ⟨0⟩) .id, .carrying (key 1) .id]⟩, ⟨[reviews]⟩]
    together.positions.get? (key 1) = some [1] ∧ together.positions.get? (key 2) = some [2] ∧
      together.positions.size = 3 := by
  decide

end Schema

end TwigAlgebra
