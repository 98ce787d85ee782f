import TwigAlgebra.Schema.Positions

/-!
# The first path to a key

A path of indices leads from a schema through nested columns to a column, and a key stands for the
first path, in pre-order, that leads to a column carrying it.  Pre-order is the lexicographic order
of paths: a nested column comes before the columns inside it, and all of these come before the next
column of its level.

Positions are collected with the path so far and the positions so far handed along, so the proofs
go through a direct search, which asks for one key only.

## Main definitions

* `Column.LeadsTo`, `Schema.LeadsTo` — a path leads to a column that carries a key.
* `Schema.FirstPath`, `Schema.Leftmost` — the first such path, and its first index.
* `Column.keys`, `Schema.keys` — the keys at all levels, in pre-order.

## Main results

* `Schema.get?_positions_eq_some_iff` — the collected path of a key is its first path.
* `Schema.get?_positions_eq_none_iff` — a key without a path is carried nowhere.
* `Schema.mem_keys_iff` — a key is among the keys of a schema if some path leads to it.
* `Schema.LeadsTo.unique` — one path leads to a key if the keys of the schema are distinct.
-/

namespace TwigAlgebra

/-! ### Paths and the columns they lead to -/

/-- The path leads, inside the column, to a column that carries the key; the empty path leads to the
column itself. -/
def Column.LeadsTo (key : ColumnKey) : List Nat → Column → Prop
  | [], c => c.origin = some key
  | i :: path, c => ∃ cs d, c.inner? = some cs ∧ cs[i]? = some d ∧ d.LeadsTo key path

namespace Schema

/-- The path leads to a column that carries the key: its first index is a position of the tuple, and
every further one a position inside the nested column before. -/
def LeadsTo (s : Schema) (key : ColumnKey) (path : List Nat) : Prop :=
  (Column.nesting s.columns).LeadsTo key path

/-- The path is the first, in pre-order, of those that lead to a column carrying the key. -/
def FirstPath (s : Schema) (key : ColumnKey) (path : List Nat) : Prop :=
  s.LeadsTo key path ∧
    ∀ other, s.LeadsTo key other → other ≠ path → List.Lex (· < ·) path other

/-- The column at position `i` is the first of the tuple that carries the key, itself or inside. -/
def Leftmost (s : Schema) (key : ColumnKey) (i : Nat) : Prop :=
  (∃ rest, s.LeadsTo key (i :: rest)) ∧ ∀ j rest, s.LeadsTo key (j :: rest) → i ≤ j

/-- The first index of the first path is the first position that carries the key. -/
theorem FirstPath.leftmost {s : Schema} {key : ColumnKey} {i : Nat} {rest : List Nat}
    (h : s.FirstPath key (i :: rest)) : s.Leftmost key i := by
  refine ⟨⟨rest, h.1⟩, fun j rest' hj => ?_⟩
  by_cases heq : j :: rest' = i :: rest
  · cases heq
    exact Nat.le_refl i
  · cases h.2 _ hj heq with
    | rel hlt => exact Nat.le_of_lt hlt
    | cons _ => exact Nat.le_refl i

end Schema

/-! ### Searching for one key -/

namespace Column

mutual

/-- The first path to the key inside a column. -/
def pathTo (key : ColumnKey) : Column → Option (List Nat)
  | scalar o _ => if o = some key then some [] else none
  | nested o cs => if o = some key then some [] else pathAmong key 0 cs

/-- The first path to the key inside the columns at positions `i`, `i + 1`, … -/
def pathAmong (key : ColumnKey) (i : Nat) : List Column → Option (List Nat)
  | [] => none
  | c :: cs => ((c.pathTo key).map (i :: ·)).or (pathAmong key (i + 1) cs)

end

/-- The answer is the least, in pre-order, of the paths with a property; there is none if no path
has it. -/
def IsLeast (P : List Nat → Prop) : Option (List Nat) → Prop
  | none => ∀ path, ¬ P path
  | some path => P path ∧ ∀ other, P other → other ≠ path → List.Lex (· < ·) path other

/-- The path leads to the key inside one of the columns at positions `i`, `i + 1`, … -/
def LeadsAmong (key : ColumnKey) (i : Nat) (cs : List Column) (path : List Nat) : Prop :=
  ∃ j rest d, path = (i + j) :: rest ∧ cs[j]? = some d ∧ d.LeadsTo key rest

theorem leadsAmong_cons_iff {key : ColumnKey} {i : Nat} {c : Column} {cs : List Column}
    {path : List Nat} :
    LeadsAmong key i (c :: cs) path
      ↔ (∃ rest, path = i :: rest ∧ c.LeadsTo key rest) ∨ LeadsAmong key (i + 1) cs path := by
  constructor
  · rintro ⟨j, rest, d, rfl, hd, hrest⟩
    cases j with
    | zero =>
      cases hd
      exact Or.inl ⟨rest, rfl, hrest⟩
    | succ j => exact Or.inr ⟨j, rest, d, by rw [Nat.add_right_comm]; rfl, hd, hrest⟩
  · rintro (⟨rest, rfl, hrest⟩ | ⟨j, rest, d, rfl, hd, hrest⟩)
    · exact ⟨0, rest, c, rfl, rfl, hrest⟩
    · exact ⟨j + 1, rest, d, by rw [Nat.add_right_comm]; rfl, hd, hrest⟩

/-- A path among later columns comes after every path inside the column before them. -/
theorem LeadsAmong.after {key : ColumnKey} {i : Nat} {cs : List Column} {path : List Nat}
    (h : LeadsAmong key (i + 1) cs path) (rest : List Nat) :
    List.Lex (· < ·) (i :: rest) path := by
  obtain ⟨j, rest', d, rfl, -, -⟩ := h
  exact .rel (by omega)

mutual

theorem isLeast_pathTo (key : ColumnKey) :
    ∀ c : Column, IsLeast (fun path => c.LeadsTo key path) (c.pathTo key)
  | .scalar o t => by
    rw [pathTo]
    split
    case isTrue h =>
      refine ⟨h, fun other hother hne => ?_⟩
      -- the empty path is the only one into a scalar
      cases other with
      | nil => exact absurd rfl hne
      | cons i other =>
        obtain ⟨cs, -, hcs, -, -⟩ := hother
        cases hcs
    case isFalse h =>
      intro path hpath
      cases path with
      | nil => exact h hpath
      | cons i path =>
        obtain ⟨cs, -, hcs, -, -⟩ := hpath
        cases hcs
  | .nested o cs => by
    rw [pathTo]
    split
    case isTrue h =>
      -- the column itself carries the key, and the empty path precedes every other
      refine ⟨h, fun other _ hne => ?_⟩
      cases other with
      | nil => exact absurd rfl hne
      | cons i other => exact .nil
    case isFalse h =>
      -- paths to other keys go into one of the columns inside
      have hiff : ∀ path, (nested o cs).LeadsTo key path ↔ LeadsAmong key 0 cs path := by
        intro path
        cases path with
        | nil =>
          refine ⟨fun hpath => absurd hpath h, ?_⟩
          rintro ⟨j, rest, d, hpath, -, -⟩
          cases hpath
        | cons i path =>
          constructor
          · rintro ⟨cs', d, hcs, hd, hpath⟩
            cases hcs
            exact ⟨i, path, d, by rw [Nat.zero_add], hd, hpath⟩
          · rintro ⟨j, rest, d, hpath, hd, hrest⟩
            cases hpath
            exact ⟨cs, d, rfl, by rwa [Nat.zero_add], hrest⟩
      simp only [hiff]
      exact isLeast_pathAmong key 0 cs

theorem isLeast_pathAmong (key : ColumnKey) (i : Nat) :
    ∀ cs : List Column, IsLeast (LeadsAmong key i cs) (pathAmong key i cs)
  | [] => by
    rintro path ⟨j, rest, d, -, hd, -⟩
    cases hd
  | c :: cs => by
    have hc := isLeast_pathTo key c
    have hcs := isLeast_pathAmong key (i + 1) cs
    rw [pathAmong]
    cases hpath : c.pathTo key with
    | some path =>
      -- the key is inside the first column
      rw [hpath] at hc
      refine ⟨leadsAmong_cons_iff.mpr (Or.inl ⟨path, rfl, hc.1⟩), fun other hother hne => ?_⟩
      rcases leadsAmong_cons_iff.mp hother with ⟨rest, rfl, hrest⟩ | hlater
      · exact .cons (hc.2 rest hrest fun heq => hne (by rw [heq]))
      · exact hlater.after path
    | none =>
      -- the key is not inside the first column, so only the later ones count
      rw [hpath] at hc
      have hiff : ∀ path, LeadsAmong key i (c :: cs) path ↔ LeadsAmong key (i + 1) cs path := by
        intro path
        rw [leadsAmong_cons_iff]
        refine or_iff_right ?_
        rintro ⟨rest, -, hrest⟩
        exact hc rest hrest
      rw [Option.map_none, Option.none_or]
      cases hlater : pathAmong key (i + 1) cs with
      | none =>
        rw [hlater] at hcs
        exact fun path hp => hcs path ((hiff path).mp hp)
      | some path =>
        rw [hlater] at hcs
        exact ⟨(hiff path).mpr hcs.1, fun other hother => hcs.2 other ((hiff other).mp hother)⟩

end

end Column

/-! ### Collected positions -/

namespace Positions

open Column

mutual

/-- Collecting the columns below a path notes the first path to a key, unless it is noted already. -/
theorem get?_collect (path : List Nat) (key : ColumnKey) : ∀ (c : Column) (ps : Positions),
    (collect path c ps).get? key = (ps.get? key).or ((c.pathTo key).map (path ++ ·))
  | .scalar o t, ps => by
    rw [collect, get?_note, pathTo]
    split <;> simp
  | .nested o cs, ps => by
    rw [collect, get?_collectAll path key 0 cs, get?_note, pathTo]
    split <;> simp

theorem get?_collectAll (path : List Nat) (key : ColumnKey) (i : Nat) :
    ∀ (cs : List Column) (ps : Positions), (collectAll path i cs ps).get? key
      = (ps.get? key).or ((pathAmong key i cs).map (path ++ ·))
  | [], ps => by simp [collectAll, pathAmong]
  | c :: cs, ps => by
    rw [collectAll, get?_collectAll path key (i + 1) cs, get?_collect (path ++ [i]) key c, pathAmong]
    cases c.pathTo key <;> simp

end

end Positions

namespace Schema

theorem get?_positions (s : Schema) (key : ColumnKey) :
    s.positions.get? key = Column.pathAmong key 0 s.columns := by
  rw [positions, Positions.get?_collectAll]
  simp

theorem isLeast_get?_positions (s : Schema) (key : ColumnKey) :
    Column.IsLeast (s.LeadsTo key) (s.positions.get? key) := by
  rw [get?_positions]
  exact Column.isLeast_pathTo key (Column.nesting s.columns)

/-- A key has no position exactly when no path leads to it. -/
theorem get?_positions_eq_none_iff {s : Schema} {key : ColumnKey} :
    s.positions.get? key = none ↔ ∀ path, ¬ s.LeadsTo key path := by
  have hleast := isLeast_get?_positions s key
  cases h : s.positions.get? key with
  | none =>
    rw [h] at hleast
    exact iff_of_true rfl hleast
  | some path =>
    rw [h] at hleast
    exact iff_of_false nofun fun hnone => hnone path hleast.1

/-- The collected path of a key is the first one that leads to it. -/
theorem get?_positions_eq_some_iff {s : Schema} {key : ColumnKey} {path : List Nat} :
    s.positions.get? key = some path ↔ s.FirstPath key path := by
  have hleast := isLeast_get?_positions s key
  constructor
  · intro h
    rwa [h] at hleast
  · intro hfirst
    cases h : s.positions.get? key with
    | none =>
      rw [h] at hleast
      exact absurd hfirst.1 (hleast path)
    | some path' =>
      rw [h] at hleast
      -- two first paths precede each other unless they are the same
      by_cases heq : path' = path
      · rw [heq]
      · exact absurd (hleast.2 path hfirst.1 (Ne.symm heq))
          (List.lex_asymm (fun hlt => Nat.lt_asymm hlt) (hfirst.2 path' hleast.1 heq))

end Schema

/-! ### The keys of a schema -/

namespace Column

mutual

/-- The keys that a column carries, its own before those inside. -/
def keys : Column → List ColumnKey
  | scalar o _ => o.toList
  | nested o cs => o.toList ++ keysAll cs

/-- The keys that some columns carry, column by column. -/
def keysAll : List Column → List ColumnKey
  | [] => []
  | c :: cs => c.keys ++ keysAll cs

end

@[simp] theorem keysAll_nil : keysAll [] = [] := rfl

@[simp] theorem keysAll_cons (c : Column) (cs : List Column) :
    keysAll (c :: cs) = c.keys ++ keysAll cs := rfl

theorem keysAll_eq_flatMap (cs : List Column) : keysAll cs = cs.flatMap keys := by
  induction cs with
  | nil => rfl
  | cons c cs ih => rw [keysAll_cons, ih, List.flatMap_cons]

theorem keysAll_append (as bs : List Column) : keysAll (as ++ bs) = keysAll as ++ keysAll bs := by
  induction as with
  | nil => rfl
  | cons a as ih => simp [ih]

mutual

theorem mem_keys_iff (key : ColumnKey) :
    ∀ c : Column, key ∈ c.keys ↔ (c.pathTo key).isSome
  | .scalar o t => by
    rw [keys, pathTo]
    split <;> simp_all
  | .nested o cs => by
    rw [keys, pathTo, List.mem_append, mem_keysAll_iff key 0 cs]
    split <;> simp_all

theorem mem_keysAll_iff (key : ColumnKey) (i : Nat) :
    ∀ cs : List Column, key ∈ keysAll cs ↔ (pathAmong key i cs).isSome
  | [] => by simp [pathAmong]
  | c :: cs => by
    rw [keysAll_cons, pathAmong, List.mem_append, mem_keys_iff key c, mem_keysAll_iff key (i + 1) cs]
    simp

end

theorem mem_keysAll_of_getElem? {cs : List Column} {i : Nat} {c : Column} (hi : cs[i]? = some c)
    {key : ColumnKey} (hkey : key ∈ c.keys) : key ∈ keysAll cs := by
  rw [keysAll_eq_flatMap]
  exact List.mem_flatMap_of_mem (List.mem_of_getElem? hi) hkey

/-- A path to a key leads to one of the keys of the column. -/
theorem LeadsTo.mem_keys {key : ColumnKey} {path : List Nat} {c : Column}
    (h : c.LeadsTo key path) : key ∈ c.keys := by
  have hleast := isLeast_pathTo key c
  rw [mem_keys_iff]
  cases hpath : c.pathTo key with
  | none =>
    rw [hpath] at hleast
    exact absurd h (hleast path)
  | some _ => rfl

/-! ### Distinct keys -/

/-- A key that occurs once is inside one column only. -/
theorem eq_of_mem_keys {cs : List Column} (hnodup : (keysAll cs).Nodup) {key : ColumnKey}
    {i j : Nat} {c d : Column} (hi : cs[i]? = some c) (hj : cs[j]? = some d) (hc : key ∈ c.keys)
    (hd : key ∈ d.keys) : i = j := by
  induction cs generalizing i j with
  | nil => cases hi
  | cons first cs ih =>
    obtain ⟨-, hrest, hdisjoint⟩ := List.nodup_append.mp hnodup
    -- one of them is the first column: then the other would repeat a key of it
    cases i with
    | zero =>
      cases j with
      | zero => rfl
      | succ j =>
        cases hi
        rw [List.getElem?_cons_succ] at hj
        exact absurd rfl (hdisjoint key hc key (mem_keysAll_of_getElem? hj hd))
    | succ i =>
      cases j with
      | zero =>
        cases hj
        rw [List.getElem?_cons_succ] at hi
        exact absurd rfl (hdisjoint key hd key (mem_keysAll_of_getElem? hi hc))
      | succ j => exact congrArg (· + 1) (ih hrest hi hj)

/-- A key that occurs once inside a column is not carried by the column itself. -/
theorem LeadsTo.origin_ne {key : ColumnKey} {i : Nat} {path : List Nat} {c : Column}
    (h : c.LeadsTo key (i :: path)) (hnodup : c.keys.Nodup) : c.origin ≠ some key := by
  obtain ⟨cs, d, hcs, hd, hpath⟩ := h
  cases c with
  | scalar o t => cases hcs
  | nested o cs =>
    cases hcs
    rintro (rfl : o = some key)
    obtain ⟨-, -, hdisjoint⟩ := List.nodup_append.mp hnodup
    exact hdisjoint key List.mem_cons_self key (mem_keysAll_of_getElem? hd hpath.mem_keys) rfl

/-- One path leads to a key that occurs once. -/
theorem LeadsTo.unique {key : ColumnKey} {path path' : List Nat} {c : Column}
    (h : c.LeadsTo key path) (h' : c.LeadsTo key path') (hnodup : c.keys.Nodup) :
    path = path' := by
  induction path generalizing c path' with
  | nil =>
    cases path' with
    | nil => rfl
    | cons j path' => exact absurd h (h'.origin_ne hnodup)
  | cons i path ih =>
    cases path' with
    | nil => exact absurd h' (h.origin_ne hnodup)
    | cons j path' =>
      obtain ⟨cs, d, hcs, hd, hpath⟩ := h
      obtain ⟨cs', d', hcs', hd', hpath'⟩ := h'
      cases c with
      | scalar o t => cases hcs
      | nested o cs =>
        cases hcs
        cases hcs'
        have hinside : (keysAll cs).Nodup := (List.nodup_append.mp hnodup).2.1
        -- both paths go into the same column
        obtain rfl := eq_of_mem_keys hinside hd hd' hpath.mem_keys hpath'.mem_keys
        cases hd.symm.trans hd'
        rw [keysAll_eq_flatMap] at hinside
        have hsub : d.keys.Sublist (cs.flatMap keys) :=
          List.sublist_flatten_of_mem (List.mem_map_of_mem (List.mem_of_getElem? hd))
        rw [ih hpath hpath' (hinside.sublist hsub)]

end Column

namespace Schema

/-- The keys that the columns of a schema carry, at all levels, in pre-order. -/
def keys (s : Schema) : List ColumnKey := Column.keysAll s.columns

theorem mem_keys_iff {s : Schema} {key : ColumnKey} :
    key ∈ s.keys ↔ ∃ path, s.LeadsTo key path := by
  rw [keys, Column.mem_keysAll_iff key 0, ← get?_positions]
  cases h : s.positions.get? key with
  | none => simpa using get?_positions_eq_none_iff.mp h
  | some path => simpa using ⟨path, (get?_positions_eq_some_iff.mp h).1⟩

/-- The keys of several schemas are those of each. -/
theorem mem_keys_concat_iff {key : ColumnKey} {parts : List Schema} :
    key ∈ (concat parts).keys ↔ ∃ s ∈ parts, key ∈ s.keys := by
  induction parts with
  | nil => exact iff_of_false nofun nofun
  | cons s parts ih => simp_all [keys, Column.keysAll_append]

/-- One path leads to a key of a schema whose keys are distinct. -/
theorem LeadsTo.unique {s : Schema} {key : ColumnKey} {path path' : List Nat}
    (h : s.LeadsTo key path) (h' : s.LeadsTo key path') (hnodup : s.keys.Nodup) : path = path' :=
  Column.LeadsTo.unique h h' hnodup

end Schema

end TwigAlgebra
