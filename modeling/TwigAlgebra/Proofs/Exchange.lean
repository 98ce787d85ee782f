import TwigAlgebra.Json.Predicate
import TwigAlgebra.Proofs.Lists

/-!
# Values are read as they were written

Every type that is exchanged has a writer and a reader, which know nothing of each other.  The
reader of a type answers what the writer was given, and this is proved from the smallest types up:
what is read for a field depends on the reader of that field alone.  Readers of recursive types go
no deeper than the value, and what is written for a part is less deep than what is written for the
whole.

A double is the only thing that may be lost: the infinities, and what is no number, are written as
nothing.

## Main definitions

* `Literal.numbers`, `Predicate.numbers` — the number constants of a predicate.

## Main results

* `Json.asOption_option`, `Json.asList_list` — optional values and lists.
* `Json.get_lookup_cons`, `Json.optional_lookup_cons` — the fields of a record.
* `Schema.ofJson?_toJson`, `Predicate.ofJson?_toJson`,
  `Template.ofPatternJson?_patternToJson` — what operators hold.
-/

namespace TwigAlgebra

open Json

namespace Json

/-! ### Plain values -/

@[simp] theorem asNat_nat (n : Nat) : (nat n).asNat = some n := rfl

@[simp] theorem asWord_word (w : UInt32) : (word w).asWord = some w := by
  show (if w.toNat < UInt32.size then some (UInt32.ofNat w.toNat) else none) = some w
  rw [if_pos w.toNat_lt, UInt32.ofNat_toNat]

@[simp] theorem asBool_bool (b : Bool) : (bool b).asBool = some b := rfl

@[simp] theorem asString_str (s : String) : (str s).asString = some s := rfl

theorem asDouble_double {x : Binary64} (hx : x.isFinite = true) : (double x).asDouble = some x := by
  unfold double
  rw [if_pos hx]
  rfl

variable {α β : Type} {encode : α → Json} {decode : Json → Option β} {g : α → β}

/-- A value that may be missing is read as it was written if its reader refuses nothing at all. -/
theorem asOption_option (hnull : decode null = none) {o : Option α}
    (ho : ∀ a, o = some a → decode (encode a) = some (g a)) :
    asOption decode (option encode o) = some (o.map g) := by
  cases o with
  | none => rfl
  | some a =>
    have ha := ho a rfl
    rw [option, Option.map_some]
    cases hj : encode a with
    -- a value that is written as null would be read as a missing one
    | null =>
      rw [hj, hnull] at ha
      cases ha
    | _ =>
      rw [asOption, ← hj, ha, Option.map_some]
      simp

theorem asList_list {as : List α} (ha : ∀ a ∈ as, decode (encode a) = some (g a)) :
    asList decode (list encode as) = some (as.map g) := List.mapM_map_of_forall ha

/-- Lists of values that are read as they were written. -/
theorem asList_list_self {decode : Json → Option α} {as : List α}
    (ha : ∀ a ∈ as, decode (encode a) = some a) : asList decode (list encode as) = some as := by
  simpa using asList_list (g := id) ha

theorem asOption_option_self {decode : Json → Option α} (hnull : decode null = none) {o : Option α}
    (ho : ∀ a, o = some a → decode (encode a) = some a) :
    asOption decode (option encode o) = some o := by
  simpa using asOption_option (g := id) hnull ho

/-! ### Records and alternatives -/

@[simp] theorem variant_tagged (name : String) (j : Json) :
    (tagged name j).variant = some (name, some j) := rfl

@[simp] theorem record_obj (names : List String) (fs : List (String × Json)) :
    (obj fs).record names = some (lookup fs) := rfl

@[simp] theorem fields_obj (fs : List (String × Json)) : (obj fs).fields = some (lookup fs) := rfl

@[simp] theorem get_lookup_cons (f : String × Json) (fs : List (String × Json)) (name : String)
    (decode : Json → Option β) : Fields.get (lookup (f :: fs)) name decode
      = if f.1 = name then decode f.2 else Fields.get (lookup fs) name decode := by
  unfold Fields.get
  rw [lookup_cons]
  split <;> rfl

@[simp] theorem optional_lookup_cons (f : String × Json) (fs : List (String × Json)) (name : String)
    (decode : Json → Option β) : Fields.optional (lookup (f :: fs)) name decode
      = if f.1 = name then asOption decode f.2 else Fields.optional (lookup fs) name decode := by
  unfold Fields.optional
  rw [lookup_cons]
  by_cases h : f.1 = name
  · rw [if_pos h, if_pos h]
  · rw [if_neg h, if_neg h]

/-! ### How deep a value is -/

theorem depth_le_depthAll {j : Json} {items : List Json} (hj : j ∈ items) :
    j.depth ≤ depthAll items := by
  induction items with
  | nil => cases hj
  | cons i items ih =>
    rw [depthAll]
    rcases List.mem_cons.mp hj with rfl | hj
    · omega
    · have := ih hj
      omega

theorem depth_le_depthFields {f : String × Json} {fs : List (String × Json)} (hf : f ∈ fs) :
    f.2.depth ≤ depthFields fs := by
  induction fs with
  | nil => cases hf
  | cons f' fs ih =>
    obtain ⟨name, j⟩ := f'
    rw [depthFields]
    rcases List.mem_cons.mp hf with rfl | hf
    · exact Nat.le_max_left _ _
    · have := ih hf
      omega

/-- What a list holds is less deep than the list. -/
theorem depth_lt_arr {j : Json} {items : List Json} (hj : j ∈ items) :
    j.depth < (arr items).depth := by
  rw [depth]
  exact Nat.lt_succ_of_le (depth_le_depthAll hj)

/-- What a record holds is less deep than the record. -/
theorem depth_lt_obj (name : String) {j : Json} {fs : List (String × Json)}
    (hj : (name, j) ∈ fs) : j.depth < (obj fs).depth := by
  rw [depth]
  exact Nat.lt_succ_of_le (depth_le_depthFields hj)

theorem depth_lt_tagged (name : String) (j : Json) : j.depth < (tagged name j).depth :=
  depth_lt_obj name List.mem_cons_self

end Json

/-! ### References and schemas -/

@[simp] theorem ColumnKey.ofJson?_toJson (k : ColumnKey) : ofJson? k.toJson = some k := by
  cases k <;> simp [ofJson?, toJson]

@[simp] theorem ColumnRef.ofJson?_toJson (c : ColumnRef) : ofJson? c.toJson = some c := by
  cases c <;> simp [ofJson?, toJson]

@[simp] theorem ScalarType.ofJson?_toJson (t : ScalarType) : ofJson? t.toJson = some t := by
  cases t <;> rfl

theorem Column.toJsonAll_eq_map (cs : List Column) : toJsonAll cs = cs.map toJson := by
  induction cs with
  | nil => rfl
  | cons c cs ih => rw [toJsonAll, ih, List.map_cons]

theorem Schema.toJson_eq (s : Schema) :
    s.toJson = obj [("columns", list Column.toJson s.columns)] := by
  unfold toJson list
  rw [Column.toJsonAll_eq_map]

/-- A nested column is written with the schema of its tuples. -/
theorem Column.toJson_nested (o : Option ColumnKey) (cs : List Column) :
    (nested o cs).toJson = obj [("origin", option ColumnKey.toJson o),
      ("kind", tagged "Nested" (Schema.mk cs).toJson)] := by
  rw [toJson]
  rfl

theorem Column.depth_lt (o : Option ColumnKey) (cs : List Column) :
    (Schema.mk cs).toJson.depth < (nested o cs).toJson.depth := by
  rw [toJson_nested]
  refine Nat.lt_trans (depth_lt_tagged "Nested" _) (depth_lt_obj "kind" ?_)
  exact List.mem_cons_of_mem _ List.mem_cons_self

theorem Schema.depth_lt {s : Schema} {c : Column} (hc : c ∈ s.columns) :
    c.toJson.depth < s.toJson.depth := by
  have hlist : c.toJson.depth < (list Column.toJson s.columns).depth :=
    depth_lt_arr (List.mem_map_of_mem hc)
  rw [toJson_eq]
  exact Nat.lt_trans hlist (depth_lt_obj "columns" List.mem_cons_self)

/-- A schema is read as it was written by whatever reads its columns so. -/
theorem Schema.get_columns_toJson {s : Schema} {read : Json → Option Column}
    (hread : ∀ c ∈ s.columns, read c.toJson = some c) :
    (s.toJson.record Column.schemaFieldNames).bind (·.get "columns" (asList read))
      = some s.columns := by
  rw [toJson_eq]
  simpa using asList_list_self hread

theorem Column.asOption_origin (o : Option ColumnKey) :
    asOption ColumnKey.ofJson? (option ColumnKey.toJson o) = some o :=
  asOption_option_self rfl fun k _ => k.ofJson?_toJson

/-- A column is read as it was written by a reader that goes deep enough. -/
theorem Column.ofJsonAt_toJson {fuel : Nat} {c : Column} (hfuel : c.toJson.depth ≤ fuel) :
    ofJsonAt fuel c.toJson = some c := by
  induction fuel generalizing c with
  | zero => cases c <;> simp [toJson, depth] at hfuel
  | succ fuel ih =>
    cases c with
    | scalar o t => simp [ofJsonAt, toJson, asOption_origin, lookup_cons]
    | nested o cs =>
      have hschema := depth_lt o cs
      -- what is written inside is less deep, so that the rest of the fuel is enough
      have hcolumns := Schema.get_columns_toJson fun c (hc : c ∈ cs) => by
        have hcolumn := Schema.depth_lt hc
        exact ih (by omega)
      obtain ⟨fs, hfs, hcolumns⟩ := Option.bind_eq_some_iff.mp hcolumns
      rw [toJson_nested]
      simp [ofJsonAt, asOption_origin, lookup_cons, hfs, hcolumns]

/-- A schema is read as it was written, at every level. -/
@[simp] theorem Schema.ofJson?_toJson (s : Schema) : ofJson? s.toJson = some s := by
  have hcolumns := get_columns_toJson (s := s) fun c hc =>
    Column.ofJsonAt_toJson (Nat.le_of_lt (depth_lt hc))
  obtain ⟨fs, hfs, hcolumns⟩ := Option.bind_eq_some_iff.mp hcolumns
  simp [ofJson?, hfs, hcolumns]

/-! ### Predicates -/

@[simp] theorem Comparison.ofJson?_toJson (c : Comparison) : ofJson? c.toJson = some c := by
  cases c <;> rfl

/-- The number that a constant is, as a list. -/
def Literal.numbers : Literal → List Binary64
  | string _ => []
  | number x => [x]

/-- The number constants of a predicate, from left to right. -/
def Predicate.numbers (p : Predicate) : List Binary64 :=
  p.clauses.flatMap fun cs => cs.flatMap fun c =>
    match c.right with
    | .column _ => []
    | .literal l => l.numbers

/-- A constant is read as it was written if it is no infinity and no number that is none. -/
theorem Literal.ofJson?_toJson {l : Literal} (hl : ∀ x ∈ l.numbers, x.isFinite = true) :
    ofJson? l.toJson = some l := by
  cases l with
  | string s => simp [ofJson?, toJson]
  | number x =>
    have hx : x.isFinite = true := hl x (List.mem_singleton.mpr rfl)
    simp [ofJson?, toJson, asDouble_double hx]

theorem Condition.ofJson?_toJson {c : Condition}
    (hc : ∀ l, c.right = .literal l → ∀ x ∈ l.numbers, x.isFinite = true) :
    ofJson? c.toJson = some c := by
  obtain ⟨left, right, comparison⟩ := c
  cases right with
  | column r => simp [ofJson?, toJson, Operand.ofJson?, Operand.toJson]
  | literal l =>
    have hl := Literal.ofJson?_toJson (hc l rfl)
    simp [ofJson?, toJson, Operand.ofJson?, Operand.toJson, hl]

/-- A predicate is read as it was written if its numbers are finite. -/
theorem Predicate.ofJson?_toJson {p : Predicate} (hp : ∀ x ∈ p.numbers, x.isFinite = true) :
    ofJson? p.toJson = some p := by
  have hclauses : asList (asList Condition.ofJson?) p.toJson = some p.clauses := by
    refine asList_list_self fun cs hcs => asList_list_self fun c hc => ?_
    refine Condition.ofJson?_toJson fun l hl x hx => hp x ?_
    refine List.mem_flatMap.mpr ⟨cs, hcs, List.mem_flatMap.mpr ⟨c, hc, ?_⟩⟩
    rw [hl]
    exact hx
  unfold ofJson?
  rw [hclauses]
  rfl

/-! ### Templates -/

theorem asList_references (cs : List ColumnRef) :
    asList ColumnRef.ofJson? (list ColumnRef.toJson cs) = some cs :=
  asList_list_self fun c _ => c.ofJson?_toJson

@[simp] theorem Content.ofJson?_toJson (c : Content) : ofJson? c.toJson = some c := by
  cases c <;> simp [ofJson?, toJson, asList_references]

namespace Template

theorem toJsonAll_eq_map (ts : List Template) : toJsonAll ts = ts.map toJson := by
  induction ts with
  | nil => rfl
  | cons t ts ih => rw [toJsonAll, ih, List.map_cons]

theorem toJson_node (c : Content) (ts : List Template) :
    (node c ts).toJson = obj [("content", c.toJson), ("children", list toJson ts)] := by
  unfold toJson list
  rw [toJsonAll_eq_map]

theorem depth_lt {c : Content} {t : Template} {ts : List Template} (ht : t ∈ ts) :
    t.toJson.depth < (node c ts).toJson.depth := by
  have hlist : t.toJson.depth < (list toJson ts).depth := depth_lt_arr (List.mem_map_of_mem ht)
  rw [toJson_node]
  refine Nat.lt_trans hlist (depth_lt_obj "children" ?_)
  exact List.mem_cons_of_mem _ List.mem_cons_self

/-- A template is read as it was written by a reader that goes deep enough. -/
theorem ofJsonAt_toJson {fuel : Nat} {t : Template} (hfuel : t.toJson.depth ≤ fuel) :
    ofJsonAt fuel t.toJson = some t := by
  induction fuel generalizing t with
  | zero =>
    cases t
    simp [toJson, depth] at hfuel
  | succ fuel ih =>
    obtain ⟨c, ts⟩ := t
    have hchildren : asList (ofJsonAt fuel) (list toJson ts) = some ts := by
      refine asList_list_self fun t ht => ?_
      have hchild := depth_lt (c := c) ht
      exact ih (by omega)
    rw [toJson_node]
    simp [ofJsonAt, hchildren]

@[simp] theorem ofPatternJson?_patternToJson (t : Template) :
    ofPatternJson? t.patternToJson = some t := by
  have ht : ofJson? t.toJson = some t := ofJsonAt_toJson (Nat.le_refl _)
  simp [ofPatternJson?, patternToJson, ht]

end Template

end TwigAlgebra
