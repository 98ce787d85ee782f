import TwigAlgebra.Json.Plan
import TwigAlgebra.Proofs.PatternExchange

/-!
# Plans are read as they were written

An operator is written as an alternative that holds its inputs beside its parameters, and its
schema, declared or computed, stands next to it.  The reader of a plan chooses the reader of the
parameters by the name of the alternative; that the two sides agree is proved once for the operators
with one input and once for those with two, and the plan follows by induction.

A plan comes back whole at either stage, with references that name keys and references that are
positions, but for what the nodes of its patterns remember.  That is not written, and writing what
was read gives the same value again.

## Main definitions

* `Plan.numbers` — the number constants of a plan.
* `Plan.forget`, `Query.forget` — a plan whose patterns remember nothing.

## Main results

* `Unary.exists_toJson`, `Binary.exists_toJson` — what is written for an operator, and how it is
  read.
* `Plan.ofJson?_toJson` — what is read for a plan.
* `Query.ofJson?_toJson_exact` — a plan with its stage comes back whole.
-/

namespace TwigAlgebra

open Json

/-! ### Parameters -/

@[simp] theorem Source.ofJson?_toJson (s : Source) : ofJson? s.toJson = some s := by
  have hdocuments : asList asString (list str s.documents) = some s.documents :=
    asList_list_self fun d _ => asString_str d
  simp [ofJson?, toJson, hdocuments]

@[simp] theorem AggregateFunction.ofJson?_toJson (f : AggregateFunction) :
    ofJson? f.toJson = some f := by
  cases f <;> rfl

@[simp] theorem NestedAggregation.ofJson?_toJson (a : NestedAggregation) :
    ofJson? a.toJson = some a := by
  simp [ofJson?, toJson]

theorem NestedAggregation.asOption_toJson (o : Option NestedAggregation) :
    asOption ofJson? (option toJson o) = some o :=
  asOption_option_self rfl fun a _ => a.ofJson?_toJson

@[simp] theorem ColumnRef.listOfJson?_listToJson (cs : List ColumnRef) :
    listOfJson? (listToJson cs) = some cs := asList_references cs

namespace Scan

/-- The number constants of the pattern, if there is one. -/
def numbers (s : Scan) : List Binary64 := s.pattern.toList.flatMap Pattern.numbers

/-- The scan with a pattern that remembers nothing. -/
def forget (s : Scan) : Scan := { s with pattern := s.pattern.map Pattern.forget }

/-- A scan is read as it was written, but for what its pattern remembers. -/
theorem ofJson?_toJson {s : Scan} (hs : ∀ x ∈ s.numbers, x.isFinite = true) :
    ofJson? s.toJson = some s.forget := by
  have hpattern : asOption Pattern.ofJson? (option Pattern.toJson s.pattern)
      = some (s.pattern.map Pattern.forget) := by
    refine asOption_option rfl fun p hp => Pattern.ofJson?_toJson fun x hx => hs x ?_
    exact List.mem_flatMap.mpr ⟨p, Option.mem_toList.mpr hp, hx⟩
  simp [ofJson?, toJson, hpattern, forget]

@[simp] theorem toJson_forget (s : Scan) : s.forget.toJson = s.toJson := by
  obtain ⟨id, pattern, attachDocId, source⟩ := s
  cases pattern <;> simp [forget, toJson, option]

end Scan

/-! ### Operators -/

namespace Unary

/-- The number constants of the parameters. -/
def numbers : Unary → List Binary64
  | select p => p.numbers
  | _ => []

/-- An operator with one input is written as an alternative of its own, from whose fields its
parameters are read, and its input. -/
theorem exists_toJson {op : Unary} (hop : ∀ x ∈ op.numbers, x.isFinite = true) (input : Json) :
    ∃ kind payload fs, op.toJson input = tagged kind payload ∧ kind ≠ "Scan" ∧
      kind ∉ Binary.kinds ∧ fields? kind payload = some fs ∧ ofFields? kind fs = some op ∧
      fs "input" = some input ∧ input.depth < payload.depth := by
  have hinput : ∀ fs : List (String × Json), lookup (("input", input) :: fs) "input" = some input :=
    fun fs => (lookup_cons _ _ _).trans (if_pos rfl)
  cases op <;> refine ⟨_, _, _, rfl, by decide, by decide, rfl, ?_, hinput _,
    depth_lt_obj _ List.mem_cons_self⟩
  case select p => simp [ofFields?, Predicate.ofJson?_toJson hop]
  all_goals simp [ofFields?, NestedAggregation.asOption_toJson]

end Unary

namespace Binary

/-- The number constants of the parameters. -/
def numbers : Binary → List Binary64
  | product => []
  | join p => p.numbers
  | outerJoin p => p.numbers
  | nestedJoin j => j.condition.numbers

/-- An operator with two inputs is written as an alternative of its own, from whose fields its
parameters are read, and its inputs. -/
theorem exists_toJson {op : Binary} (hop : ∀ x ∈ op.numbers, x.isFinite = true)
    (left right : Json) : ∃ kind payload fs, op.toJson left right = tagged kind payload ∧
      kind ≠ "Scan" ∧ kind ∈ kinds ∧ fields? kind payload = some fs ∧ ofFields? kind fs = some op ∧
      fs "left" = some left ∧ fs "right" = some right ∧
      left.depth < payload.depth ∧ right.depth < payload.depth := by
  have hleft : ∀ fs : List (String × Json), lookup (("left", left) :: fs) "left" = some left :=
    fun fs => (lookup_cons _ _ _).trans (if_pos rfl)
  have hright : ∀ fs : List (String × Json),
      lookup (("left", left) :: ("right", right) :: fs) "right" = some right := by
    intro fs
    have hne : "left" ≠ "right" := by decide
    rw [lookup_cons, lookup_cons, if_neg hne, if_pos rfl]
  cases op <;> refine ⟨_, _, _, rfl, by decide, by decide, rfl, ?_, hleft _, hright _,
    depth_lt_obj _ List.mem_cons_self, depth_lt_obj _ (List.mem_cons_of_mem _ List.mem_cons_self)⟩
  -- a product has no fields besides its inputs; the others have those of a condition
  case product => rfl
  all_goals
    have hcondition := Predicate.ofJson?_toJson hop
    simp [ofFields?, hcondition, NestedAggregation.asOption_toJson]

end Binary

/-! ### Plans -/

namespace Plan

/-- The number constants of the operators. -/
def numbers : Plan → List Binary64
  | scan s _ => s.numbers
  | unary op input _ => op.numbers ++ input.numbers
  | binary op left right _ => op.numbers ++ (left.numbers ++ right.numbers)

/-- The plan with patterns that remember nothing. -/
def forget : Plan → Plan
  | scan s d => scan s.forget d
  | unary op input d => unary op input.forget d
  | binary op left right d => binary op left.forget right.forget d

@[simp] theorem toJson_forget (p : Plan) : p.forget.toJson = p.toJson := by
  induction p with
  | scan s d => rw [forget, toJson, toJson, s.toJson_forget]
  | unary op input d ih => rw [forget, toJson, toJson, ih]
  | binary op left right d ihl ihr => rw [forget, toJson, toJson, ihl, ihr]

theorem asOption_schema (d : Option Schema) :
    asOption Schema.ofJson? (option Schema.toJson d) = some d :=
  asOption_option_self rfl fun s _ => s.ofJson?_toJson

/-- What an alternative holds is less deep than the alternative beside a schema. -/
theorem depth_lt_withSchema (kind : String) (payload : Json) (d : Option Schema) :
    payload.depth < (withSchema (tagged kind payload) d).depth :=
  Nat.lt_trans (depth_lt_tagged kind payload) (depth_lt_obj "op" List.mem_cons_self)

/-- A plan is read as it was written, but for what its patterns remember, by a reader that goes deep
enough. -/
theorem ofJsonAt_toJson {p : Plan} (hp : ∀ x ∈ p.numbers, x.isFinite = true) {fuel : Nat}
    (hfuel : p.toJson.depth ≤ fuel) : ofJsonAt fuel p.toJson = some p.forget := by
  induction p generalizing fuel with
  | scan s d =>
    have hdepth := depth_lt_withSchema "Scan" s.toJson d
    -- the inputs lie deeper in the value than the operator, so that the fuel lasts for them
    rw [toJson] at hfuel ⊢
    obtain ⟨fuel, rfl⟩ : ∃ k, fuel = k + 1 := ⟨fuel - 1, by omega⟩
    have hscan := Scan.ofJson?_toJson hp
    simp [ofJsonAt, withSchema, asOption_schema, lookup_cons, hscan, forget]
  | unary op input d ih =>
    have hop : ∀ x ∈ op.numbers, x.isFinite = true := fun x hx => hp x (List.mem_append_left _ hx)
    obtain ⟨kind, payload, fs, hwritten, hscan, hbinary, hfields, hparameters, hinput, hlt⟩ :=
      Unary.exists_toJson hop input.toJson
    have hdepth := depth_lt_withSchema kind payload d
    rw [toJson, hwritten] at hfuel ⊢
    obtain ⟨fuel, rfl⟩ : ∃ k, fuel = k + 1 := ⟨fuel - 1, by omega⟩
    have hread : ofJsonAt fuel input.toJson = some input.forget :=
      ih (fun x hx => hp x (List.mem_append_right _ hx)) (by omega)
    simp [ofJsonAt, withSchema, asOption_schema, lookup_cons, hscan, hbinary, hfields, hparameters,
      Fields.get, hinput, hread, forget]
  | binary op left right d ihl ihr =>
    have hop : ∀ x ∈ op.numbers, x.isFinite = true := fun x hx => hp x (List.mem_append_left _ hx)
    have hinputs : ∀ x ∈ left.numbers ++ right.numbers, x.isFinite = true := fun x hx =>
      hp x (List.mem_append_right _ hx)
    obtain ⟨kind, payload, fs, hwritten, hscan, hbinary, hfields, hparameters, hleft, hright, hltl,
      hltr⟩ := Binary.exists_toJson hop left.toJson right.toJson
    have hdepth := depth_lt_withSchema kind payload d
    rw [toJson, hwritten] at hfuel ⊢
    obtain ⟨fuel, rfl⟩ : ∃ k, fuel = k + 1 := ⟨fuel - 1, by omega⟩
    have hreadl : ofJsonAt fuel left.toJson = some left.forget :=
      ihl (fun x hx => hinputs x (List.mem_append_left _ hx)) (by omega)
    have hreadr : ofJsonAt fuel right.toJson = some right.forget :=
      ihr (fun x hx => hinputs x (List.mem_append_right _ hx)) (by omega)
    simp [ofJsonAt, withSchema, asOption_schema, lookup_cons, hscan, hbinary, hfields, hparameters,
      Fields.get, hleft, hright, hreadl, hreadr, forget]

/-- A plan is read as it was written, but for what its patterns remember. -/
theorem ofJson?_toJson {p : Plan} (hp : ∀ x ∈ p.numbers, x.isFinite = true) :
    ofJson? p.toJson = some p.forget :=
  ofJsonAt_toJson hp (Nat.le_refl _)

end Plan

@[simp] theorem Stage.ofJson?_toJson (s : Stage) : ofJson? s.toJson = some s := by
  cases s <;> rfl

namespace Query

/-- The plan with patterns that remember nothing, at the same stage. -/
def forget (q : Query) : Query := ⟨q.root.forget, q.stage⟩

/-- A plan whose numbers are finite comes back whole, at either stage, but for what the nodes of its
patterns remember; and what came back is written as before. -/
theorem ofJson?_toJson_exact {q : Query} (hq : ∀ x ∈ q.root.numbers, x.isFinite = true) :
    ofJson? q.toJson = some q.forget ∧ q.forget.toJson = q.toJson := by
  constructor
  · have hroot := Plan.ofJson?_toJson hq
    simp [ofJson?, toJson, hroot, forget]
  · unfold forget toJson
    rw [q.root.toJson_forget]

/-- Books that are rated above three and a half, with their reviews.  The price was taken off the
pattern of the books, and one of its nodes remembers an answer. -/
def ratedBooks : Query where
  root := .unary
    (.construct (.node (.element "books") [.node (.path [.resolved 0, .resolved 1]) []]))
    (.binary (.nestedJoin ⟨⟨[[⟨.resolved 0, .column (.symbolic (.docId ⟨1⟩)), .equal⟩], []]⟩,
        .resolved 0, [], some ⟨.symbolic (.document ⟨1⟩), .count⟩⟩)
      (.unary
        (.select ⟨[[⟨.symbolic (.var ⟨0⟩), .literal (.number ⟨0x400C000000000000⟩), .greater⟩]]⟩)
        (.scan ⟨⟨0⟩, some ⟨"books", #[
            { Node.make ⟨0⟩ "" "book" with edges := [⟨⟨true, false, true⟩, 2⟩] },
            { Node.make ⟨1⟩ "" "price" with
              test := some ⟨.less, .number ⟨0x4024000000000000⟩⟩, parent := some 7 },
            { Node.make ⟨2⟩ "" "rating" with
              parent := some 0, stores := ⟨false, false, true, false⟩,
              vars := [⟨⟨0⟩, "r", .value, some ⟨2⟩⟩], topMemo := some true }], 0⟩, true,
          ⟨"books", []⟩⟩ none) none)
      (.scan ⟨⟨1⟩, none, true, ⟨"reviews", ["a.xml"]⟩⟩ (some ⟨[.carrying (.docId ⟨1⟩) .id]⟩))
      (some ⟨[.carrying (.docId ⟨0⟩) .id, .nesting [.carrying (.document ⟨1⟩) .xml]]⟩))
    none
  stage := .symbolic

/-- The theorem at a plan that is not quite the same when it is read: the remembered answer is
lost. -/
theorem ofJson?_toJson_exact_ratedBooks :
    (∀ x ∈ ratedBooks.root.numbers, x.isFinite = true) ∧ ratedBooks.root.numbers.length = 2 ∧
      ofJson? ratedBooks.toJson = some ratedBooks.forget ∧
      ratedBooks.forget.toJson = ratedBooks.toJson ∧ ratedBooks.forget ≠ ratedBooks := by
  have hfinite : ∀ x ∈ ratedBooks.root.numbers, x.isFinite = true := by decide
  obtain ⟨hread, hwritten⟩ := ofJson?_toJson_exact hfinite
  exact ⟨hfinite, by decide, hread, hwritten, by decide +kernel⟩

end Query

end TwigAlgebra
