import TwigAlgebra.Json.Pattern
import TwigAlgebra.Proofs.Edits
import TwigAlgebra.Proofs.Exchange

/-!
# Patterns are read as they were written

A pattern is exchanged as an arena: every slot is written, whether the root leads to it or not, and
handles are written as they are.  So nothing has to be found again when it is read, and no property
of the pattern matters, neither that it is a tree nor that its handles lead to slots.  What a node
remembers is not written, and read nodes remember nothing.

## Main definitions

* `Node.numbers`, `Pattern.numbers` — the number constants of the tests.

## Main results

* `Node.ofJson?_toJson`, `Pattern.ofJson?_toJson` — what is read.
* `Pattern.toJson_forget` — what nodes remember makes no difference to what is written.
-/

namespace TwigAlgebra

open Json

@[simp] theorem VarKind.ofJson?_toJson (k : VarKind) : ofJson? k.toJson = some k := by
  cases k <;> rfl

@[simp] theorem Variable.ofJson?_toJson (v : Variable) : ofJson? v.toJson = some v := by
  obtain ⟨id, name, kind, node⟩ := v
  have hnode : asOption asWord (option (fun c : Code => word c.val) node)
      = some (node.map Code.val) := asOption_option rfl fun c _ => asWord_word c.val
  cases node <;> simp [ofJson?, toJson, hnode]

@[simp] theorem Stores.ofJson?_toJson (s : Stores) : ofJson? s.toJson = some s := by
  simp [ofJson?, toJson]

@[simp] theorem Requires.ofJson?_toJson (r : Requires) : ofJson? r.toJson = some r := by
  simp [ofJson?, toJson]

@[simp] theorem IdKinds.ofJson?_toJson (k : IdKinds) : ofJson? k.toJson = some k := by
  simp [ofJson?, toJson]

@[simp] theorem Edge.ofJson?_toJson (e : Edge) : ofJson? e.toJson = some e := by
  simp [ofJson?, toJson]

theorem ValueTest.ofJson?_toJson {t : ValueTest} (ht : ∀ x ∈ t.value.numbers, x.isFinite = true) :
    ofJson? t.toJson = some t := by
  simp [ofJson?, toJson, Literal.ofJson?_toJson ht]

namespace Node

/-- The number that the value is tested against, as a list. -/
def numbers (n : Node) : List Binary64 := n.test.toList.flatMap (·.value.numbers)

/-- A node is read as it was written, but for what it remembers. -/
theorem ofJson?_toJson {n : Node} (hn : ∀ x ∈ n.numbers, x.isFinite = true) :
    ofJson? n.toJson = some n.bare := by
  have htest : asOption ValueTest.ofJson? (option ValueTest.toJson n.test) = some n.test := by
    refine asOption_option_self rfl fun t ht => ValueTest.ofJson?_toJson fun x hx => hn x ?_
    exact List.mem_flatMap.mpr ⟨t, Option.mem_toList.mpr ht, hx⟩
  have hvars : asList Variable.ofJson? (list Variable.toJson n.vars) = some n.vars :=
    asList_list_self fun v _ => v.ofJson?_toJson
  have hparent : asOption asNat (option nat n.parent) = some n.parent :=
    asOption_option_self rfl fun i _ => asNat_nat i
  have hedges : asList Edge.ofJson? (list Edge.toJson n.edges) = some n.edges :=
    asList_list_self fun e _ => e.ofJson?_toJson
  -- every field answers its value, and then the steps of the reader are carried out
  unfold ofJson? toJson
  rw [record_obj, Option.bind_eq_bind, Option.bind_some]
  simp only [get_lookup_cons, optional_lookup_cons, String.reduceEq, ↓reduceIte, asWord_word,
    asString_str, asBool_bool, Stores.ofJson?_toJson, Requires.ofJson?_toJson,
    IdKinds.ofJson?_toJson, htest, hvars, hparent, hedges]
  rfl

/-- What a node remembers is not written. -/
@[simp] theorem toJson_bare (n : Node) : n.bare.toJson = n.toJson := rfl

end Node

namespace Pattern

/-- The number constants of the tests, slot by slot. -/
def numbers (p : Pattern) : List Binary64 := p.nodes.toList.flatMap Node.numbers

/-- A pattern is read with all its slots, but for what they remember. -/
theorem ofJson?_toJson {p : Pattern} (hp : ∀ x ∈ p.numbers, x.isFinite = true) :
    ofJson? p.toJson = some p.forget := by
  have hnodes : asList Node.ofJson? (list Node.toJson p.nodes.toList)
      = some (p.nodes.toList.map Node.bare) := by
    refine asList_list fun n hn => Node.ofJson?_toJson fun x hx => hp x ?_
    exact List.mem_flatMap.mpr ⟨n, hn, hx⟩
  have hforget :
      (⟨p.name, (p.nodes.toList.map Node.bare).toArray, p.root⟩ : Pattern) = p.forget := by
    rw [← Array.toList_map]
    rfl
  unfold ofJson? toJson
  simp [hnodes, hforget]

/-- What nodes remember makes no difference to what is written. -/
@[simp] theorem toJson_forget (p : Pattern) : p.forget.toJson = p.toJson := by
  have hnodes : list Node.toJson p.forget.nodes.toList = list Node.toJson p.nodes.toList := by
    unfold forget list
    rw [Array.toList_map, List.map_map]
    exact congrArg arr (List.map_congr_left fun n _ => n.toJson_bare)
  unfold toJson
  rw [hnodes]
  rfl

end Pattern

end TwigAlgebra
