import Mathlib.Data.List.Infix
import TwigAlgebra.Pattern.Render
import TwigAlgebra.Proofs.Lists

/-!
# What a full label tells

The full label of a node is a row of marks without separators.  It is read from the left: the marks of
the kind, the name up to the parenthesis, the code, and then what is stored and required and the test.
Each stored item has a mark of its own, but a requirement is marked by the same letter, whatever is
required.  Where no other mark stands between two requirements, they run together and are only
counted; and a node that selects on nothing shows an asterisk, like one that selects on the asterisk.
A label therefore tells the marks of a node, and the signature only if the marks do.

## Main definitions

* `Node.marks` — what a full label tells.
* `Node.signature` — what a full label is to tell: the code and every flag.
* `Node.Plain` — names and constants that do not hold delimiters.
* `Node.Legible` — the marks tell the requirements and the selection.

## Main results

* `Node.full_append_inj` — a label tells the marks, also in front of other text.
* `Node.marks_eq_iff` — the marks tell the signatures of legible nodes.
-/

namespace TwigAlgebra

/-! ### Reading from the left -/

/-- The characters if `b` holds, otherwise none. -/
def markChars (b : Bool) (s : List Char) : List Char := if b then s else []

@[simp] theorem markChars_true (s : List Char) : markChars true s = s := rfl

@[simp] theorem markChars_false (s : List Char) : markChars false s = [] := rfl

theorem toList_mark (b : Bool) (s : String) : (mark b s).toList = markChars b s.toList := by
  cases b <;> rfl

/-- A mark is read if what follows does not begin with it. -/
theorem markChars_append_inj {x y s : List Char} {b b' : Bool} (hx : ¬ s <+: x) (hy : ¬ s <+: y) :
    markChars b s ++ x = markChars b' s ++ y ↔ b = b' ∧ x = y := by
  cases b <;> cases b' <;> simp only [markChars_true, markChars_false, List.nil_append,
    List.append_right_inj, true_and, reduceCtorEq, false_and, iff_false]
  · rintro rfl
    exact hx (List.prefix_append _ _)
  · rintro rfl
    exact hy (List.prefix_append _ _)

/-! ### Numbers and constants -/

theorem Code.isDigit_of_mem_text {code : Code} {c : Char} (hc : c ∈ code.text.toList) :
    c.isDigit = true := by
  rw [Code.text, Nat.toString_eq_ofList_toDigits, String.toList_ofList] at hc
  exact Nat.isDigit_of_mem_toDigits (by decide) (by decide) hc

theorem Code.text_inj {a b : Code} : a.text.toList = b.text.toList ↔ a = b := by
  refine ⟨fun h => ?_, fun h => h ▸ rfl⟩
  rw [Code.text, Code.text, Nat.toString_eq_ofList_toDigits, Nat.toString_eq_ofList_toDigits,
    String.toList_ofList, String.toList_ofList] at h
  have hvalue := congrArg (fun ds => Nat.ofDigitChars 10 ds 0) h
  simp only [Nat.ofDigitChars_toDigits (by decide : 1 < 10) (by decide : 10 ≤ 10)] at hvalue
  exact congrArg Code.mk (UInt32.toNat_inj.mp hvalue)

/-- The characters of written numbers: digits, a point, a sign and the letters of the values that are
not finite. -/
def Binary64.Numeral (c : Char) : Prop := c.isDigit = true ∨ c ∈ ['.', '-', 'N', 'a', 'i', 'n', 'f']

namespace Binary64

variable {c : Char}

theorem numeral_of_mem_positional {d : Nat} {k : Int} (hc : c ∈ (positional d k).toList) :
    Numeral c := by
  have hdigit : ∀ c ∈ Nat.toDigits 10 d, Numeral c := fun c hc =>
    Or.inl (Nat.isDigit_of_mem_toDigits (by decide) (by decide) hc)
  have hzero : ∀ i, ∀ c ∈ List.replicate i '0', Numeral c := by
    intro i c hc
    rw [List.eq_of_mem_replicate hc]
    exact Or.inl rfl
  have hpoint : Numeral '.' := Or.inr List.mem_cons_self
  unfold positional at hc
  dsimp only at hc
  split at hc
  · -- no fraction: the digits, and zeros up to the point
    rw [String.toList_ofList, List.mem_append] at hc
    exact hc.elim (hdigit c) (hzero _ c)
  split at hc <;> simp only [String.toList_append, String.toList_ofList, List.mem_append] at hc
  · -- the point between the digits
    rcases hc with (hc | hc) | hc
    · exact hdigit c (List.mem_of_mem_take hc)
    · exact List.mem_singleton.mp hc ▸ hpoint
    · exact hdigit c (List.mem_of_mem_drop hc)
  · -- the point before all digits
    rcases hc with hc | hc | hc
    · rcases List.mem_cons.mp hc with rfl | hc
      · exact Or.inl rfl
      · exact List.mem_singleton.mp hc ▸ hpoint
    · exact hzero _ c hc
    · exact hdigit c hc

theorem numeral_of_mem_text {x : Binary64} (hc : c ∈ x.text.toList) : Numeral c := by
  have hword : ∀ s : List Char, s ⊆ ['0', '.', '-', 'N', 'a', 'i', 'n', 'f'] → c ∈ s → Numeral c := by
    intro s hs hcs
    rcases List.mem_cons.mp (hs hcs) with rfl | hcs
    · exact Or.inl rfl
    · exact Or.inr hcs
  have hsize : ∀ {y z : Prop} [Decidable y] [Decidable z] {d : Nat} {k : Int},
      c ∈ (if y then "inf" else if z then "0" else positional d k).toList → Numeral c := by
    intro y z _ _ d k h
    split at h
    · exact hword _ (by decide) h
    split at h
    · exact hword _ (by decide) h
    · exact numeral_of_mem_positional h
  unfold text at hc
  split at hc
  · exact hword _ (by decide) hc
  dsimp only at hc
  split at hc
  · rw [String.toList_append, List.mem_append] at hc
    exact hc.elim (hword _ (by decide)) hsize
  · exact hsize hc

end Binary64

/-- A text without braces, or a number. -/
def Literal.Plain : Literal → Prop
  | .string s => '\x7d' ∉ s.toList
  | .number _ => True

instance : DecidablePred Literal.Plain
  | .string s => inferInstanceAs (Decidable ('\x7d' ∉ s.toList))
  | .number _ => inferInstanceAs (Decidable True)

theorem Literal.Plain.not_mem_text {v : Literal} (hv : v.Plain) : '\x7d' ∉ v.text.toList := by
  cases v with
  | string s =>
    have hs : '\x7d' ∉ s.toList := hv
    simp [text, hs]
  | number x =>
    intro hc
    rcases Binary64.numeral_of_mem_text hc with hdigit | hmem
    · exact absurd hdigit (by decide)
    · exact absurd hmem (by decide)

/-- A number that is written out, or the first character of a text in quotes, is no part of a
comparison. -/
theorem Literal.not_equals_isPrefix (v : Literal) : ¬ ['='] <+: v.text.toList := by
  rintro ⟨rest, hrest⟩
  cases v with
  | string s => simp [text] at hrest
  | number x =>
    have hmem : '=' ∈ x.text.toList := by
      rw [show x.text.toList = _ from hrest.symm]
      exact List.mem_cons_self
    rcases Binary64.numeral_of_mem_text hmem with hdigit | hmem
    · exact absurd hdigit (by decide)
    · exact absurd hmem (by decide)

/-- The comparison is read before a constant. -/
theorem Comparison.symbol_append_inj {a b : Comparison} {x y : List Char} (hx : ¬ ['='] <+: x)
    (hy : ¬ ['='] <+: y) :
    a.symbol.toList ++ x = b.symbol.toList ++ y ↔ a = b ∧ x = y := by
  have hx' : ∀ z, x ≠ '=' :: z := fun z h => hx ⟨z, h.symm⟩
  have hy' : ∀ z, '=' :: z ≠ y := fun z h => hy ⟨z, h⟩
  cases a <;> cases b <;> simp [symbol, hx', hy']

/-! ### Names -/

/-- A name without the delimiters of a label: the asterisk is one, and every name of letters and
digits. -/
def PlainName (s : String) : Prop := ∀ c ∈ s.toList, c ∉ ['~', '@', ':', '(']

instance : DecidablePred PlainName := fun s =>
  List.decidableBAll (fun c => c ∉ ['~', '@', ':', '(']) s.toList

/-! ### Marks and signatures -/

/-- What a full label is to tell: the code and every flag of the node, its test, and the name that it
selects, if it selects one. -/
structure Signature where
  /-- The code. -/
  code : Code
  /-- The namespace and the tag, if the node selects on them. -/
  name : Option (String × String)
  /-- The node matches an attribute. -/
  isAttribute : Bool
  /-- The node is virtual. -/
  isVirtual : Bool
  /-- What is stored. -/
  stores : Stores
  /-- What is required. -/
  requires : Requires
  /-- The comparison and the written constant of the test. -/
  test : Option (Comparison × String)
  deriving DecidableEq, Repr

/-- What a full label tells. -/
structure Marks where
  /-- The code. -/
  code : Code
  /-- The namespace and the tag; a node that selects on nothing shows an asterisk. -/
  name : String × String
  /-- The node matches an attribute. -/
  isAttribute : Bool
  /-- The node is virtual. -/
  isVirtual : Bool
  /-- What is stored. -/
  stores : Stores
  /-- How many requirements are marked before, between and after the marks of the identifier and the
  value. -/
  required : Nat × Nat × Nat
  /-- The comparison and the written constant of the test. -/
  test : Option (Comparison × String)
  deriving DecidableEq, Repr

/-- How many requirements are marked before, between and after the marks of the identifier and the
value: where one of these is missing, the requirements on both sides run together. -/
def Requires.runs (r : Requires) (showsId showsValue : Bool) : Nat × Nat × Nat :=
  match showsId, showsValue with
  | true, true => (r.tag.toNat, r.id.toNat, r.value.toNat)
  | true, false => (r.tag.toNat, r.id.toNat + r.value.toNat, 0)
  | false, true => (r.tag.toNat + r.id.toNat, 0, r.value.toNat)
  | false, false => (r.tag.toNat + r.id.toNat + r.value.toNat, 0, 0)

/-- Requirements that run together are told if all are there, or none is. -/
theorem Requires.runs_inj {r s : Requires} {showsId showsValue : Bool}
    (hr : (showsId = true ∨ r.tag = r.id) ∧ (showsValue = true ∨ r.id = r.value))
    (hs : (showsId = true ∨ s.tag = s.id) ∧ (showsValue = true ∨ s.id = s.value)) :
    r.runs showsId showsValue = s.runs showsId showsValue ↔ r = s := by
  refine ⟨fun h => ?_, fun h => h ▸ rfl⟩
  obtain ⟨ri, rt, rv⟩ := r
  obtain ⟨si, st, sv⟩ := s
  revert hr hs h
  cases showsId <;> cases showsValue <;> revert ri rt rv si st sv <;> decide

/-- The comparison and the written constant of a test. -/
def ValueTest.shown (t : ValueTest) : Comparison × String := (t.comparison, t.value.text)

namespace Node

/-- The signature of a node. -/
def signature (n : Node) : Signature where
  code := n.code
  name := if n.selectsTag then some (n.ns, n.tag) else none
  isAttribute := n.isAttribute
  isVirtual := n.isVirtual
  stores := n.stores
  requires := n.requires
  test := n.test.map ValueTest.shown

/-- The namespace and the tag in a full label. -/
def shownName (n : Node) : String × String := if n.selectsTag then (n.ns, n.tag) else ("", anyTag)

/-- The label has a mark of the value, for its test or because it is stored. -/
def showsValue (n : Node) : Bool := n.test.isSome || n.stores.value

/-- The marks of a node. -/
def marks (n : Node) : Marks where
  code := n.code
  name := n.shownName
  isAttribute := n.isAttribute
  isVirtual := n.isVirtual
  stores := n.stores
  required := n.requires.runs n.stores.id n.showsValue
  test := n.test.map ValueTest.shown

/-- Plain names, and no brace in a text constant. -/
structure Plain (n : Node) : Prop where
  /-- The namespace is plain. -/
  ns : PlainName n.ns
  /-- The tag is plain. -/
  tag : PlainName n.tag
  /-- A text constant has no brace. -/
  constant : ∀ t ∈ n.test, t.value.Plain

instance (n : Node) : Decidable n.Plain :=
  decidable_of_iff (PlainName n.ns ∧ PlainName n.tag ∧ ∀ t ∈ n.test, t.value.Plain)
    ⟨fun ⟨hns, htag, hconstant⟩ => ⟨hns, htag, hconstant⟩, fun h => ⟨h.ns, h.tag, h.constant⟩⟩

/-- The marks of the node tell its signature: it does not select on the asterisk, and requirements that
run together are all there, or none is. -/
structure Legible (n : Node) : Prop where
  /-- The node does not select on what a node without selection shows. -/
  selection : n.selectsTag = true → (n.ns, n.tag) ≠ ("", anyTag)
  /-- A stored identifier separates the requirements of the tag and of the identifier. -/
  id : n.stores.id = true ∨ n.requires.tag = n.requires.id
  /-- A mark of the value separates the requirements of the identifier and of the value. -/
  value : n.showsValue = true ∨ n.requires.id = n.requires.value

instance (n : Node) : Decidable n.Legible :=
  decidable_of_iff ((n.selectsTag = true → (n.ns, n.tag) ≠ ("", anyTag)) ∧
      (n.stores.id = true ∨ n.requires.tag = n.requires.id) ∧
        (n.showsValue = true ∨ n.requires.id = n.requires.value))
    ⟨fun ⟨hselection, hid, hvalue⟩ => ⟨hselection, hid, hvalue⟩,
      fun h => ⟨h.selection, h.id, h.value⟩⟩

/-- The marks tell the signatures of legible nodes. -/
theorem marks_eq_iff {n m : Node} (hn : n.Legible) (hm : m.Legible) :
    n.marks = m.marks ↔ n.signature = m.signature := by
  -- no selected name is the asterisk that a node without selection shows
  have hname : n.shownName = m.shownName ↔ n.signature.name = m.signature.name := by
    unfold shownName signature
    dsimp only
    cases hselects : n.selectsTag <;> cases hselects' : m.selectsTag
    · exact iff_of_true rfl rfl
    · exact iff_of_false (fun h => hm.selection hselects' h.symm) nofun
    · exact iff_of_false (hn.selection hselects) nofun
    · exact Option.some_inj.symm
  -- the runs are told apart where what separates them is stored alike
  have hrequires : n.stores = m.stores → n.showsValue = m.showsValue →
      (n.requires.runs n.stores.id n.showsValue = m.requires.runs m.stores.id m.showsValue ↔
        n.requires = m.requires) := by
    intro hstores hvalue
    rw [← hstores, ← hvalue]
    exact Requires.runs_inj ⟨hn.id, hn.value⟩ ⟨hstores ▸ hm.id, hvalue ▸ hm.value⟩
  have hvalue : n.stores = m.stores → n.test.map ValueTest.shown = m.test.map ValueTest.shown →
      n.showsValue = m.showsValue := by
    intro hstores htest
    rw [showsValue, showsValue, hstores, ← Option.isSome_map (f := ValueTest.shown), htest,
      Option.isSome_map]
  rw [marks, marks, Marks.mk.injEq, hname]
  simp only [signature, Signature.mk.injEq]
  constructor
  · rintro ⟨hcode, hname, hattribute, hvirtual, hstores, hruns, htest⟩
    exact ⟨hcode, hname, hattribute, hvirtual, hstores,
      (hrequires hstores (hvalue hstores htest)).mp hruns, htest⟩
  · rintro ⟨hcode, hname, hattribute, hvirtual, hstores, hreq, htest⟩
    exact ⟨hcode, hname, hattribute, hvirtual, hstores,
      (hrequires hstores (hvalue hstores htest)).mpr hreq, htest⟩

end Node

/-! ### Reading a label -/

/-- The text is empty or begins with one of the characters. -/
def Begins (cs x : List Char) : Prop := ∀ c ∈ x.head?, c ∈ cs

/-- What may stand behind a label: nothing, or the mark of an edge or of its end. -/
def Ends (x : List Char) : Prop := Begins ['(', '/', ' '] x

namespace Begins

variable {cs ds s x z : List Char} {c d : Char} {b : Bool} {k : Nat}

theorem nil (cs : List Char) : Begins cs [] := by
  intro c hc
  cases hc

theorem not_isPrefix (hx : Begins cs x) (hc : c ∉ cs) : ¬ (c :: s) <+: x := by
  rintro ⟨y, rfl⟩
  exact hc (hx c rfl)

theorem mono (hx : Begins cs x) (h : cs ⊆ ds) : Begins ds x := fun c hc => h (hx c hc)

theorem cons (hc : c ∈ cs) (x : List Char) : Begins cs (c :: x) := by
  intro d hd
  cases hd
  exact hc

theorem markChars (hx : Begins cs x) (hc : c ∈ cs) (s : List Char) :
    Begins cs (markChars b (c :: s) ++ x) := by
  cases b with
  | true => exact .cons hc _
  | false => exact hx

theorem replicate (hx : Begins cs x) (hc : c ∈ cs) (k : Nat) :
    Begins cs (List.replicate k c ++ x) := by
  cases k with
  | zero => exact hx
  | succ k => exact .cons hc _

end Begins

/-- The characters of a name behind its namespace. -/
def nameChars (name : String × String) : List Char :=
  markChars (name.1 ≠ "") (name.1.toList ++ [':']) ++ name.2.toList

/-- The characters of a test. -/
def testChars : Option (Comparison × String) → List Char
  | none => []
  | some (c, s) => ['#', 'V', '\x7b'] ++ (c.symbol.toList ++ s.toList ++ ['\x7d'])

namespace Marks

/-- The characters of the marks from that of stored content on, in front of other text. -/
def contentTail (m : Marks) (x : List Char) : List Char := markChars m.stores.content ['#', 'C'] ++ x

/-- The characters of the marks from that of a stored value on. -/
def valueTail (m : Marks) (x : List Char) : List Char :=
  markChars m.stores.value ['#', 'V'] ++ (List.replicate m.required.2.2 'R' ++ m.contentTail x)

/-- The characters of the marks from the test on. -/
def testTail (m : Marks) (x : List Char) : List Char := testChars m.test ++ m.valueTail x

/-- The characters of the marks from that of a stored identifier on. -/
def idTail (m : Marks) (x : List Char) : List Char :=
  markChars m.stores.id ['*'] ++ (List.replicate m.required.2.1 'R' ++ m.testTail x)

/-- The characters of the marks from that of a stored tag on. -/
def tagTail (m : Marks) (x : List Char) : List Char :=
  markChars m.stores.tag ['_', 'S'] ++ (List.replicate m.required.1 'R' ++ m.idTail x)

/-- The characters of the marks. -/
def chars (m : Marks) (x : List Char) : List Char :=
  markChars m.isVirtual ['~'] ++ (markChars m.isAttribute ['@'] ++
    (nameChars m.name ++ '(' :: (m.code.text.toList ++ ')' :: m.tagTail x)))

/-- Marks that are read: requirements are marked as early as possible, and names and constants do not
hold delimiters. -/
structure Proper (m : Marks) : Prop where
  /-- Without the mark of an identifier the requirements run on. -/
  id : m.stores.id = false → m.required.2.1 = 0
  /-- Without a mark of the value the requirements run on. -/
  value : m.test = none → m.stores.value = false → m.required.2.2 = 0
  /-- The namespace is plain. -/
  ns : PlainName m.name.1
  /-- The tag is plain. -/
  tag : PlainName m.name.2
  /-- The constant has no brace and does not continue a comparison. -/
  constant : ∀ t ∈ m.test, '\x7d' ∉ t.2.toList ∧ ¬ ['='] <+: t.2.toList

variable {m k : Marks} {x y : List Char}

theorem begins_contentTail (m : Marks) (hx : Ends x) :
    Begins ['#', '(', '/', ' '] (m.contentTail x) :=
  (hx.mono (by decide)).markChars List.mem_cons_self _

theorem contentTail_inj (hx : Ends x) (hy : Ends y) :
    m.contentTail x = k.contentTail y ↔ m.stores.content = k.stores.content ∧ x = y :=
  markChars_append_inj (hx.not_isPrefix (by decide)) (hy.not_isPrefix (by decide))

theorem begins_required (m : Marks) (hx : Ends x) :
    Begins ['R', '#', '(', '/', ' '] (List.replicate m.required.2.2 'R' ++ m.contentTail x) :=
  ((m.begins_contentTail hx).mono (by decide)).replicate List.mem_cons_self _

/-- Behind the mark of a stored value no other begins in the same way. -/
theorem not_value_isPrefix (m : Marks) (hx : Ends x) :
    ¬ ['#', 'V'] <+: List.replicate m.required.2.2 'R' ++ m.contentTail x := by
  cases m.required.2.2 with
  | succ j => exact List.not_cons_prefix_cons (by decide)
  | zero =>
    rw [List.replicate_zero, List.nil_append, contentTail]
    cases m.stores.content with
    | true => simp
    | false => exact hx.not_isPrefix (by decide)

theorem valueTail_inj (hx : Ends x) (hy : Ends y) :
    m.valueTail x = k.valueTail y ↔ m.stores.value = k.stores.value ∧
      m.required.2.2 = k.required.2.2 ∧ m.stores.content = k.stores.content ∧ x = y := by
  rw [valueTail, valueTail, markChars_append_inj (m.not_value_isPrefix hx) (k.not_value_isPrefix hy),
    List.replicate_append_inj ((m.begins_contentTail hx).not_isPrefix (by decide))
      ((k.begins_contentTail hy).not_isPrefix (by decide)), contentTail_inj hx hy]

theorem begins_valueTail (m : Marks) (hx : Ends x) :
    Begins ['#', 'R', '(', '/', ' '] (m.valueTail x) :=
  ((m.begins_required hx).mono (by decide)).markChars List.mem_cons_self _

/-- The mark of a stored value is not that of a test. -/
theorem not_test_isPrefix (m : Marks) (hx : Ends x) : ¬ ['#', 'V', '\x7b'] <+: m.valueTail x := by
  rw [valueTail]
  cases m.stores.value with
  | true =>
    rw [markChars_true, List.cons_append, List.cons_append, List.nil_append,
      List.cons_prefix_cons, List.cons_prefix_cons]
    exact fun h => (m.begins_required hx).not_isPrefix (by decide) h.2.2
  | false =>
    exact fun h => m.not_value_isPrefix hx ((by decide : ['#', 'V'] <+: ['#', 'V', '\x7b']).trans h)

theorem testTail_inj (hm : m.Proper) (hk : k.Proper) (hx : Ends x) (hy : Ends y) :
    m.testTail x = k.testTail y ↔ m.test = k.test ∧ m.valueTail x = k.valueTail y := by
  have happ : ∀ (c : Comparison) (s : String) (z : List Char), testChars (some (c, s)) ++ z
      = ['#', 'V', '\x7b'] ++ (c.symbol.toList ++ s.toList ++ '\x7d' :: z) := by
    intro c s z
    simp [testChars]
  have hsymbol : ∀ c : Comparison, '\x7d' ∉ c.symbol.toList := fun c => by cases c <;> decide
  rw [testTail, testTail]
  cases hmt : m.test with
  -- a test on one side only would start where the other side cannot
  | none =>
    cases hkt : k.test with
    | none => simp [testChars]
    | some t =>
      obtain ⟨c, s⟩ := t
      refine iff_of_false (fun h => m.not_test_isPrefix hx ?_) nofun
      rw [happ] at h
      exact ⟨_, h.symm⟩
  | some t =>
    obtain ⟨c, s⟩ := t
    cases hkt : k.test with
    | none =>
      refine iff_of_false (fun h => k.not_test_isPrefix hy ?_) nofun
      rw [happ] at h
      exact ⟨_, h⟩
    | some t =>
      obtain ⟨c', s'⟩ := t
      -- the constant ends at the first closing brace, and its symbol is no beginning of another
      obtain ⟨hs, hequals⟩ := hm.constant _ (Option.mem_def.mpr hmt)
      obtain ⟨hs', hequals'⟩ := hk.constant _ (Option.mem_def.mpr hkt)
      rw [happ, happ, List.append_right_inj, List.append_delimiter_inj
        (by simp [hsymbol, hs]) (by simp [hsymbol, hs']),
        Comparison.symbol_append_inj hequals hequals', String.toList_inj, Option.some_inj,
        Prod.mk.injEq]

theorem begins_testTail (m : Marks) (hx : Ends x) :
    Begins ['#', 'R', '(', '/', ' '] (m.testTail x) := by
  rw [testTail]
  cases m.test with
  | none => exact m.begins_valueTail hx
  | some t => exact .cons List.mem_cons_self _

/-- Requirements are marked as early as possible. -/
theorem not_required_isPrefix (hm : m.Proper) (hx : Ends x) : ¬ ['R'] <+: m.testTail x := by
  rw [testTail]
  cases htest : m.test with
  | some t => exact List.not_cons_prefix_cons (by decide)
  | none =>
    rw [testChars, List.nil_append, valueTail]
    cases hvalue : m.stores.value with
    | true => exact List.not_cons_prefix_cons (by decide)
    | false =>
      rw [hm.value htest hvalue]
      exact (m.begins_contentTail hx).not_isPrefix (by decide)

theorem idTail_inj (hm : m.Proper) (hk : k.Proper) (hx : Ends x) (hy : Ends y) :
    m.idTail x = k.idTail y ↔ m.stores.id = k.stores.id ∧ m.required.2.1 = k.required.2.1 ∧
      m.testTail x = k.testTail y := by
  have hstar : ∀ {m : Marks} {x : List Char}, Ends x →
      ¬ ['*'] <+: List.replicate m.required.2.1 'R' ++ m.testTail x := fun {m x} hx =>
    ((m.begins_testTail hx).replicate (by decide) _).not_isPrefix (by decide)
  rw [idTail, idTail, markChars_append_inj (hstar hx) (hstar hy),
    List.replicate_append_inj (not_required_isPrefix hm hx) (not_required_isPrefix hk hy)]

theorem begins_idTail (m : Marks) (hx : Ends x) :
    Begins ['*', '#', 'R', '(', '/', ' '] (m.idTail x) :=
  (((m.begins_testTail hx).mono (by decide)).replicate (by decide) _).markChars List.mem_cons_self _

/-- A requirement of the tag is not taken for one of the identifier. -/
theorem not_required_isPrefix_idTail (hm : m.Proper) (hx : Ends x) : ¬ ['R'] <+: m.idTail x := by
  rw [idTail]
  cases hid : m.stores.id with
  | true => exact List.not_cons_prefix_cons (by decide)
  | false =>
    rw [hm.id hid]
    exact not_required_isPrefix hm hx

theorem tagTail_inj (hm : m.Proper) (hk : k.Proper) (hx : Ends x) (hy : Ends y) :
    m.tagTail x = k.tagTail y ↔ m.stores = k.stores ∧ m.required = k.required ∧ m.test = k.test ∧
      x = y := by
  have hstored : ∀ {m : Marks} {x : List Char}, Ends x →
      ¬ ['_', 'S'] <+: List.replicate m.required.1 'R' ++ m.idTail x := fun {m x} hx =>
    ((m.begins_idTail hx).replicate (by decide) _).not_isPrefix (by decide)
  -- from left to right, each part is told from what may follow it
  rw [tagTail, tagTail, markChars_append_inj (hstored hx) (hstored hy),
    List.replicate_append_inj (not_required_isPrefix_idTail hm hx)
      (not_required_isPrefix_idTail hk hy),
    idTail_inj hm hk hx hy, testTail_inj hm hk hx hy, valueTail_inj hx hy]
  constructor
  · rintro ⟨htag, hfirst, hid, hsecond, htest, hvalue, hthird, hcontent, hxy⟩
    refine ⟨?_, Prod.ext hfirst (Prod.ext hsecond hthird), htest, hxy⟩
    calc m.stores = ⟨m.stores.id, m.stores.tag, m.stores.value, m.stores.content⟩ := rfl
      _ = k.stores := by rw [htag, hid, hvalue, hcontent]
  · rintro ⟨hstores, hrequired, htest, hxy⟩
    rw [hstores, hrequired]
    exact ⟨rfl, rfl, rfl, rfl, htest, rfl, rfl, rfl, hxy⟩

theorem Proper.not_mem_nameChars (hm : m.Proper) {c : Char} (hc : c ∈ ['~', '@', '(']) :
    c ∉ nameChars m.name := by
  have hne : c ≠ ':' := fun h => absurd (h ▸ hc) (by decide)
  have hdelimiter : c ∈ ['~', '@', ':', '('] :=
    (by decide : ['~', '@', '('] ⊆ ['~', '@', ':', '(']) hc
  have hns : c ∉ m.name.1.toList := fun h => hm.ns c h hdelimiter
  have htag : c ∉ m.name.2.toList := fun h => hm.tag c h hdelimiter
  rw [nameChars]
  cases decide (m.name.1 ≠ "") <;> simp [hns, htag, hne]

/-- A namespace ends at the first colon. -/
theorem nameChars_inj (hm : m.Proper) (hk : k.Proper) :
    nameChars m.name = nameChars k.name ↔ m.name = k.name := by
  have hcolon : ':' ∈ ['~', '@', ':', '('] := by decide
  have hns : ∀ {m : Marks}, m.Proper → ':' ∉ m.name.1.toList := fun hm h => hm.ns ':' h hcolon
  have htag : ∀ {m : Marks}, m.Proper → ':' ∉ m.name.2.toList := fun hm h => hm.tag ':' h hcolon
  have hempty : ∀ {m : Marks}, m.name.1 = "" → nameChars m.name = m.name.2.toList := by
    intro m h
    simp [nameChars, h]
  have hfull : ∀ {m : Marks}, m.name.1 ≠ "" →
      nameChars m.name = m.name.1.toList ++ ':' :: m.name.2.toList := by
    intro m h
    simp [nameChars, h]
  refine ⟨fun h => ?_, fun h => h ▸ rfl⟩
  -- with a namespace on one side only, the other name would have its colon
  by_cases hm' : m.name.1 = "" <;> by_cases hk' : k.name.1 = ""
  · rw [hempty hm', hempty hk', String.toList_inj] at h
    exact Prod.ext (hm'.trans hk'.symm) h
  · rw [hempty hm', hfull hk'] at h
    exact absurd (h ▸ List.mem_append_right _ List.mem_cons_self) (htag hm)
  · rw [hfull hm', hempty hk'] at h
    exact absurd (h ▸ List.mem_append_right _ List.mem_cons_self) (htag hk)
  · rw [hfull hm', hfull hk', List.append_delimiter_inj (hns hm) (hns hk), String.toList_inj,
      String.toList_inj] at h
    exact Prod.ext h.1 h.2

/-- Marks are read, also in front of other text. -/
theorem chars_inj (hm : m.Proper) (hk : k.Proper) (hx : Ends x) (hy : Ends y) :
    m.chars x = k.chars y ↔ m = k ∧ x = y := by
  have hname : ∀ {m : Marks} (z : List Char) {c : Char}, m.Proper → c ∈ ['~', '@', '('] → c ≠ '(' →
      ¬ [c] <+: nameChars m.name ++ '(' :: z := fun z c hm hc hne =>
    List.not_singleton_prefix_append (hm.not_mem_nameChars hc) hne
  have hvirtual : ∀ {m : Marks} (z : List Char), m.Proper →
      ¬ ['~'] <+: markChars m.isAttribute ['@'] ++ (nameChars m.name ++ '(' :: z) := by
    intro m z hm
    cases m.isAttribute with
    | true => exact List.not_cons_prefix_cons (by decide)
    | false => exact hname z hm (by decide) (by decide)
  have hcode : ∀ code : Code, ')' ∉ code.text.toList := fun code h =>
    absurd (Code.isDigit_of_mem_text h) (by decide)
  -- the marks of the kind, the name up to the parenthesis, the code up to its end, and the rest
  rw [chars, chars, markChars_append_inj (hvirtual _ hm) (hvirtual _ hk),
    markChars_append_inj (hname _ hm (by decide) (by decide)) (hname _ hk (by decide) (by decide)),
    List.append_delimiter_inj (hm.not_mem_nameChars (by decide)) (hk.not_mem_nameChars (by decide)),
    List.append_delimiter_inj (hcode _) (hcode _), nameChars_inj hm hk, Code.text_inj,
    tagTail_inj hm hk hx hy, Marks.mk.injEq]
  tauto

end Marks

namespace Node

variable {n m : Node}

theorem toList_shownName (n : Node) :
    (if n.selectsTag then n.qualifiedTag else anyTag).toList = nameChars n.shownName := by
  rw [shownName]
  cases n.selectsTag with
  | true =>
    simp only [if_true, qualifiedTag, nameChars, String.toList_append, toList_mark]
    rfl
  | false => rfl

theorem toList_fullTest (test : Option ValueTest) :
    (fullTest test).toList = testChars (test.map ValueTest.shown) := by
  cases test with
  | none => rfl
  | some t => simp [fullTest, testChars, ValueTest.shown]

/-- The marks in a label, where those of requirements run together. -/
theorem toList_full (n : Node) (x : List Char) : n.full.toList ++ x = n.marks.chars x := by
  have hrequired : ∀ b : Bool, markChars b ['R'] = List.replicate b.toNat 'R' := fun b => by
    cases b <;> rfl
  have htail : n.marks.tagTail x = markChars n.stores.tag ['_', 'S'] ++
      (List.replicate n.requires.tag.toNat 'R' ++ (markChars n.stores.id ['*'] ++
        (List.replicate n.requires.id.toNat 'R' ++ (testChars (n.test.map ValueTest.shown) ++
          (markChars n.stores.value ['#', 'V'] ++ (List.replicate n.requires.value.toNat 'R' ++
            (markChars n.stores.content ['#', 'C'] ++ x))))))) := by
    simp only [marks, Marks.tagTail, Marks.idTail, Marks.testTail, Marks.valueTail,
      Marks.contentTail, showsValue]
    cases n.stores.id <;> cases n.test <;> cases n.stores.value <;>
      simp [Requires.runs, testChars, ← List.replicate_append_replicate]
  rw [Marks.chars, htail, full, kindMarks]
  simp only [String.toList_append, toList_mark, toList_shownName, toList_fullTest, List.append_assoc,
    ← hrequired]
  rfl

theorem Plain.proper (hn : n.Plain) : n.marks.Proper where
  id hid := by
    show (n.requires.runs n.stores.id n.showsValue).2.1 = 0
    rw [show n.stores.id = false from hid]
    cases n.showsValue <;> rfl
  value htest hvalue := by
    show (n.requires.runs n.stores.id n.showsValue).2.2 = 0
    have hnone : n.showsValue = false := by
      rw [showsValue, show n.stores.value = false from hvalue, Option.map_eq_none_iff.mp htest]
      rfl
    rw [hnone]
    cases n.stores.id <;> rfl
  ns := by
    show PlainName n.shownName.1
    unfold shownName
    split
    · exact hn.ns
    · exact nofun
  tag := by
    show PlainName n.shownName.2
    unfold shownName
    split
    · exact hn.tag
    · decide
  constant := by
    intro t ht
    obtain ⟨v, hv, rfl⟩ := Option.map_eq_some_iff.mp (Option.mem_def.mp ht)
    exact ⟨(hn.constant v (Option.mem_def.mpr hv)).not_mem_text, v.value.not_equals_isPrefix⟩

/-- A full label tells the marks of a node, also in front of other text. -/
theorem full_append_inj {x y : List Char} (hn : n.Plain) (hm : m.Plain) (hx : Ends x) (hy : Ends y) :
    n.full.toList ++ x = m.full.toList ++ y ↔ n.marks = m.marks ∧ x = y := by
  rw [toList_full, toList_full, Marks.chars_inj hn.proper hm.proper hx hy]

end Node

end TwigAlgebra
