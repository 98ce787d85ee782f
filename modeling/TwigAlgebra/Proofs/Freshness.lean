import TwigAlgebra.Proofs.PlanCheck
import TwigAlgebra.Proofs.Sprouting

/-!
# Codes stay fresh

Before a plan is compiled its codes must be different and lie below the next code of the counters.
The patterns of its scans are then changed in any order, each change taking its codes from the same
counters, and the plan can be checked again at any time: codes that are taken lie above all codes of
the plan, in whatever pattern, and below the next one.

One change is left out.  An arena may hold a slot that is not part of the tree and yet has an edge to
one that is.  The check does not look at such a slot; removing its edge unlinks the child, which is
still reached over the edge of its parent.

## Main definitions

* `Plan.putPattern` — another pattern in the scan at an address.
* `Plan.Evolves` — the plans and counters after a run of changes.
* `Plan.Checked` — what is checked before a plan is compiled.

## Main results

* `Query.check_eq_ok_iff` — the check, without its walk.
* `Plan.Checked.put` — a pattern that sprouts keeps what is checked.
* `Plan.checked_of_evolves` — so does every run of changes.
* `Plan.not_checked_of_strayNote` — a run that removes an edge from outside of a tree.
-/

namespace TwigAlgebra

open Pattern

/-! ### What is checked -/

namespace Plan

/-- Nothing is found in two places, and all codes are below the next code. -/
structure Checked (c : Counters) (p : Plan) : Prop where
  /-- Nothing is found in two places. -/
  distinct : p.Distinct
  /-- The codes are below the next code. -/
  below : ∀ a h n, p.NodeAt a h n → n.code.val < c.code.val

theorem scanBelow_eq_ok_iff {next : Code} {s : Scan} {r : Pattern} {f : Forest}
    (hs : s.pattern = some r) (hr : r.Sound f) :
    scanBelow next s = .ok () ↔ ∀ n ∈ r.nodesOn f, n.code.val < next.val := by
  rw [scanBelow, hs]
  dsimp only
  rw [codes, hr.nodesInOrder_eq, Option.map_some]
  dsimp only
  -- the first code that is too large is the error
  cases hfind : ((r.nodesOn f).map (·.code)).find? fun c => next.val ≤ c.val with
  | none =>
    refine iff_of_true rfl fun n hn => ?_
    have hlt := List.find?_eq_none.mp hfind n.code (List.mem_map_of_mem hn)
    simpa using hlt
  | some code =>
    have hle := List.find?_some hfind
    obtain ⟨n, hn, rfl⟩ := List.mem_map.mp (List.mem_of_find?_eq_some hfind)
    constructor
    · intro herror
      cases herror
    · intro hall
      exact absurd (hall n hn) (by simpa using hle)

theorem mem_scans_iff {p : Plan} {s : Scan} :
    s ∈ p.scans ↔ ∃ a, p.operator? a = some (.scan s) := by
  rw [scans, List.mem_filterMap]
  constructor
  · rintro ⟨n, hn, hs⟩
    obtain ⟨a, ha⟩ := mem_postorder_iff.mp hn
    refine ⟨a, ?_⟩
    cases n with
    | scan s' d =>
      cases hs
      exact operator?_of_sub? ha
    | unary op input d => cases hs
    | binary op left right d => cases hs
  · rintro ⟨a, ha⟩
    obtain ⟨n, hn, htop⟩ := exists_sub?_of_operator? ha
    refine ⟨n, mem_postorder_iff.mpr ⟨a, hn⟩, ?_⟩
    cases n <;> cases htop
    rfl

/-- The codes of a plan with distinct parts are compared with a bound one by one. -/
theorem codesBelow_eq_ok_iff {p : Plan} (hp : p.Distinct) {next : Code} :
    p.codesBelow next = .ok () ↔ ∀ a h n, p.NodeAt a h n → n.code.val < next.val := by
  have hscan : ∀ {a s r}, p.operator? a = some (.scan s) → s.pattern = some r →
      (scanBelow next s = .ok () ↔
        ∀ h n, r.Reached h → r.node? h = some n → n.code.val < next.val) := by
    intro a s r ha hr
    obtain ⟨f, hf⟩ := Pattern.validate_eq_ok_iff.mp (hp.patterns a r ⟨s, ha, hr⟩)
    -- the nodes in pre-order are those that are reached
    rw [scanBelow_eq_ok_iff hr hf]
    simp only [mem_nodesOn_iff, hf.reached_iff]
    exact ⟨fun hall h n hh hn => hall n ⟨h, hh, hn⟩, fun hall n ⟨h, hh, hn⟩ => hall h n hh hn⟩
  rw [codesBelow, List.forM_eq_ok_iff]
  constructor
  · rintro hall a h n ⟨r, ⟨s, ha, hr⟩, hh, hn⟩
    exact (hscan ha hr).mp (hall s (mem_scans_iff.mpr ⟨a, ha⟩)) h n hh hn
  · intro hall s hs
    obtain ⟨a, ha⟩ := mem_scans_iff.mp hs
    cases hr : s.pattern with
    | none => rw [scanBelow, hr]
    | some r => exact (hscan ha hr).mpr fun h n hh hn => hall a h n ⟨r, ⟨s, ha, hr⟩, hh, hn⟩

end Plan

/-- The check before a compilation accepts exactly the plans whose parts are distinct and whose codes
are below the next code. -/
theorem Query.check_eq_ok_iff {q : Query} {c : Counters} :
    q.check c = .ok () ↔ q.root.Checked c := by
  rw [check, Except.bind_eq_ok_iff]
  constructor
  · rintro ⟨_, hvalid, hbelow⟩
    have hdistinct := (Plan.validate_eq_ok_iff.trans Plan.sound_iff_distinct).mp hvalid
    exact ⟨hdistinct, (Plan.codesBelow_eq_ok_iff hdistinct).mp hbelow⟩
  · rintro ⟨hdistinct, hbelow⟩
    exact ⟨(), (Plan.validate_eq_ok_iff.trans Plan.sound_iff_distinct).mpr hdistinct,
      (Plan.codesBelow_eq_ok_iff hdistinct).mpr hbelow⟩

/-! ### Another pattern in a scan -/

namespace Plan

/-- The plan with another pattern in the scan at an address. -/
def putPattern : List Nat → Pattern → Plan → Plan
  | [], r, scan s d => scan { s with pattern := some r } d
  | 0 :: a, r, unary op input d => unary op (input.putPattern a r) d
  | 0 :: a, r, binary op left right d => binary op (left.putPattern a r) right d
  | 1 :: a, r, binary op left right d => binary op left (right.putPattern a r) d
  | _, _, p => p

variable {p : Plan} {a b : List Nat} {s : Scan} {r r' : Pattern}

/-- Only the scan at the address changes, and only its pattern. -/
theorem operator?_putPattern (ha : p.operator? a = some (.scan s)) :
    (p.putPattern a r).operator? b
      = if b = a then some (.scan { s with pattern := some r }) else p.operator? b := by
  induction a generalizing p b with
  | nil =>
    cases p with
    | scan s' d =>
      cases ha
      cases b with
      | nil => rfl
      | cons j b => rfl
    | unary op input d => cases ha
    | binary op left right d => cases ha
  | cons i a ih =>
    -- the address leads on into one input, where the scan is put, and the others stay
    cases p with
    | scan s' d => cases ha
    | unary op input d =>
      rcases i with _ | i
      · rcases b with _ | ⟨_ | j, b⟩
        · rfl
        · -- below the input where the scan is put
          simpa [putPattern, operator?, inputs] using ih (p := input) (b := b) ha
        · simp [putPattern, operator?, inputs]
      · cases ha
    | binary op left right d =>
      rcases i with _ | _ | i
      · rcases b with _ | ⟨_ | j, b⟩
        · rfl
        · simpa [putPattern, operator?, inputs] using ih (p := left) (b := b) ha
        · simp [putPattern, operator?, inputs]
      · rcases b with _ | ⟨_ | _ | j, b⟩
        · rfl
        · simp [putPattern, operator?, inputs]
        · simpa [putPattern, operator?, inputs] using ih (p := right) (b := b) ha
        · simp [putPattern, operator?, inputs]
      · cases ha

theorem hasPattern_putPattern (hr : p.HasPattern a r) : (p.putPattern a r').HasPattern a r' := by
  obtain ⟨s, ha, -⟩ := hr
  exact ⟨{ s with pattern := some r' }, (operator?_putPattern ha).trans (if_pos rfl), rfl⟩

theorem operator?_putPattern_of_ne (hr : p.HasPattern a r) (hb : b ≠ a) :
    (p.putPattern a r').operator? b = p.operator? b := by
  obtain ⟨s, ha, -⟩ := hr
  rw [operator?_putPattern ha, if_neg hb]

theorem scansAt_of_putPattern {i : ScanId} (hr : p.HasPattern a r)
    (hb : (p.putPattern a r').ScansAt b i) : p.ScansAt b i := by
  obtain ⟨t, ht, rfl⟩ := hb
  obtain ⟨s, ha, -⟩ := hr
  rw [operator?_putPattern ha] at ht
  split at ht
  case isTrue heq =>
    cases ht
    exact ⟨s, heq ▸ ha, rfl⟩
  case isFalse => exact ⟨t, ht, rfl⟩

theorem bindsAt_result_of_putPattern {v : Var} (hr : p.HasPattern a r)
    (hb : (p.putPattern a r').BindsAt (.result b) v) : p.BindsAt (.result b) v := by
  obtain ⟨g, hg, rfl⟩ := hb
  obtain ⟨s, ha, -⟩ := hr
  rw [operator?_putPattern ha] at hg
  split at hg
  case isTrue => cases hg
  case isFalse => exact ⟨g, hg, rfl⟩

/-- Nodes at other addresses stay, and at this address they are those of the new pattern. -/
theorem nodeAt_putPattern_iff (hr : p.HasPattern a r) {h : Handle} {n : Node} :
    (p.putPattern a r').NodeAt b h n ↔
      if b = a then r'.Reached h ∧ r'.node? h = some n else p.NodeAt b h n := by
  split
  case isTrue heq =>
    subst heq
    have hput : (p.putPattern b r').HasPattern b r' := hasPattern_putPattern hr
    constructor
    · rintro ⟨t, ht, hh, hn⟩
      rw [hput.unique ht]
      exact ⟨hh, hn⟩
    · exact fun ⟨hh, hn⟩ => ⟨r', hput, hh, hn⟩
  case isFalse hne =>
    rw [NodeAt, NodeAt]
    simp only [HasPattern, operator?_putPattern_of_ne hr hne]

/-- A node of the changed plan was there, under whatever handle, or it is new. -/
theorem nodeAt_putPattern_cases {first next : Nat} (hr : p.HasPattern a r)
    (hs : r.Sprouts first next r') {h : Handle} {m : Node} (hm : (p.putPattern a r').NodeAt b h m) :
    (∃ i n, p.NodeAt b i n ∧ n.stem = m.stem) ∨
      b = a ∧ m.vars = [] ∧ first ≤ m.code.val.toNat ∧ m.code.val.toNat < next := by
  rw [nodeAt_putPattern_iff hr] at hm
  split at hm
  case isTrue heq =>
    rcases hs.stem h m hm.1 hm.2 with ⟨j, n, hj, hn, hstem⟩ | hnew
    · exact Or.inl ⟨j, n, ⟨r, heq ▸ hr, hj, hn⟩, hstem⟩
    · exact Or.inr ⟨heq, hnew⟩
  case isFalse => exact Or.inl ⟨h, m, hm, rfl⟩

/-- A variable of the changed plan was bound there: at the same position of a node with the same code,
or as the same result. -/
theorem bindsAt_putPattern_cases {first next : Nat} {x : Site} {v : Var} (hr : p.HasPattern a r)
    (hs : r.Sprouts first next r') (hx : (p.putPattern a r').BindsAt x v) :
    (∃ b, x = .result b ∧ p.BindsAt (.result b) v) ∨
      ∃ b h k m i n, x = .node b h k ∧ (p.putPattern a r').NodeAt b h m ∧ p.NodeAt b i n ∧
        n.code = m.code ∧ p.BindsAt (.node b i k) v := by
  cases x with
  | result b => exact Or.inl ⟨b, rfl, bindsAt_result_of_putPattern hr hx⟩
  | node b h k =>
    right
    obtain ⟨m, w, hm, hk, hv⟩ := hx
    rcases nodeAt_putPattern_cases hr hs hm with ⟨i, n, hn, hstem⟩ | ⟨-, hvars, -⟩
    · obtain ⟨hcode, hvars⟩ := Prod.mk.inj hstem
      exact ⟨b, h, k, m, i, n, rfl, hm, hn, hcode, n, w, hn, hvars ▸ hk, hv⟩
    · -- new nodes bind nothing
      rw [hvars] at hk
      cases hk

theorem NodeAt.unique {h : Handle} {n m : Node} (hn : p.NodeAt a h n) (hm : p.NodeAt a h m) :
    n = m := by
  obtain ⟨t, ht, -, hn⟩ := hn
  obtain ⟨t', ht', -, hm⟩ := hm
  obtain rfl := ht.unique ht'
  exact Option.some.inj (hn.symm.trans hm)

namespace Checked

variable {c c' : Counters}

theorem toNat_lt (hp : p.Checked c) {h : Handle} {n : Node} (hn : p.NodeAt b h n) :
    n.code.val.toNat < c.code.val.toNat :=
  UInt32.lt_iff_toNat_lt.mp (hp.below b h n hn)

/-- Nodes with one code are at one address, for codes that are taken lie above all others. -/
theorem address_eq {next : Nat} (hp : p.Checked c) (hr : p.HasPattern a r)
    (hs : r.Sprouts c.code.val.toNat next r') {b b' : List Nat} {h i : Handle} {n m : Node}
    (hn : (p.putPattern a r').NodeAt b h n) (hm : (p.putPattern a r').NodeAt b' i m)
    (hcode : n.code = m.code) : b = b' := by
  rcases nodeAt_putPattern_cases hr hs hn with ⟨j, k, hk, hstem⟩ | ⟨rfl, -, hlow, -⟩
  · have hkn : k.code = n.code := (Prod.mk.inj hstem).1
    rcases nodeAt_putPattern_cases hr hs hm with ⟨j', k', hk', hstem'⟩ | ⟨-, -, hlow, -⟩
    · have hkm : k'.code = m.code := (Prod.mk.inj hstem').1
      exact (hp.distinct.codes b b' j j' k k' hk hk' (by rw [hkn, hkm, hcode])).1
    · have hlt := hp.toNat_lt hk
      rw [hkn, hcode] at hlt
      exact absurd hlow (Nat.not_le.mpr hlt)
  · rcases nodeAt_putPattern_cases hr hs hm with ⟨j', k', hk', hstem'⟩ | ⟨rfl, -⟩
    · have hlt := hp.toNat_lt hk'
      rw [(Prod.mk.inj hstem').1, ← hcode] at hlt
      exact absurd hlow (Nat.not_le.mpr hlt)
    · rfl

/-- Different nodes of the changed plan have different codes. -/
theorem codes_put {next : Nat} (hp : p.Checked c) (hr : p.HasPattern a r)
    (hs : r.Sprouts c.code.val.toNat next r') {b b' : List Nat} {h i : Handle} {n m : Node}
    (hn : (p.putPattern a r').NodeAt b h n) (hm : (p.putPattern a r').NodeAt b' i m)
    (hcode : n.code = m.code) : b = b' ∧ h = i := by
  obtain rfl := hp.address_eq hr hs hn hm hcode
  refine ⟨rfl, ?_⟩
  rw [nodeAt_putPattern_iff hr] at hn hm
  by_cases heq : b = a
  · rw [if_pos heq] at hn hm
    exact hs.tree.distinct h i n m hn.1 hm.1 hn.2 hm.2 hcode
  · rw [if_neg heq] at hn hm
    exact (hp.distinct.codes b b h i n m hn hm hcode).2

/-- No variable of the changed plan is bound in two places. -/
theorem vars_put {next : Nat} (hp : p.Checked c) (hr : p.HasPattern a r)
    (hs : r.Sprouts c.code.val.toNat next r') {x y : Site} {v : Var}
    (hx : (p.putPattern a r').BindsAt x v) (hy : (p.putPattern a r').BindsAt y v) : x = y := by
  rcases bindsAt_putPattern_cases hr hs hx with ⟨b, rfl, hb⟩ | ⟨b, h, k, m, i, n, rfl, hm, hn, hnm, hb⟩
  · rcases bindsAt_putPattern_cases hr hs hy with ⟨b', rfl, hb'⟩ | ⟨b', h', k', m', i', n', rfl, -, -, -, hb'⟩
    · exact hp.distinct.vars _ _ v hb hb'
    · cases hp.distinct.vars _ _ v hb hb'
  · rcases bindsAt_putPattern_cases hr hs hy with
      ⟨b', rfl, hb'⟩ | ⟨b', h', k', m', i', n', rfl, hm', hn', hnm', hb'⟩
    · cases hp.distinct.vars _ _ v hb hb'
    · -- both come from one position of one node, so that their nodes have one code
      cases hp.distinct.vars _ _ v hb hb'
      obtain rfl := hn.unique hn'
      obtain ⟨-, rfl⟩ := hp.codes_put hr hs hm hm' (hnm.symm.trans hnm')
      rfl

/-- A pattern that sprouts keeps what is checked. -/
theorem put (hp : p.Checked c) (hr : p.HasPattern a r)
    (hle : c.code.val.toNat ≤ c'.code.val.toNat)
    (hs : r.Sprouts c.code.val.toNat c'.code.val.toNat r') : (p.putPattern a r').Checked c' where
  distinct :=
    { patterns := fun b t ht => by
        -- the pattern that was put, which sprouted from a tree
        by_cases heq : b = a
        · subst heq
          rw [ht.unique (hasPattern_putPattern hr)]
          exact validate_eq_ok_iff_isTree.mpr hs.tree
        · obtain ⟨s, hb, hst⟩ := ht
          rw [operator?_putPattern_of_ne hr heq] at hb
          exact hp.distinct.patterns b t ⟨s, hb, hst⟩
      scans := fun b b' i hb hb' =>
        hp.distinct.scans b b' i (scansAt_of_putPattern hr hb) (scansAt_of_putPattern hr hb')
      codes := fun _ _ _ _ _ _ hn hm => hp.codes_put hr hs hn hm
      vars := fun _ _ _ hx hy => hp.vars_put hr hs hx hy }
  below b h m hm := by
    rw [UInt32.lt_iff_toNat_lt]
    -- old nodes keep their codes, new ones have codes that were taken
    rcases nodeAt_putPattern_cases hr hs hm with ⟨j, k, hk, hstem⟩ | ⟨-, -, -, hlt⟩
    · have hlt := hp.toNat_lt hk
      rw [(Prod.mk.inj hstem).1] at hlt
      exact Nat.lt_of_lt_of_le hlt hle
    · exact hlt

end Checked

/-! ### Runs of changes -/

/-- The plans and counters after a run of changes to the patterns of scans.  Each change meets the
condition `ok` when it is made, and takes codes that the counter has not wrapped around to. -/
inductive Evolves (ok : Pattern → Change → Prop) (p₀ : Plan) (c₀ : Counters) :
    Plan → Counters → Prop
  /-- Nothing is changed yet. -/
  | start : Evolves ok p₀ c₀ p₀ c₀
  /-- The pattern at one more address is changed. -/
  | change {p : Plan} {c c' : Counters} {a : List Nat} {r r' : Pattern} {s : Change}
      (h : Evolves ok p₀ c₀ p c) (hr : p.HasPattern a r) (hs : ok r s)
      (hwrap : c.code.val.toNat + s.taken r < 2 ^ 32) (hrun : s.run r c = some (r', c')) :
      Evolves ok p₀ c₀ (p.putPattern a r') c'

/-- One change keeps what is checked. -/
theorem Checked.change {c c' : Counters} {s : Change} (hp : p.Checked c) (hr : p.HasPattern a r)
    (hs : s.Owned r) (hwrap : c.code.val.toNat + s.taken r < 2 ^ 32)
    (hrun : s.run r c = some (r', c')) : (p.putPattern a r').Checked c' := by
  have htree := validate_eq_ok_iff_isTree.mp (hp.distinct.patterns a r hr)
  have hbelow : r.CodesBelow c.code.val.toNat := fun h n hh hn => hp.toNat_lt ⟨r, hr, hh, hn⟩
  obtain ⟨hnext, hsprouts⟩ := Change.sprouts htree hbelow hs hwrap hrun
  exact hp.put hr (hnext ▸ Nat.le_add_right _ _) hsprouts

/-- A run of changes keeps what is checked. -/
theorem Evolves.checked {ok : Pattern → Change → Prop} (hok : ∀ r s, ok r s → s.Owned r)
    {p₀ : Plan} {c₀ c : Counters} (hp : p₀.Checked c₀) (h : Evolves ok p₀ c₀ p c) : p.Checked c := by
  induction h with
  | start => exact hp
  | change _ hr hs hwrap hrun ih => exact ih.change hr (hok _ _ hs) hwrap hrun

/-- A plan that the check accepts and whose codes are below the next code stays so, whatever is done
to the patterns of its scans while codes are taken from the counters, as long as these do not wrap
around and no edge is removed that leads into a pattern from outside of its tree.  Compiling still
accepts such a plan, and every change that names slots of its patterns comes to an end. -/
theorem checked_of_evolves {c₀ c : Counters} {p₀ : Plan} (hvalid : p₀.validate = .ok ())
    (hbelow : ∀ a h n, p₀.NodeAt a h n → n.code.val < c₀.code.val)
    (h : Evolves (fun r s => s.Owned r) p₀ c₀ p c) :
    p.validate = .ok () ∧ (∀ a h n, p.NodeAt a h n → n.code.val < c.code.val) ∧
      (∀ q : Query, q.root = p → q.check c = .ok ()) ∧
      ∀ (a : List Nat) (r : Pattern) (s : Change), p.HasPattern a r → s.Within r →
        ∃ x, s.run r c = some x := by
  have hp := h.checked (fun _ _ hs => hs)
    ⟨sound_iff_distinct.mp (validate_eq_ok_iff.mp hvalid), hbelow⟩
  refine ⟨validate_eq_ok_iff.mpr (sound_iff_distinct.mpr hp.distinct), hp.below, fun q hq => ?_,
    fun a r s hr hs => ?_⟩
  · subst hq
    exact Query.check_eq_ok_iff.mpr hp
  · exact Change.exists_run (validate_eq_ok_iff_isTree.mp (hp.distinct.patterns a r hr)) hs c

/-- A scan for a pattern. -/
def shelf (r : Pattern) : Plan :=
  .scan ⟨⟨0⟩, some r, true, ⟨"shelf", []⟩⟩ none

/-- Books with a title. -/
def titles : Pattern where
  name := "books"
  nodes := #[{ Node.make ⟨0⟩ "" "book" with edges := [⟨⟨true, false, false⟩, 1⟩] },
    { Node.make ⟨1⟩ "" "title" with parent := some 0 }]
  root := 0

/-- Books with a title and a virtual copy of it. -/
def copiedTitles : Pattern where
  name := "books"
  nodes := #[{ Node.make ⟨0⟩ "" "book" with
      edges := [⟨⟨true, false, false⟩, 1⟩, ⟨⟨true, false, false⟩, 2⟩] },
    { Node.make ⟨1⟩ "" "title" with parent := some 0 },
    { Node.make ⟨2⟩ "" "title" with parent := some 0, isVirtual := true }]
  root := 0

/-- The theorem at a run that copies the title and then takes the original away. -/
theorem checked_of_evolves_titles :
    (shelf titles).validate = .ok () ∧
      (∀ a h n, (shelf titles).NodeAt a h n → n.code.val < (2 : UInt32)) ∧
      ∃ p c, Evolves (fun r s => s.Owned r) (shelf titles) (.startingAt ⟨2⟩) p c ∧ c.code = ⟨3⟩ ∧
        p.validate = .ok () ∧ (∀ a h n, p.NodeAt a h n → n.code.val < c.code.val) ∧
        (∀ q : Query, q.root = p → q.check c = .ok ()) ∧
        ∀ (a : List Nat) (r : Pattern) (s : Change), p.HasPattern a r → s.Within r →
          ∃ x, s.run r c = some x := by
  have hcheck : (Query.symbolic (shelf titles)).check (.startingAt ⟨2⟩) = .ok () := by decide
  have hp := Query.check_eq_ok_iff.mp hcheck
  have hvalid := validate_eq_ok_iff.mpr (sound_iff_distinct.mpr hp.distinct)
  have hcopied : Evolves (fun r s => s.Owned r) (shelf titles) (.startingAt ⟨2⟩)
      (shelf copiedTitles) (.startingAt ⟨3⟩) :=
    .change (a := []) (r := titles) (s := .copyVirtual 0 none 1) .start ⟨_, rfl, rfl⟩ trivial
      (by decide) (by decide +kernel)
  have hrun := hcopied.change (a := []) (r := copiedTitles) (s := .removeEdge 0 1) ⟨_, rfl, rfl⟩
    (fun _ _ _ => .refl) (by decide) rfl
  exact ⟨hvalid, hp.below, _, _, hrun, rfl, checked_of_evolves hvalid hp.below hrun⟩

/-- Books with a title, which a note outside of the tree has as a child, too. -/
def strayNote : Pattern where
  name := "books"
  nodes := #[{ Node.make ⟨0⟩ "" "book" with edges := [⟨⟨true, false, false⟩, 1⟩] },
    { Node.make ⟨1⟩ "" "title" with parent := some 0 },
    { Node.make ⟨2⟩ "" "note" with edges := [⟨⟨true, false, false⟩, 1⟩] }]
  root := 0

/-- Removing the edge of the note unlinks the title, which the book keeps as a child; the check does
not accept the plan any more. -/
theorem not_checked_of_strayNote :
    (shelf strayNote).validate = .ok () ∧
      (∀ a h n, (shelf strayNote).NodeAt a h n → n.code.val < (3 : UInt32)) ∧
      ¬ ∀ p c, Evolves (fun _ s => s.FromTree) (shelf strayNote) (.startingAt ⟨3⟩) p c →
        p.validate = .ok () := by
  have hcheck : (Query.symbolic (shelf strayNote)).check (.startingAt ⟨3⟩) = .ok () := by decide
  have hp := Query.check_eq_ok_iff.mp hcheck
  refine ⟨validate_eq_ok_iff.mpr (sound_iff_distinct.mpr hp.distinct), hp.below, fun hall => ?_⟩
  have hrun : Evolves (fun _ s => s.FromTree) (shelf strayNote) (.startingAt ⟨3⟩) _ _ :=
    .change (a := []) (r := strayNote) (s := .removeEdge 2 1) .start ⟨_, rfl, rfl⟩ trivial
      (by decide) rfl
  exact absurd (hall _ _ hrun) (by decide +kernel)

end Plan

end TwigAlgebra
