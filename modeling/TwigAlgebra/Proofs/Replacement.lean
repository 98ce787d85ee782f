import TwigAlgebra.Proofs.Growth
import TwigAlgebra.Proofs.Layout

/-!
# Copies with a replacement

A copy with a replacement takes a pattern out of its arena, but stops at one slot and takes a subtree of
another pattern out instead.  The slot alone decides where to stop: a node elsewhere may be the same in
everything and is copied nevertheless.  If the walk never comes to the slot, nothing is replaced and the
result is a plain copy.

## Main definitions

* `Pattern.hole` — where to stop, and what to take there.
* `Pattern.Replaces` — subtrees of the same shape, apart from one that was replaced.

## Main results

* `Pattern.replaces_of_extractWith` — what bears a tree with a hole replaces the subtree at the hole.
* `Pattern.extract_eq_of_miss` — a hole that is never met makes no difference.
* `Pattern.Spans.size_gather` — a replacement changes the number of nodes by the difference.
* `Pattern.TreeOf.copyReplacing_exact` — what a copy with a replacement is.
-/

namespace TwigAlgebra.Pattern

/-- The tree `u` stands in for the subtree in the slot `old`. -/
def hole (old : Handle) (u : Tree) (h : Handle) : Option (Option Tree) :=
  some (if h = old then some u else none)

/-- The subtree of `j` in `q` is that of `i` in `p`, with the subtree of `new` in `r` in place of that
of `old`. -/
inductive Replaces (p : Pattern) (old : Handle) (r : Pattern) (new : Handle) (q : Pattern) :
    Handle → Handle → Prop
  /-- The replaced subtree corresponds to the one that takes its place. -/
  | hole {j : Handle} (hnew : r.Corresponds Node.SameAttributes q new j) :
    Replaces p old r new q old j
  /-- Every other node has kept its attributes and the flags of its edges, and its children are
  those of before, one by one, with the subtree replaced in them. -/
  | node {i j : Handle} {n m : Node} (hi : i ≠ old) (hn : p.node? i = some n)
      (hm : q.node? j = some m) (hattributes : n.SameAttributes m)
      (hflags : n.edges.map Edge.toEdgeFlags = m.edges.map Edge.toEdgeFlags)
      (hchildren : List.Forall₂ (Replaces p old r new q) n.children m.children) :
    Replaces p old r new q i j

variable {p q r : Pattern} {f b below : Forest} {old new h i j : Handle} {fuel fuel' : Nat}
  {t t' u : Tree} {es es' : List Edge} {bs bs' : Branches} {visit visit' : Handle → Option Tree}

/-! ### The nodes of the copy -/

theorem extract_corresponds (hu : r.extract new = some u) (hq : q.BearsTree Node.SameAttributes j u) :
    r.Corresponds Node.SameAttributes q new j := by
  refine ((bearsTree_of_extract hu).corresponds_iff (R := Node.SameAttributes) hq ?_).mpr
    ⟨rfl, .refl (R := Node.SameAttributes) (fun _ => rfl) _⟩
  rintro n _ m l rfl hml
  exact ⟨fun h => h.trans hml, fun h => h.trans hml.symm⟩

theorem replaces_of_gather
    (hvisit : ∀ i j t, visit i = some t → q.BearsTree Node.SameAttributes j t →
      p.Replaces old r new q i j)
    (hbs : gather visit es = some bs) (hq : q.Bears Node.SameAttributes es' bs) :
    es.map Edge.toEdgeFlags = es'.map Edge.toEdgeFlags ∧
      List.Forall₂ (p.Replaces old r new q) (es.map (·.child)) (es'.map (·.child)) := by
  induction es generalizing bs es' with
  | nil =>
    cases hbs
    cases es' with
    | nil => exact ⟨rfl, .nil⟩
    | cons e' es' => exact hq.elim
  | cons e es ih =>
    obtain ⟨t, ht, hbs⟩ := Option.bind_eq_some_iff.mp hbs
    obtain ⟨rest, hrest, hbs⟩ := Option.bind_eq_some_iff.mp hbs
    cases hbs
    cases es' with
    | nil => exact hq.elim
    | cons e' es' =>
      obtain ⟨hflags, htree, hothers⟩ := hq
      -- the first edge leads to copies by what a visit does, and the others by induction
      obtain ⟨hsame, hchildren⟩ := ih hrest hothers
      refine ⟨?_, .cons (hvisit _ _ t ht htree) hchildren⟩
      rw [List.map_cons, List.map_cons, hflags, hsame]

/-- What bears a tree that was taken out with a hole replaces the subtree at the hole. -/
theorem replaces_of_extractWith (hu : r.extract new = some u)
    (ht : p.extractWith (hole old u) fuel i = some t) (hq : q.BearsTree Node.SameAttributes j t) :
    p.Replaces old r new q i j := by
  induction fuel generalizing i j t with
  | zero => cases ht
  | succ fuel ih =>
    rw [extractWith, hole] at ht
    simp only [Option.bind_eq_bind, Option.bind_some] at ht
    by_cases hi : i = old
    · subst i
      rw [if_pos rfl] at ht
      cases ht
      -- the hole itself: what stands in for it corresponds to the subtree that was taken out
      exact .hole (extract_corresponds hu hq)
    · rw [if_neg hi] at ht
      obtain ⟨n, hn, ht⟩ := Option.bind_eq_some_iff.mp ht
      obtain ⟨bs, hbs, ht⟩ := Option.bind_eq_some_iff.mp ht
      cases ht
      obtain ⟨m, hm, hmn, hbelow⟩ := hq
      obtain ⟨hflags, hchildren⟩ :=
        replaces_of_gather (fun _ _ _ => ih) hbs hbelow
      exact .node hi hn hm hmn.symm hflags hchildren

/-! ### A hole that is never met -/

theorem gather_congr
    (hvisit : ∀ e ∈ es, ∀ t t', visit e.child = some t → visit' e.child = some t' → t = t')
    (hbs : gather visit es = some bs) (hbs' : gather visit' es = some bs') : bs = bs' := by
  induction es generalizing bs bs' with
  | nil =>
    cases hbs
    cases hbs'
    rfl
  | cons e es ih =>
    obtain ⟨t, ht, hbs⟩ := Option.bind_eq_some_iff.mp hbs
    obtain ⟨rest, hrest, hbs⟩ := Option.bind_eq_some_iff.mp hbs
    obtain ⟨t', ht', hbs'⟩ := Option.bind_eq_some_iff.mp hbs'
    obtain ⟨rest', hrest', hbs'⟩ := Option.bind_eq_some_iff.mp hbs'
    cases hbs
    cases hbs'
    rw [hvisit e List.mem_cons_self t t' ht ht',
      ih (fun e he => hvisit e (List.mem_cons_of_mem _ he)) hrest hrest']

/-- A hole outside of the subtree makes no difference. -/
theorem extract_eq_of_miss (hf : p.Spans (.cons h below .nil)) (hmiss : old ∉ h :: below.handles)
    (ht : p.extractWith (hole old u) fuel h = some t)
    (ht' : p.extractWith (fun _ => some none) fuel' h = some t') : t = t' := by
  induction fuel generalizing h below t t' fuel' with
  | zero => cases ht
  | succ fuel ih =>
    cases fuel' with
    | zero => cases ht'
    | succ fuel' =>
      obtain ⟨n, hn, hchildren⟩ := children?_eq_some_iff.mp hf.1
      have hne : h ≠ old := fun heq => hmiss (heq ▸ List.mem_cons_self)
      rw [extractWith, hole, if_neg hne] at ht
      rw [extractWith] at ht'
      simp only [Option.bind_eq_bind, Option.bind_some, hn] at ht ht'
      obtain ⟨bs, hbs, ht⟩ := Option.bind_eq_some_iff.mp ht
      obtain ⟨bs', hbs', ht'⟩ := Option.bind_eq_some_iff.mp ht'
      cases ht
      cases ht'
      have hsame : bs = bs' := by
        -- no edge below leads to the hole, so that all visits answer the same
        refine gather_congr (fun e he t t' ht ht' => ?_) hbs hbs'
        have hchild : e.child ∈ below.roots := hchildren ▸ List.mem_map_of_mem he
        obtain ⟨b, hb, hsub, -⟩ :=
          hf.2.1.exists_subtree (Forest.mem_handles_of_mem_roots hchild)
        exact ih hb (fun hmem => hmiss (List.mem_cons_of_mem _ (hsub.subset hmem))) ht ht'
      rw [hsame]

/-! ### The number of nodes -/

/-- Where the hole is met, the subtree there is not counted, and the tree that stands in for it is. -/
theorem Spans.size_gather (hf : p.Spans f) (hnodup : f.handles.Nodup) (hb : p.Spans (.cons old b .nil))
    (hes : es.map (·.child) = f.roots)
    (hbs : gather (p.extractWith (hole old u) fuel) es = some bs) :
    bs.size + f.handles.count old * (b.handles.length + 1)
      = f.handles.length + f.handles.count old * u.size := by
  induction f generalizing fuel es bs with
  | nil =>
    rw [List.map_eq_nil_iff.mp hes] at hbs
    cases hbs
    simp
  | cons i below rest ihb ihr =>
    obtain ⟨e, es, rfl, rfl, hrestes⟩ := exists_edges_of_roots_cons hes
    obtain ⟨hi, hbelow, hrest⟩ := hf
    rw [Forest.handles_cons, List.nodup_cons, List.nodup_append] at hnodup
    obtain ⟨hnew, hnodup_below, hnodup_rest, -⟩ := hnodup
    obtain ⟨t, ht, hbs⟩ := Option.bind_eq_some_iff.mp hbs
    obtain ⟨others, hothers, hbs⟩ := Option.bind_eq_some_iff.mp hbs
    cases hbs
    have hrest_size := ihr hrest hnodup_rest hrestes hothers
    obtain ⟨fuel, rfl⟩ : ∃ k, fuel = k + 1 := by
      cases fuel with
      | zero => cases ht
      | succ k => exact ⟨k, rfl⟩
    rw [extractWith, hole] at ht
    simp only [Option.bind_eq_bind, Option.bind_some] at ht
    simp only [Forest.handles_cons, List.count_cons, List.count_append, List.length_cons,
      List.length_append, Branches.size_cons]
    by_cases hold : e.child = old
    · -- nothing below the hole is met
      obtain rfl : b = below := by
        cases hb.unique (g := .cons old below .nil) ⟨hold ▸ hi, hbelow, trivial⟩ rfl
        rfl
      rw [if_pos hold] at ht
      cases ht
      have hnone : b.handles.count old = 0 :=
        List.count_eq_zero.mpr fun hmem => hnew (List.mem_append_left _ (hold ▸ hmem))
      have hone : (if e.child == old then 1 else 0) = 1 := if_pos (beq_iff_eq.mpr hold)
      rw [hnone, hone, Nat.zero_add, Nat.add_mul, Nat.add_mul, Nat.one_mul, Nat.one_mul, Tree.size]
      rw [Tree.size] at hrest_size
      omega
    · obtain ⟨n, hn, hchildren⟩ := children?_eq_some_iff.mp hi
      rw [if_neg hold] at ht
      simp only [hn, Option.bind_some] at ht
      obtain ⟨bs, hinner, ht⟩ := Option.bind_eq_some_iff.mp ht
      cases ht
      have hbelow_size := ihb hbelow hnodup_below hchildren hinner
      have hzero : (if e.child == old then 1 else 0) = 0 := if_neg fun h => hold (beq_iff_eq.mp h)
      rw [hzero, Nat.add_zero, Nat.add_mul, Nat.add_mul]
      dsimp only
      omega

theorem Spans.size_extractWith (hf : p.Spans (.cons h below .nil))
    (hnodup : (Forest.cons h below .nil).handles.Nodup) (hb : p.Spans (.cons old b .nil))
    (hold : old ∈ (Forest.cons h below .nil).handles)
    (ht : p.extractWith (hole old u) fuel h = some t) :
    t.size + (b.handles.length + 1) = (Forest.cons h below .nil).handles.length + u.size := by
  have hgather : gather (p.extractWith (hole old u) fuel) [EdgeFlags.to ⟨true, false, false⟩ h]
      = some (.cons ⟨true, false, false⟩ t.label t.below .nil) := by
    simp [gather, ht]
  have hsize := hf.size_gather hnodup hb rfl hgather
  rw [List.count_eq_one_of_mem hnodup hold, Nat.one_mul, Nat.one_mul] at hsize
  exact hsize

/-! ### Copies with a replacement -/

/-- A copy with a replacement: every node of the tree is copied, apart from the subtree in the slot
`old`, which makes way for the one of `new`. -/
theorem TreeOf.copyReplacing_exact (hp : p.TreeOf f) (hr : r.Spans (.cons new below .nil))
    (old : Handle) :
    ∃ q, p.copyReplacing old r new = some q ∧ q.name = p.name ∧
      p.Replaces old r new q p.root q.root ∧
      (old = p.root → r.Corresponds Node.SameAttributes q new q.root) ∧
      (¬ p.Reached old → p.copy = some q) ∧
      (p.Reached old → ∃ all cut put, p.count p.root = some all ∧ p.count old = some cut ∧
        r.count new = some put ∧ cut ≤ all ∧ q.count q.root = some (all - cut + put)) := by
  obtain ⟨top, rfl⟩ := Forest.exists_eq_of_roots_singleton hp.roots_eq
  obtain ⟨u, hu⟩ := hr.exists_extract
  have hanswers : ∀ h, ∃ o, hole old u h = some o := fun _ => ⟨_, rfl⟩
  obtain ⟨t, ht⟩ := hp.spans.exists_extractWith hanswers (Nat.le_succ p.size)
  obtain ⟨q, hq⟩ := t.exists_toPattern p.name
  have hreplaces := replaces_of_extractWith hu ht (Tree.bearsTree_of_toPattern hq)
  have hhole : (fun h => if h = old then (r.extract new).map some else some none) = hole old u := by
    funext h
    rw [hu, hole]
    split <;> rfl
  refine ⟨q, ?_, (Tree.holds_of_toPattern hq).1, hreplaces, ?_, fun hold => ?_, fun hold => ?_⟩
  · rw [copyReplacing, hhole]
    simp [ht, hq]
  · -- at the root the replacement is all that there is
    rintro rfl
    cases hreplaces with
    | hole hnew => exact hnew
    | node hi => exact absurd rfl hi
  · -- with nothing to replace, the tree that is taken out is the one of a plain copy
    obtain ⟨t', ht'⟩ := hp.spans.exists_extract
    rw [hp.toUnfolds.reached_iff] at hold
    rw [extract_eq_of_miss hp.spans (by simpa using hold) ht ht'] at hq
    rw [copy, ht']
    exact hq
  · -- the nodes in the hole are counted out, and those of the replacement in
    rw [hp.toUnfolds.reached_iff] at hold
    obtain ⟨b, hb, hsub, -⟩ := hp.spans.exists_subtree hold
    have hsize := hp.spans.size_extractWith hp.nodup hb hold ht
    refine ⟨_, _, _, hp.toUnfolds.count_eq, hb.count_eq, hr.count_eq, hsub.length_le, ?_⟩
    rw [Tree.count_of_toPattern hq, ← hr.size_of_extract hu]
    refine congrArg some ?_
    have hle := hsub.length_le
    rw [List.length_cons] at hle
    omega

/-- Shelves with two books that are the same in everything. -/
def twinBooks : Pattern where
  name := "shelves"
  nodes := #[{ Node.make ⟨0⟩ "" "shelf" with
      edges := [⟨⟨true, false, false⟩, 1⟩, ⟨⟨true, false, false⟩, 2⟩] },
    { Node.make ⟨1⟩ "" "book" with parent := some 0 },
    { Node.make ⟨1⟩ "" "book" with parent := some 0 }]
  root := 0

/-- Journals with their issues. -/
def journals : Pattern where
  name := "journals"
  nodes := #[{ Node.make ⟨7⟩ "" "journal" with edges := [⟨⟨false, true, false⟩, 1⟩] },
    { Node.make ⟨8⟩ "" "issue" with parent := some 0 }]
  root := 0

/-- The theorem at the second of two books, which makes way for journals, at a slot that does not exist,
and at the root. -/
theorem copyReplacing_exact_twinBooks :
    (∃ q, twinBooks.copyReplacing 2 journals 0 = some q ∧
      twinBooks.Replaces 2 journals 0 q 0 q.root ∧ q.count q.root = some 4) ∧
      (∃ q, twinBooks.copyReplacing 3 journals 0 = some q ∧ twinBooks.copy = some q) ∧
      ∃ q, twinBooks.copyReplacing 0 journals 0 = some q ∧
        journals.Corresponds Node.SameAttributes q 0 q.root := by
  have hbooks : twinBooks.TreeOf (.cons 0 (.cons 1 .nil (.cons 2 .nil .nil)) .nil) := by
    refine ⟨⟨?_, rfl⟩, by decide⟩
    simp only [Spans]
    decide
  have hjournals : journals.Spans (.cons 0 (.cons 1 .nil .nil) .nil) := by
    simp only [Spans]
    decide
  have hreached : ∀ i, twinBooks.Reached i ↔ i ∈ [0, 1, 2] := fun i => hbooks.toUnfolds.reached_iff
  refine ⟨?_, ?_, ?_⟩
  · obtain ⟨q, hq, -, hreplaces, -, -, hcount⟩ := hbooks.copyReplacing_exact hjournals 2
    obtain ⟨all, cut, put, hall, hcut, hput, -, hsize⟩ := hcount ((hreached 2).mpr (by decide))
    obtain rfl : 3 = all := Option.some.inj hall
    obtain rfl : 1 = cut := Option.some.inj hcut
    obtain rfl : 2 = put := Option.some.inj hput
    exact ⟨q, hq, hreplaces, hsize⟩
  · obtain ⟨q, hq, -, -, -, hcopy, -⟩ := hbooks.copyReplacing_exact hjournals 3
    exact ⟨q, hq, hcopy fun h => absurd ((hreached 3).mp h) (by decide)⟩
  · obtain ⟨q, hq, -, -, hroot, -⟩ := hbooks.copyReplacing_exact hjournals 0
    exact ⟨q, hq, hroot rfl⟩

end TwigAlgebra.Pattern
