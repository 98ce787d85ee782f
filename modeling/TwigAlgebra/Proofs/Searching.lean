import TwigAlgebra.Proofs.Chains

/-!
# Searching for a code

A search for a code goes depth first: at every node it comes to, it passes over the subtrees without
the code, and goes down the first edge whose subtree has it.  The edges that it goes down are the way to
the node that it finds, whether other nodes have the code or not.

## Main definitions

* `Pattern.Way` — edges from one slot down to another.
* `Pattern.Finds` — the way of a search that succeeds.

## Main results

* `Pattern.Spans.lacks_or_finds` — a forest lacks a code, or a search succeeds in the first tree that
  does not.
* `Pattern.Unfolds.locate_cases` — what is located in a finite tree.
-/

namespace TwigAlgebra.Pattern

variable {p q : Pattern} {f g below rest : Forest} {h t : Handle} {code : Code} {fuel : Nat}
  {n : Node} {e : Edge} {es es' before after : List Edge}

/-- The edges lead from `h` down to `t`, one after the other. -/
def Way (p : Pattern) : Handle → List Edge → Handle → Prop
  | h, [], t => h = t
  | h, e :: es, t => (∃ n, p.node? h = some n ∧ e ∈ n.edges) ∧ p.Way e.child es t

/-- A search for the code from `h` on goes down the edges and finds `t`. -/
inductive Finds (p : Pattern) (code : Code) : Handle → List Edge → Handle → Prop
  /-- The node has the code. -/
  | here {h : Handle} {n : Node} (hn : p.node? h = some n) (hcode : n.code = code) :
    Finds p code h [] h
  /-- The node does not have the code, nor do the subtrees before the one where it is found. -/
  | there {h t : Handle} {n : Node} {e : Edge} {before after es : List Edge} {g : Forest}
      (hn : p.node? h = some n) (hcode : n.code ≠ code) (hedges : n.edges = before ++ e :: after)
      (hg : p.Spans g) (hroots : g.roots = before.map (·.child)) (hlacks : p.Lacks code g)
      (hrest : Finds p code e.child es t) : Finds p code h (e :: es) t

theorem Finds.way (hfinds : p.Finds code h es t) : p.Way h es t := by
  induction hfinds with
  | here => exact rfl
  | there hn _ hedges _ _ _ _ ih =>
    exact ⟨⟨_, hn, hedges ▸ List.mem_append_right _ List.mem_cons_self⟩, ih⟩

theorem lacks_cons_iff : p.Lacks code (.cons h below rest) ↔
    (∀ n, p.node? h = some n → n.code ≠ code) ∧ p.Lacks code below ∧ p.Lacks code rest := by
  simp only [Lacks, Forest.handles_cons, List.mem_cons, List.mem_append]
  constructor
  · exact fun hall => ⟨hall h (Or.inl rfl), fun i hi => hall i (Or.inr (Or.inl hi)),
      fun i hi => hall i (Or.inr (Or.inr hi))⟩
  · rintro ⟨hself, hbelow, hrest⟩ i (rfl | hi | hi)
    · exact hself
    · exact hbelow i hi
    · exact hrest i hi

/-- The subtrees of the edges before a given one, the subtree of this edge, and the others. -/
theorem Spans.exists_split (hf : p.Spans (.cons h below .nil)) (hn : p.node? h = some n)
    (hedges : n.edges = before ++ e :: after) (hg : p.Spans g)
    (hroots : g.roots = before.map (·.child)) :
    ∃ b rest, below = g.append (.cons e.child b rest) := by
  obtain ⟨n', hn', hchildren⟩ := children?_eq_some_iff.mp hf.1
  cases hn.symm.trans hn'
  rw [Node.children, hedges, List.map_append, List.map_cons] at hchildren
  obtain ⟨g', k, rfl, hg', hk⟩ := Forest.exists_append_of_roots hchildren.symm
  obtain ⟨b, rest, rfl, -⟩ := Forest.exists_eq_of_roots_cons hk
  obtain rfl := (spans_append_iff.mp hf.2.1).1.unique hg (hg'.trans hroots.symm)
  exact ⟨b, rest, rfl⟩

/-- A forest lacks a code, or a search succeeds in the first tree that does not. -/
theorem Spans.lacks_or_finds (hf : p.Spans f) (code : Code) :
    p.Lacks code f ∨ ∃ g h below rest es t, f = g.append (.cons h below rest) ∧
      p.Lacks code g ∧ p.Finds code h es t := by
  induction f with
  | nil => exact Or.inl nofun
  | cons h below rest ihb ihr =>
    obtain ⟨hh, hbelow, hrest⟩ := hf
    obtain ⟨n, hn, hchildren⟩ := children?_eq_some_iff.mp hh
    by_cases hcode : n.code = code
    · exact Or.inr ⟨.nil, h, below, rest, [], h, rfl, nofun, .here hn hcode⟩
    -- not the top, so that the code is below it, or in the trees that follow, or nowhere
    rcases ihb hbelow with hlacks | ⟨g, c, b, k, es, t, rfl, hlacks, hfinds⟩
    · have hself : ∀ m, p.node? h = some m → m.code ≠ code := by
        intro m hm
        cases hn.symm.trans hm
        exact hcode
      rcases ihr hrest with hlacks' | ⟨g, c, b, k, es, t, rfl, hlacks', hfinds⟩
      · exact Or.inl (lacks_cons_iff.mpr ⟨hself, hlacks, hlacks'⟩)
      · exact Or.inr ⟨.cons h below g, c, b, k, es, t, rfl,
          lacks_cons_iff.mpr ⟨hself, hlacks, hlacks'⟩, hfinds⟩
    · -- found below: the edge is the one to the tree in which the search succeeds
      rw [Forest.roots_append, Forest.roots_cons, Node.children] at hchildren
      obtain ⟨before, l, hedges, hbefore, hl⟩ := List.map_eq_append_iff.mp hchildren
      obtain ⟨e, after, rfl, rfl, -⟩ := List.map_eq_cons_iff.mp hl
      exact Or.inr ⟨.nil, h, _, rest, e :: es, t, rfl, nofun,
        .there hn hcode hedges (spans_append_iff.mp hbelow).1 hbefore.symm hlacks hfinds⟩

/-! ### Locating -/

/-- Trees without the code have no answer. -/
theorem Spans.firstAnswer_miss (hf : p.Spans f) (hlacks : p.Lacks code f) (hfuel : f.height ≤ fuel)
    (hes : es.map (·.child) = f.roots) (es' : List Edge) :
    firstAnswer (fun e => p.locateFrom code fuel e.child) (es ++ es')
      = firstAnswer (fun e => p.locateFrom code fuel e.child) es' := by
  induction f generalizing fuel es es' with
  | nil =>
    rw [List.map_eq_nil_iff.mp hes]
    rfl
  | cons h below rest ihb ihr =>
    obtain ⟨e, es, rfl, rfl, hrestes⟩ := exists_edges_of_roots_cons hes
    obtain ⟨hh, hbelow, hrest⟩ := hf
    obtain ⟨n, hn, hchildren⟩ := children?_eq_some_iff.mp hh
    obtain ⟨hself, hlacksb, hlacksr⟩ := lacks_cons_iff.mp hlacks
    rw [Forest.height] at hfuel
    obtain ⟨fuel, rfl⟩ : ∃ k, fuel = k + 1 := ⟨fuel - 1, by omega⟩
    -- the first tree is searched in vain, so that the next one is searched
    have hvain := ihb hbelow hlacksb (by omega : below.height ≤ fuel) hchildren []
    rw [List.append_nil] at hvain
    have hnone : p.locateFrom code (fuel + 1) e.child = some none := by
      rw [locateFrom, hn]
      simp only [Option.bind_eq_bind, Option.bind_some, hself n hn, if_false, hvain]
      rfl
    rw [List.cons_append, firstAnswer, hnone]
    exact ihr hrest hlacksr (by omega) hrestes es'

theorem Spans.locateFrom_of_lacks (hf : p.Spans (.cons h below .nil))
    (hlacks : p.Lacks code (.cons h below .nil)) (hfuel : below.height < fuel) :
    p.locateFrom code fuel h = some none := by
  have hheight : (Forest.cons h below .nil).height ≤ fuel := by
    rw [Forest.height, Forest.height]
    omega
  have hedge : [EdgeFlags.to ⟨true, false, false⟩ h].map (·.child) = [h] := rfl
  have hmiss := hf.firstAnswer_miss hlacks hheight hedge []
  rw [List.append_nil, firstAnswer] at hmiss
  obtain ⟨o, ho, hrest⟩ := Option.bind_eq_some_iff.mp hmiss
  cases o with
  | none => exact ho
  | some t => cases hrest

/-- What a search finds is located. -/
theorem Finds.locateFrom_eq (hfinds : p.Finds code h es t) (hf : p.Spans (.cons h below .nil))
    (hfuel : below.height < fuel) : p.locateFrom code fuel h = some (some t) := by
  induction hfinds generalizing below fuel with
  | here hn hcode =>
    obtain ⟨fuel, rfl⟩ : ∃ k, fuel = k + 1 := ⟨fuel - 1, by omega⟩
    rw [locateFrom, hn]
    simp [hcode]
  | there hn hcode hedges hg hroots hlacks _ ih =>
    obtain ⟨fuel, rfl⟩ : ∃ k, fuel = k + 1 := ⟨fuel - 1, by omega⟩
    obtain ⟨b, rest, rfl⟩ := hf.exists_split hn hedges hg hroots
    obtain ⟨hchild, hb, -⟩ := (spans_append_iff.mp hf.2.1).2
    rw [Forest.height_append, Forest.height] at hfuel
    have hfirst := ih ⟨hchild, hb, trivial⟩ (by omega : b.height < fuel)
    rw [locateFrom, hn]
    simp only [Option.bind_eq_bind, Option.bind_some, hcode, if_false]
    -- the trees before the edge give no answer, and the one behind it does
    rw [hedges, hg.firstAnswer_miss hlacks (by omega) hroots.symm, firstAnswer, hfirst]
    rfl

namespace Unfolds

theorem locate_of_lacks (hp : p.Unfolds f) (hlacks : p.Lacks code f) : p.locate code = some none := by
  obtain ⟨below, rfl⟩ := Forest.exists_eq_of_roots_singleton hp.roots_eq
  obtain ⟨fuel, -, hsize, hheight, -, -⟩ := hp.spans.exists_fuel
  exact hp.spans.locateFrom_of_lacks hlacks (by omega)

theorem locate_of_finds (hp : p.Unfolds f) (hfinds : p.Finds code p.root es t) :
    p.locate code = some (some t) := by
  obtain ⟨below, rfl⟩ := Forest.exists_eq_of_roots_singleton hp.roots_eq
  obtain ⟨fuel, -, hsize, hheight, -, -⟩ := hp.spans.exists_fuel
  exact hfinds.locateFrom_eq hp.spans (by omega)

/-- In a finite tree the node that a search finds is located, or nothing is and no node has the
code. -/
theorem locate_cases (hp : p.Unfolds f) (code : Code) :
    p.locate code = some none ∧ p.Lacks code f ∨
      ∃ es t, p.locate code = some (some t) ∧ p.Finds code p.root es t := by
  rcases hp.spans.lacks_or_finds code with hlacks | ⟨g, h, b, rest, es, t, rfl, -, hfinds⟩
  · exact Or.inl ⟨hp.locate_of_lacks hlacks, hlacks⟩
  · -- the only tree is that of the root
    have hroots := hp.roots_eq
    rw [Forest.roots_append, Forest.roots_cons, List.append_eq_singleton_iff] at hroots
    obtain rfl : h = p.root := by
      rcases hroots with ⟨-, hh⟩ | ⟨-, hh⟩
      · exact (List.cons.inj hh).1
      · cases hh
    exact Or.inr ⟨es, t, hp.locate_of_finds hfinds, hfinds⟩

end Unfolds

end TwigAlgebra.Pattern
