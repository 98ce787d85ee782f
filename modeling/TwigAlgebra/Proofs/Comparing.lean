import TwigAlgebra.Proofs.Correspondence
import TwigAlgebra.Proofs.Growth
import TwigAlgebra.Proofs.Signature

/-!
# Comparing patterns

Patterns are compared by their full renderings.  A rendering is read from the left like a label: behind
a label stands a parenthesis if there are several edges, the mark of an edge if there is one, and
otherwise what stands behind the subtree.  Two patterns compare as equal if, and only if, their trees
have the same shape, the same flags on their edges, and nodes with the same marks.

## Main definitions

* `Branches.chars`, `Tree.chars` — the characters of a rendering.

## Main results

* `Branches.chars_append_inj` — renderings are read, also in front of other text.
* `Pattern.toList_render` — the rendering of a subtree is that of the tree taken out.
* `Pattern.compare_eq_eq_iff` — patterns that compare as equal.
-/

namespace TwigAlgebra

/-! ### Renderings of owned trees -/

/-- The characters, in parentheses if there are several edges. -/
def grouped (edges : Nat) (s : List Char) : List Char := if 1 < edges then '(' :: s ++ [')'] else s

namespace Branches

/-- The number of branches. -/
def width : Branches → Nat
  | nil => 0
  | cons _ _ _ rest => rest.width + 1

/-- The characters of the rendering of branches under full labels. -/
def chars : Branches → List Char
  | nil => []
  | cons flags n below rest => flags.marks.toList ++
      ' ' :: (n.full.toList ++ (grouped below.width below.chars ++ ' ' :: rest.chars))

end Branches

/-- The characters of the rendering of a tree under full labels. -/
def Tree.chars (t : Tree) : List Char :=
  t.label.full.toList ++ grouped t.below.width t.below.chars

/-- Two nodes have the same marks. -/
def Node.SameMarks (n m : Node) : Prop := n.marks = m.marks

/-- Two nodes have the same signature. -/
def Node.SameSignature (n m : Node) : Prop := n.signature = m.signature

/-- What hangs on a node is no part of its label. -/
theorem Node.Plain.detached {n : Node} (hn : n.Plain) : n.detached.Plain := ⟨hn.ns, hn.tag, hn.constant⟩

theorem Node.Legible.detached {n : Node} (hn : n.Legible) : n.detached.Legible :=
  ⟨hn.selection, hn.id, hn.value⟩

/-! ### Reading a rendering -/

theorem EdgeFlags.not_mem_marks (e : EdgeFlags) : ' ' ∉ e.marks.toList := by
  obtain ⟨_ | _, _ | _, _ | _⟩ := e <;> decide

theorem EdgeFlags.marks_inj {e e' : EdgeFlags} : e.marks.toList = e'.marks.toList ↔ e = e' := by
  refine ⟨fun h => ?_, fun h => h ▸ rfl⟩
  obtain ⟨_ | _, _ | _, _ | _⟩ := e <;> obtain ⟨_ | _, _ | _, _ | _⟩ := e' <;>
    first | rfl | exact absurd h (by decide)

theorem EdgeFlags.exists_marks (e : EdgeFlags) : ∃ s, e.marks.toList = '/' :: s := by
  obtain ⟨_ | _, _ | _, _ | _⟩ := e <;> exact ⟨_, rfl⟩

namespace Branches

variable {bs bs' : Branches} {x y : List Char}

theorem Matches.width_eq {R : Node → Node → Prop} (h : bs.Matches R bs') : bs.width = bs'.width := by
  induction bs generalizing bs' with
  | nil =>
    cases bs' with
    | nil => rfl
    | cons flags n below rest => exact h.elim
  | cons flags n below rest _ ihr =>
    cases bs' with
    | nil => exact h.elim
    | cons flags' n' below' rest' =>
      obtain ⟨-, -, -, hrest⟩ := h
      rw [width, width, ihr hrest]

/-- Branches begin with the mark of an edge. -/
theorem begins_chars {cs : List Char} (bs : Branches) (hx : Begins cs x) (hslash : '/' ∈ cs) :
    Begins cs (bs.chars ++ x) := by
  cases bs with
  | nil => exact hx
  | cons flags n below rest =>
    obtain ⟨s, hs⟩ := flags.exists_marks
    rw [chars, hs]
    exact .cons hslash _

/-- What stands behind a label. -/
theorem ends_grouped (bs : Branches) (hx : Ends x) : Ends (grouped bs.width bs.chars ++ x) := by
  rw [grouped]
  split
  · exact .cons (by decide) _
  · exact bs.begins_chars hx (by decide)

/-- Groups are read if the branches in them are. -/
theorem grouped_append_inj {R : Node → Node → Prop}
    (hinj : ∀ {x y}, ¬ ['/'] <+: x → ¬ ['/'] <+: y →
      (bs.chars ++ x = bs'.chars ++ y ↔ bs.Matches R bs' ∧ x = y)) (x y : List Char) :
    grouped bs.width bs.chars ++ ' ' :: x = grouped bs'.width bs'.chars ++ ' ' :: y ↔
      bs.Matches R bs' ∧ x = y := by
  have hslash : ∀ c : Char, c ≠ '/' → ∀ z, ¬ ['/'] <+: c :: z := fun c hc z =>
    List.not_cons_prefix_cons hc.symm
  have hparen : ∀ (cs : Branches) (z : List Char), ¬ ['('] <+: cs.chars ++ ' ' :: z := by
    intro cs z
    have hbegins : Begins ['/', ' '] (cs.chars ++ ' ' :: z) :=
      cs.begins_chars (.cons (by decide) z) (by decide)
    exact hbegins.not_isPrefix (by decide)
  rw [grouped, grouped]
  by_cases hwide : 1 < bs.width <;> by_cases hwide' : 1 < bs'.width
  · -- both are in parentheses
    have hgroup := hinj (hslash ')' (by decide) (' ' :: x)) (hslash ')' (by decide) (' ' :: y))
    rw [if_pos hwide, if_pos hwide']
    simpa using hgroup
  · rw [if_pos hwide, if_neg hwide']
    -- an open parenthesis on one side only
    refine iff_of_false (fun h => hparen bs' y ?_) fun h => hwide' (h.1.width_eq ▸ hwide)
    exact ⟨_, h⟩
  · rw [if_neg hwide, if_pos hwide']
    refine iff_of_false (fun h => hparen bs x ?_) fun h => hwide (h.1.width_eq ▸ hwide')
    exact ⟨_, h.symm⟩
  · -- neither is
    rw [if_neg hwide, if_neg hwide', hinj (hslash _ (by decide) x) (hslash _ (by decide) y)]
    simp

/-- Renderings are read, also in front of other text. -/
theorem chars_append_inj (hbs : ∀ n ∈ bs.labels, n.Plain) (hbs' : ∀ n ∈ bs'.labels, n.Plain)
    (hx : ¬ ['/'] <+: x) (hy : ¬ ['/'] <+: y) :
    bs.chars ++ x = bs'.chars ++ y ↔ bs.Matches Node.SameMarks bs' ∧ x = y := by
  -- an edge begins with a slash, so that no other text does where branches may follow
  have hedge : ∀ {flags n below rest} (z : List Char),
      ['/'] <+: (cons flags n below rest).chars ++ z := by
    intro flags n below rest z
    obtain ⟨s, hs⟩ := flags.exists_marks
    rw [chars, hs]
    exact List.cons_prefix_cons.mpr ⟨rfl, List.nil_prefix⟩
  induction bs generalizing bs' x y with
  | nil =>
    cases bs' with
    | nil => simp [chars, Matches]
    | cons flags' n' below' rest' =>
      exact iff_of_false (fun h : x = _ => hx (h ▸ hedge y)) fun h => h.1.elim
  | cons flags n below rest ihb ihr =>
    cases bs' with
    | nil => exact iff_of_false (fun h : _ = y => hy (h ▸ hedge x)) fun h => h.1.elim
    | cons flags' n' below' rest' =>
      rw [labels_cons, List.forall_mem_cons, List.forall_mem_append] at hbs hbs'
      obtain ⟨hn, hbelow, hrest⟩ := hbs
      obtain ⟨hn', hbelow', hrest'⟩ := hbs'
      -- an edge, a label, what is below it in its group, and the later siblings
      have happ : ∀ (flags : EdgeFlags) (n : Node) (below rest : Branches) (z : List Char),
          (cons flags n below rest).chars ++ z = flags.marks.toList ++ ' ' :: (n.full.toList ++
            (grouped below.width below.chars ++ ' ' :: (rest.chars ++ z))) := by
        intro flags n below rest z
        simp [chars]
      have hends : ∀ (below : Branches) (z : List Char),
          Ends (grouped below.width below.chars ++ ' ' :: z) := fun below z =>
        below.ends_grouped (.cons (by decide) z)
      rw [happ, happ, List.append_delimiter_inj flags.not_mem_marks flags'.not_mem_marks,
        EdgeFlags.marks_inj, Node.full_append_inj hn hn' (hends _ _) (hends _ _),
        grouped_append_inj fun hx hy => ihb hbelow hbelow' hx hy]
      have hothers : rest.chars ++ x = rest'.chars ++ y ↔ rest.Matches Node.SameMarks rest' ∧ x = y :=
        ihr hrest hrest' hx hy
      rw [hothers]
      simp only [Matches, Node.SameMarks, and_assoc]

theorem Matches.congr {R S : Node → Node → Prop}
    (hRS : ∀ n ∈ bs.labels, ∀ m ∈ bs'.labels, (R n m ↔ S n m)) :
    bs.Matches R bs' ↔ bs.Matches S bs' := by
  induction bs generalizing bs' with
  | nil => cases bs' <;> exact Iff.rfl
  | cons flags n below rest ihb ihr =>
    cases bs' with
    | nil => exact Iff.rfl
    | cons flags' n' below' rest' =>
      simp only [labels_cons, List.mem_cons, List.mem_append] at hRS
      rw [Matches, Matches, hRS n (Or.inl rfl) n' (Or.inl rfl),
        ihb fun n hn m hm => hRS n (Or.inr (Or.inl hn)) m (Or.inr (Or.inl hm)),
        ihr fun n hn m hm => hRS n (Or.inr (Or.inr hn)) m (Or.inr (Or.inr hm))]

end Branches

namespace Tree

variable {t u : Tree}

theorem Matches.congr {R S : Node → Node → Prop}
    (hRS : ∀ n ∈ t.labels, ∀ m ∈ u.labels, (R n m ↔ S n m)) : t.Matches R u ↔ t.Matches S u := by
  simp only [labels, List.mem_cons] at hRS
  rw [Tree.Matches, Tree.Matches, hRS t.label (Or.inl rfl) u.label (Or.inl rfl),
    Branches.Matches.congr fun n hn m hm => hRS n (Or.inr hn) m (Or.inr hm)]

/-- Trees have the same rendering if, and only if, their shapes, flags and marks are the same. -/
theorem chars_inj (ht : ∀ n ∈ t.labels, n.Plain) (hu : ∀ n ∈ u.labels, n.Plain) :
    t.chars = u.chars ↔ t.Matches Node.SameMarks u := by
  rw [labels, List.forall_mem_cons] at ht hu
  have hends : ∀ bs : Branches, Ends (grouped bs.width bs.chars) := fun bs => by
    have hnil := bs.ends_grouped (Begins.nil _)
    rwa [List.append_nil] at hnil
  rw [chars, chars, Node.full_append_inj ht.1 hu.1 (hends _) (hends _), Tree.Matches]
  refine and_congr_right fun _ => ?_
  -- the end of an edge may be put behind both
  have hgroup : grouped t.below.width t.below.chars ++ [' ']
        = grouped u.below.width u.below.chars ++ [' '] ↔
      t.below.Matches Node.SameMarks u.below ∧ [] = [] :=
    Branches.grouped_append_inj (fun hx hy => Branches.chars_append_inj ht.2 hu.2 hx hy) [] []
  rwa [List.append_left_inj, and_iff_left rfl] at hgroup

end Tree

namespace Pattern

variable {p q : Pattern} {f g : Forest} {h i j : Handle} {t : Tree}

/-! ### Renderings of patterns -/

theorem exists_mapM_of_gather {visit : Handle → Option Tree} {render : Handle → Option String}
    (hvisit : ∀ h t, visit h = some t → ∃ s, render h = some s ∧ s.toList = t.chars)
    {es : List Edge} {bs : Branches} (hbs : gather visit es = some bs) :
    ∃ l, (es.mapM fun e => do return e.marks ++ " " ++ (← render e.child) ++ " ") = some l ∧
      (String.join l).toList = bs.chars ∧ es.length = bs.width := by
  induction es generalizing bs with
  | nil =>
    cases hbs
    exact ⟨[], rfl, rfl, rfl⟩
  | cons e es ih =>
    obtain ⟨t, ht, hbs⟩ := Option.bind_eq_some_iff.mp hbs
    obtain ⟨rest, hrest, hbs⟩ := Option.bind_eq_some_iff.mp hbs
    cases hbs
    obtain ⟨s, hs, hchars⟩ := hvisit e.child t ht
    obtain ⟨l, hl, hjoin, hwidth⟩ := ih hrest
    refine ⟨(e.marks ++ " " ++ s ++ " ") :: l, ?_, ?_, ?_⟩
    · rw [List.mapM_cons, hs, hl]
      rfl
    · rw [String.toList_join] at hjoin ⊢
      rw [List.flatMap_cons, hjoin]
      simp [Branches.chars, hchars, Tree.chars]
    · rw [List.length_cons, hwidth, Branches.width]

/-- The rendering of a subtree is that of the tree taken out. -/
theorem toList_render (ht : p.extract h = some t) :
    ∃ s, p.render Node.full h = some s ∧ s.toList = t.chars := by
  rw [extract] at ht
  rw [render]
  -- both walks go down with the same fuel
  generalize p.size = fuel at ht ⊢
  induction fuel generalizing h t with
  | zero => cases ht
  | succ fuel ih =>
    rw [extractWith] at ht
    simp only [Option.bind_eq_bind, Option.bind_some] at ht
    obtain ⟨n, hn, ht⟩ := Option.bind_eq_some_iff.mp ht
    obtain ⟨bs, hbs, ht⟩ := Option.bind_eq_some_iff.mp ht
    cases ht
    obtain ⟨l, hl, hjoin, hwidth⟩ := exists_mapM_of_gather (fun _ _ => ih) hbs
    refine ⟨n.full ++ if 1 < n.edges.length then "(" ++ String.join l ++ ")" else String.join l, ?_, ?_⟩
    · rw [renderFrom, hn, Option.bind_eq_bind, Option.bind_some, hl]
      rfl
    · rw [String.toList_append, Tree.chars, grouped, hwidth, ← hjoin]
      refine congrArg (n.full.toList ++ ·) ?_
      split <;> simp

/-! ### Patterns that compare as equal -/

/-- A finite pattern is rendered as the tree that it is. -/
theorem Unfolds.exists_render (hp : p.Unfolds f) :
    ∃ t s, p.render Node.full p.root = some s ∧ s.toList = t.chars ∧
      p.BearsTree (fun n k => k = n.detached) p.root t ∧
      t.labels = (p.nodesOn f).map Node.detached := by
  obtain ⟨below, rfl⟩ := Forest.exists_eq_of_roots_singleton hp.roots_eq
  obtain ⟨t, ht⟩ := hp.spans.exists_extract
  obtain ⟨s, hs, hchars⟩ := toList_render ht
  exact ⟨t, s, hs, hchars, bearsTree_of_extract ht, hp.spans.labels_of_extract ht⟩

/-- Two subtrees compare as equal if, and only if, they have the same rendering: the label of the top
node is the beginning of it. -/
theorem compareNodes_eq_eq_iff {n m : Node} {s s' : String} (hn : p.node? i = some n)
    (hm : q.node? j = some m) (hs : p.render Node.full i = some s)
    (hs' : q.render Node.full j = some s') (hlabel : s = s' → n.full = m.full) :
    ∃ o, p.compareNodes i q j = some o ∧ (o = .eq ↔ s = s') := by
  cases hfirst : Ord.compare n.full m.full with
  | eq =>
    refine ⟨Ord.compare s s', ?_, Std.compare_eq_iff_eq⟩
    simp [compareNodes, hn, hm, hs, hs', hfirst]
  | lt =>
    -- labels that differ decide at once, and so do the renderings that begin with them
    refine ⟨.lt, by simp [compareNodes, hn, hm, hfirst], iff_of_false nofun fun h => ?_⟩
    rw [hlabel h, Std.compare_self] at hfirst
    cases hfirst
  | gt =>
    refine ⟨.gt, by simp [compareNodes, hn, hm, hfirst], iff_of_false nofun fun h => ?_⟩
    rw [hlabel h, Std.compare_self] at hfirst
    cases hfirst

/-- Two finite patterns whose names and constants do not hold delimiters compare as equal if, and only
if, their trees have the same shape in child order, the same flags on their edges, and nodes with the
same marks.  If the marks of all nodes tell their signatures, these are the same. -/
theorem compare_eq_eq_iff (hp : p.Unfolds f) (hq : q.Unfolds g) (hplain : ∀ n ∈ p.nodesOn f, n.Plain)
    (hplain' : ∀ n ∈ q.nodesOn g, n.Plain) :
    ∃ o, p.compare q = some o ∧ (o = .eq ↔ p.Corresponds Node.SameMarks q p.root q.root) ∧
      ((∀ n ∈ p.nodesOn f, n.Legible) → (∀ n ∈ q.nodesOn g, n.Legible) →
        (o = .eq ↔ p.Corresponds Node.SameSignature q p.root q.root)) := by
  obtain ⟨t, s, hs, hchars, hbears, hlabels⟩ := hp.exists_render
  obtain ⟨u, s', hs', hchars', hbears', hlabels'⟩ := hq.exists_render
  have ht : ∀ n ∈ t.labels, n.Plain := by
    rw [hlabels, List.forall_mem_map]
    exact fun n hn => (hplain n hn).detached
  have hu : ∀ n ∈ u.labels, n.Plain := by
    rw [hlabels', List.forall_mem_map]
    exact fun n hn => (hplain' n hn).detached
  have hmarks : s = s' ↔ t.Matches Node.SameMarks u := by
    rw [← Tree.chars_inj ht hu, ← hchars, ← hchars', String.toList_inj]
  have hcorresponds : p.Corresponds Node.SameMarks q p.root q.root ↔ t.Matches Node.SameMarks u :=
    hbears.corresponds_iff hbears' fun n k m l hk hl => hk ▸ hl ▸ Iff.rfl
  have hcorresponds' : p.Corresponds Node.SameSignature q p.root q.root ↔
      t.Matches Node.SameSignature u :=
    hbears.corresponds_iff hbears' fun n k m l hk hl => hk ▸ hl ▸ Iff.rfl
  obtain ⟨n, hn, hnt, -⟩ := hbears
  obtain ⟨m, hm, hmu, -⟩ := hbears'
  -- a rendering begins with the label of its top node
  have hlabel : s = s' → n.full = m.full := by
    intro h
    have hfull := (Node.full_append_inj (ht _ List.mem_cons_self) (hu _ List.mem_cons_self)
      (Begins.nil _) (Begins.nil _)).mpr ⟨(hmarks.mp h).1, rfl⟩
    rw [List.append_nil, List.append_nil, String.toList_inj, hnt, hmu] at hfull
    exact hfull
  obtain ⟨o, ho, heq⟩ := compareNodes_eq_eq_iff hn hm hs hs' hlabel
  refine ⟨o, ho, heq.trans (hmarks.trans hcorresponds.symm), fun hlegible hlegible' => ?_⟩
  have hsignature : t.Matches Node.SameMarks u ↔ t.Matches Node.SameSignature u := by
    refine Tree.Matches.congr fun n hn m hm => Node.marks_eq_iff ?_ ?_
    · rw [hlabels, List.mem_map] at hn
      obtain ⟨k, hk, rfl⟩ := hn
      exact (hlegible k hk).detached
    · rw [hlabels', List.mem_map] at hm
      obtain ⟨k, hk, rfl⟩ := hm
      exact (hlegible' k hk).detached
  calc o = .eq ↔ s = s' := heq
    _ ↔ t.Matches Node.SameMarks u := hmarks
    _ ↔ t.Matches Node.SameSignature u := hsignature
    _ ↔ p.Corresponds Node.SameSignature q p.root q.root := hcorresponds'.symm

/-- A book whose tag is required, with a title. -/
def titledBook : Pattern where
  name := "titled"
  nodes := #[{ Node.make ⟨0⟩ "" "book" with
      stores := ⟨true, false, false, false⟩, requires := ⟨false, true, false⟩,
      edges := [⟨⟨true, false, true⟩, 1⟩] },
    { Node.make ⟨1⟩ "dc" "title" with
      parent := some 0, stores := ⟨false, false, true, false⟩, requires := ⟨false, false, true⟩ }]
  root := 0

/-- The same book, with the title in the first slot. -/
def bookBehindTitle : Pattern where
  name := "behind"
  nodes := #[{ Node.make ⟨1⟩ "dc" "title" with
      parent := some 1, stores := ⟨false, false, true, false⟩, requires := ⟨false, false, true⟩ },
    { Node.make ⟨0⟩ "" "book" with
      stores := ⟨true, false, false, false⟩, requires := ⟨false, true, false⟩,
      edges := [⟨⟨true, false, true⟩, 0⟩] }]
  root := 1

/-- The theorem at two patterns that differ in their slots alone. -/
theorem compare_eq_eq_iff_titledBook : titledBook.compare bookBehindTitle = some .eq ∧
    titledBook.Corresponds Node.SameMarks bookBehindTitle 0 1 := by
  have hfirst : titledBook.Unfolds (.cons 0 (.cons 1 .nil .nil) .nil) := by
    refine ⟨?_, rfl⟩
    simp only [Spans]
    decide
  have hsecond : bookBehindTitle.Unfolds (.cons 1 (.cons 0 .nil .nil) .nil) := by
    refine ⟨?_, rfl⟩
    simp only [Spans]
    decide
  have hsame : titledBook.Corresponds Node.SameSignature bookBehindTitle 0 1 :=
    .node rfl rfl rfl rfl (.cons (.node rfl rfl rfl rfl .nil) .nil)
  obtain ⟨o, ho, hmarks, hsignature⟩ :=
    compare_eq_eq_iff hfirst hsecond (by decide +kernel) (by decide +kernel)
  have heq : o = .eq := (hsignature (by decide +kernel) (by decide +kernel)).mpr hsame
  exact ⟨heq ▸ ho, hmarks.mp heq⟩

/-- A book that requires something, and nothing else. -/
def requiringBook (r : Requires) : Pattern :=
  singleton "book" { Node.make ⟨0⟩ "" "book" with requires := r }

/-- Requirements of the identifier and of the tag are marked alike: such patterns compare as equal,
and their signatures differ. -/
theorem not_compare_eq_eq_iff_requiringBook :
    let p := requiringBook ⟨true, false, false⟩
    let q := requiringBook ⟨false, true, false⟩
    p.Unfolds (.cons 0 .nil .nil) ∧ q.Unfolds (.cons 0 .nil .nil) ∧
      (∀ n ∈ p.nodesOn (.cons 0 .nil .nil), n.Plain) ∧
      (∀ n ∈ q.nodesOn (.cons 0 .nil .nil), n.Plain) ∧
      p.compare q = some .eq ∧ ¬ p.Corresponds Node.SameSignature q p.root q.root := by
  have hspans : ∀ r, (requiringBook r).Unfolds (.cons 0 .nil .nil) := fun r =>
    ⟨⟨rfl, trivial, trivial⟩, rfl⟩
  refine ⟨hspans _, hspans _, by decide +kernel, by decide +kernel, by decide +kernel, fun h => ?_⟩
  obtain ⟨hsame, -⟩ := (corresponds_iff rfl rfl).mp h
  exact absurd (congrArg Signature.requires hsame) (by decide)

end Pattern

end TwigAlgebra
