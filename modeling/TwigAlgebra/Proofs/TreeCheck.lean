import TwigAlgebra.Pattern.Render
import TwigAlgebra.Proofs.Copies
import TwigAlgebra.Proofs.Shedding

/-!
# The check of a pattern is exact

Whatever a pattern from outside holds, its check comes to an end, for no slot is entered twice.  It
accepts exactly the patterns whose reached slots are a tree, said in terms of edges and links alone,
and every walk over such a pattern from a reached slot comes to an end inside the arena.

A pattern may be a tree but for its codes.  The check gets through such a pattern as long as it does
not meet a code twice, and reports nothing else.

## Main definitions

* `Pattern.Checks` — what the loop of the check comes to, with as many steps as it takes.
* `Pattern.Orderly`, `Pattern.IsTree` — the reached slots are a tree, without and with regard to
  codes.
* `Pattern.Walkable` — the walks come to an end inside the arena.

## Main results

* `Pattern.Orderly.validate_cases` — the check of an orderly pattern can only find a repeated code.
* `Pattern.validate_exact` — the check comes to an end, accepts exactly the trees, and trees are safe
  to walk.
-/

namespace TwigAlgebra.Pattern

open Relation

variable {p : Pattern} {f : Forest} {h c i j : Handle} {stack : List (Handle × Option Handle)}
  {seen : Seen}

/-! ### The check comes to an end -/

/-- What the loop of the check comes to from a stack, with as many steps as it takes. -/
inductive Checks (p : Pattern) :
    List (Handle × Option Handle) → Seen → Except PlanError Unit → Prop
  /-- The stack is empty, and nothing was refused. -/
  | done (seen : Seen) : p.Checks [] seen (.ok ())
  /-- The slot on top of the stack is refused. -/
  | refused {h : Handle} {parent : Option Handle} {stack : List (Handle × Option Handle)}
      {seen : Seen} {e : PlanError} (hslot : p.checkSlot h parent seen = .error e) :
      p.Checks ((h, parent) :: stack) seen (.error e)
  /-- The slot on top of the stack is accepted, and its children take its place. -/
  | accepted {h : Handle} {parent : Option Handle} {stack : List (Handle × Option Handle)}
      {seen seen' : Seen} {n : Node} {r : Except PlanError Unit}
      (hslot : p.checkSlot h parent seen = .ok (n, seen'))
      (hrest : p.Checks ((n.children.map fun c => (c, some h)).reverse ++ stack) seen' r) :
      p.Checks ((h, parent) :: stack) seen r

/-- A step for every slot on the stack and for every edge not followed yet is enough, for no slot is
entered twice. -/
theorem checks_checkAll {steps : Nat} (hsteps : stack.length + p.openEdges seen.slots ≤ steps) :
    p.Checks stack seen (p.checkAll steps stack seen) := by
  induction steps generalizing stack seen with
  | zero =>
    obtain rfl : stack = [] := List.length_eq_zero_iff.mp (by omega)
    exact .done seen
  | succ steps ih =>
    cases stack with
    | nil => exact .done seen
    | cons link stack =>
      obtain ⟨h, parent⟩ := link
      rw [checkAll]
      cases hslot : p.checkSlot h parent seen with
      | error e => exact .refused hslot
      | ok r =>
        obtain ⟨n, hn, -, hfresh, rfl⟩ := checkSlot_eq_ok_iff.mp hslot
        refine .accepted hslot (ih ?_)
        -- the edges of the slot are followed now, and its children are on the stack instead
        have hopen := openEdges_cons hn hfresh.1
        have hchildren : n.children.length = n.edges.length := List.length_map _
        rw [List.length_append, List.length_reverse, List.length_map]
        rw [List.length_cons, hopen] at hsteps
        show _ + p.openEdges (h :: seen.slots) ≤ steps
        omega

theorem checks_validate (p : Pattern) : p.Checks [(p.root, none)] .nothing p.validate := by
  refine checks_checkAll ?_
  rw [edgeCount_eq, List.length_singleton, Nat.add_comm]
  exact Nat.le_refl _

/-! ### Trees but for their codes -/

/-- The reached slots are a tree, apart from codes. -/
structure Orderly (p : Pattern) : Prop where
  /-- The root exists and has no parent. -/
  root : ∃ n, p.node? p.root = some n ∧ n.parent = none
  /-- Every edge of a reached node leads to an existing slot. -/
  closed : ∀ h c, p.Reached h → p.Leads h c → c < p.size
  /-- Every reached node but the root is entered by exactly one edge of reached nodes, and links to
  the owner of that edge. -/
  entered : ∀ c, p.Reached c → c ≠ p.root → ∃ h, p.Reached h ∧ p.LinksTo c h ∧
    ∀ i, p.Reached i → p.edgesTo i c = if i = h then 1 else 0
  /-- No edge leads back to the root. -/
  rootless : ∀ h, p.Reached h → ¬ p.Leads h p.root
  /-- Every variable on a reached node records the code of that node. -/
  recorded : ∀ h n, p.Reached h → p.node? h = some n → ∀ v ∈ n.vars, v.node = some n.code

/-- The reached slots are a tree with different codes. -/
structure IsTree (p : Pattern) : Prop extends Orderly p where
  /-- Different reached nodes have different codes. -/
  distinct : ∀ i j n m, p.Reached i → p.Reached j → p.node? i = some n → p.node? j = some m →
    n.code = m.code → i = j

/-- Two reached nodes have the code. -/
def Shares (p : Pattern) (code : Code) : Prop :=
  ∃ i j n m, i ≠ j ∧ p.Reached i ∧ p.Reached j ∧ p.node? i = some n ∧ p.node? j = some m ∧
    n.code = code ∧ m.code = code

namespace Orderly

theorem exists_node (ho : p.Orderly) (hh : p.Reached h) : ∃ n, p.node? h = some n := by
  rcases hh.cases_tail with rfl | ⟨i, hi, hlead⟩
  · obtain ⟨n, hn, -⟩ := ho.root
    exact ⟨n, hn⟩
  · exact exists_node_of_lt_size (ho.closed i h hi hlead)

/-- The owner of an edge is the parent of the child. -/
theorem linksTo_of_leads (ho : p.Orderly) (hh : p.Reached h) (hlead : p.Leads h c) :
    p.LinksTo c h := by
  have hne : c ≠ p.root := fun heq => ho.rootless h hh (heq ▸ hlead)
  obtain ⟨i, -, hlink, hcount⟩ := ho.entered c (hh.leads hlead) hne
  have hpos := leads_iff.mp hlead
  rw [hcount h hh] at hpos
  split at hpos
  case isTrue heq => rwa [heq]
  case isFalse => omega

/-- No child is entered twice from one node. -/
theorem nodup_children (ho : p.Orderly) (hh : p.Reached h) {n : Node} (hn : p.node? h = some n) :
    n.children.Nodup := by
  rw [List.nodup_iff_count_le_one]
  intro c
  by_cases hc : c ∈ n.children
  · have hlead : p.Leads h c := ⟨n, hn, hc⟩
    have hne : c ≠ p.root := fun heq => ho.rootless h hh (heq ▸ hlead)
    obtain ⟨i, -, -, hcount⟩ := ho.entered c (hh.leads hlead) hne
    rw [← edgesTo_of_node? hn, hcount h hh]
    split <;> omega
  · rw [List.count_eq_zero_of_not_mem hc]
    omega

end Orderly

/-! ### The check of an orderly pattern -/

/-- Where the check of an orderly pattern can stand. -/
structure Underway (p : Pattern) (stack : List (Handle × Option Handle)) (seen : Seen) : Prop where
  /-- No slot is met twice. -/
  slots : (stack.map Prod.fst ++ seen.slots).Nodup
  /-- The stack holds the root, or slots that edges of entered slots lead to. -/
  pending : ∀ c parent, (c, parent) ∈ stack →
    parent = none ∧ c = p.root ∨ ∃ h ∈ seen.slots, parent = some h ∧ p.Leads h c
  /-- Every entered slot is the root, or an edge of an entered slot leads to it. -/
  entered : ∀ c ∈ seen.slots, c = p.root ∨ ∃ h ∈ seen.slots, p.Leads h c
  /-- Every entered slot is reached. -/
  reached : ∀ h ∈ seen.slots, p.Reached h
  /-- The codes met are those of entered slots. -/
  codes : ∀ code ∈ seen.codes, ∃ h ∈ seen.slots, ∃ n, p.node? h = some n ∧ n.code = code

theorem underway_start (p : Pattern) : p.Underway [(p.root, none)] .nothing where
  slots := List.nodup_singleton _
  pending := by
    intro c parent hmem
    cases List.mem_singleton.mp hmem
    exact Or.inl ⟨rfl, rfl⟩
  entered := nofun
  reached := nofun
  codes := nofun

namespace Underway

variable {parent : Option Handle}

theorem not_mem_slots (hu : p.Underway ((h, parent) :: stack) seen) : h ∉ seen.slots := fun hmem =>
  (List.nodup_cons.mp hu.slots).1 (List.mem_append_right _ hmem)

/-- The slot on top of the stack is reached, and links to the parent listed with it. -/
theorem top (ho : p.Orderly) (hu : p.Underway ((h, parent) :: stack) seen) :
    ∃ n, p.Reached h ∧ p.node? h = some n ∧ n.parent = parent := by
  rcases hu.pending h parent List.mem_cons_self with ⟨rfl, rfl⟩ | ⟨i, hi, rfl, hlead⟩
  · obtain ⟨n, hn, hparent⟩ := ho.root
    exact ⟨n, .refl, hn, hparent⟩
  · obtain ⟨n, hn, hparent⟩ := ho.linksTo_of_leads (hu.reached i hi) hlead
    exact ⟨n, (hu.reached i hi).leads hlead, hn, hparent⟩

/-- No slot met so far is a child of the slot on top of the stack: an edge of an entered slot leads
to it, or it is the root. -/
theorem not_leads (ho : p.Orderly) (hu : p.Underway ((h, parent) :: stack) seen)
    (hc : c ∈ ((h, parent) :: stack).map Prod.fst ++ seen.slots) : ¬ p.Leads h c := by
  intro hlead
  obtain ⟨n, hreached, -, -⟩ := hu.top ho
  -- what was met is the root, or some entered slot leads to it
  have howner : c = p.root ∨ ∃ i ∈ seen.slots, p.Leads i c := by
    rcases List.mem_append.mp hc with hstack | hslots
    · obtain ⟨⟨c', parent'⟩, hmem, rfl⟩ := List.mem_map.mp hstack
      rcases hu.pending c' parent' hmem with ⟨-, hroot⟩ | ⟨i, hi, -, hi'⟩
      · exact Or.inl hroot
      · exact Or.inr ⟨i, hi, hi'⟩
    · exact hu.entered c hslots
  rcases howner with rfl | ⟨i, hi, hi'⟩
  · exact ho.rootless h hreached hlead
  · have hlink := ho.linksTo_of_leads (hu.reached i hi) hi'
    rw [hlink.unique (ho.linksTo_of_leads hreached hlead)] at hi
    exact hu.not_mem_slots hi

/-- Entering the slot on top of the stack. -/
theorem step (ho : p.Orderly) (hu : p.Underway ((h, parent) :: stack) seen) {n : Node}
    (hh : p.Reached h) (hn : p.node? h = some n) :
    p.Underway ((n.children.map fun c => (c, some h)).reverse ++ stack)
      ⟨h :: seen.slots, n.code :: seen.codes⟩ where
  slots := by
    have hfst : ((n.children.map fun c => (c, some h)).reverse ++ stack).map Prod.fst
        = n.children.reverse ++ stack.map Prod.fst := by
      rw [List.map_append, List.map_reverse, List.map_map]
      exact congrArg (fun l => l.reverse ++ _) (List.map_id n.children)
    -- no child of the slot was met before
    have hdisjoint : List.Disjoint n.children.reverse (stack.map Prod.fst ++ h :: seen.slots) := by
      intro c hc hmet
      refine hu.not_leads ho ?_ ⟨n, hn, List.mem_reverse.mp hc⟩
      simp only [List.map_cons, List.cons_append, List.mem_cons, List.mem_append] at hmet ⊢
      tauto
    have hrest : (stack.map Prod.fst ++ h :: seen.slots).Nodup :=
      List.perm_middle.symm.nodup hu.slots
    rw [hfst, List.append_assoc]
    exact List.Nodup.append (List.nodup_reverse.mpr (ho.nodup_children hh hn)) hrest hdisjoint
  pending c parent' hmem := by
    rcases List.mem_append.mp hmem with hchild | hstack
    · obtain ⟨c', hc', heq⟩ := List.mem_map.mp (List.mem_reverse.mp hchild)
      cases heq
      exact Or.inr ⟨h, List.mem_cons_self, rfl, n, hn, hc'⟩
    · rcases hu.pending c parent' (List.mem_cons_of_mem _ hstack) with hroot | ⟨i, hi, hlead⟩
      · exact Or.inl hroot
      · exact Or.inr ⟨i, List.mem_cons_of_mem _ hi, hlead⟩
  entered c hc := by
    have hprevious : c = p.root ∨ ∃ i ∈ seen.slots, p.Leads i c := by
      rcases List.mem_cons.mp hc with rfl | hc
      · rcases hu.pending c parent List.mem_cons_self with ⟨-, hroot⟩ | ⟨i, hi, -, hlead⟩
        · exact Or.inl hroot
        · exact Or.inr ⟨i, hi, hlead⟩
      · exact hu.entered c hc
    rcases hprevious with hroot | ⟨i, hi, hlead⟩
    · exact Or.inl hroot
    · exact Or.inr ⟨i, List.mem_cons_of_mem _ hi, hlead⟩
  reached i hi := by
    rcases List.mem_cons.mp hi with rfl | hi
    · exact hh
    · exact hu.reached i hi
  codes code hcode := by
    rcases List.mem_cons.mp hcode with rfl | hcode
    · exact ⟨h, List.mem_cons_self, n, hn, rfl⟩
    · obtain ⟨i, hi, m, hm, hmcode⟩ := hu.codes code hcode
      exact ⟨i, List.mem_cons_of_mem _ hi, m, hm, hmcode⟩

end Underway

/-- The check of an orderly pattern accepts, unless it meets a code twice. -/
theorem Orderly.checkAll_cases (ho : p.Orderly) {steps : Nat} (hu : p.Underway stack seen) :
    p.checkAll steps stack seen = .ok () ∨
      ∃ code, p.Shares code ∧ p.checkAll steps stack seen = .error (.malformed code .duplicateCode)
    := by
  induction steps generalizing stack seen with
  | zero => cases stack <;> exact Or.inl rfl
  | succ steps ih =>
    cases stack with
    | nil => exact Or.inl rfl
    | cons link stack =>
      obtain ⟨h, parent⟩ := link
      obtain ⟨n, hreached, hn, hparent⟩ := hu.top ho
      by_cases hcode : n.code ∈ seen.codes
      · -- another slot with the code was entered before
        right
        obtain ⟨i, hi, m, hm, hmcode⟩ := hu.codes n.code hcode
        have hne : h ≠ i := fun heq => hu.not_mem_slots (heq ▸ hi)
        refine ⟨n.code, ⟨h, i, n, m, hne, hreached, hu.reached i hi, hn, hm, rfl, hmcode⟩, ?_⟩
        rw [checkAll, checkSlot, hn]
        simp [hu.not_mem_slots, hcode]
        rfl
      · have hslot : p.checkSlot h parent seen
            = .ok (n, ⟨h :: seen.slots, n.code :: seen.codes⟩) :=
          checkSlot_eq_ok_iff.mpr ⟨n, hn, hparent,
            ⟨hu.not_mem_slots, hcode, ho.recorded h n hreached hn⟩, rfl⟩
        rw [checkAll, hslot]
        exact ih (hu.step ho hreached hn)

/-- The only fault that the check can find in an orderly pattern is a code of two reached nodes. -/
theorem Orderly.validate_cases (ho : p.Orderly) :
    p.validate = .ok () ∨
      ∃ code, p.Shares code ∧ p.validate = .error (.malformed code .duplicateCode) :=
  ho.checkAll_cases p.underway_start

theorem IsTree.validate_eq_ok (ht : p.IsTree) : p.validate = .ok () := by
  rcases ht.toOrderly.validate_cases with hok | ⟨code, ⟨i, j, n, m, hne, hi, hj, hn, hm, rfl, hcode⟩, -⟩
  · exact hok
  · exact absurd (ht.distinct i j n m hi hj hn hm hcode.symm) hne

/-! ### What the check accepts -/

namespace Sound

theorem exists_spans (hp : p.Sound f) : ∃ below, f = .cons p.root below .nil :=
  Forest.exists_eq_of_roots_singleton hp.roots_eq

/-- The slots of the tree are the reached slots. -/
theorem reached_iff (hp : p.Sound f) : p.Reached h ↔ h ∈ f.handles := by
  obtain ⟨below, rfl⟩ := hp.exists_spans
  exact hp.spans.mem_iff_above.symm

/-- A child links to the owner of the edge. -/
theorem linksTo_of_leads (hp : p.Sound f) (hh : h ∈ f.handles) (hlead : p.Leads h c) :
    p.LinksTo c h := by
  obtain ⟨n, hn, hc⟩ := hlead
  obtain ⟨m, hm⟩ := hp.spans.exists_node
    (hp.spans.mem_of_mem_children hh (children?_eq_some_iff.mpr ⟨n, hn, rfl⟩) hc)
  exact ⟨m, hm, hp.hangs.parent_eq hh hn hc hm⟩

/-- Two edges of a node do not lead to one child. -/
theorem edgesTo_le_one (hp : p.Sound f) (hh : h ∈ f.handles) (c : Handle) : p.edgesTo h c ≤ 1 := by
  obtain ⟨below, ⟨hchildren, -⟩, hsub, -⟩ := hp.spans.exists_subtree hh
  obtain ⟨n, hn, hroots⟩ := children?_eq_some_iff.mp hchildren
  have hnodup : below.handles.Nodup := (List.nodup_cons.mp (hp.nodup.sublist hsub)).2
  have hchildrenNodup : n.children.Nodup := by
    rw [hroots]
    exact (List.nodup_append.mp (below.handles_perm.nodup hnodup)).1
  rw [edgesTo_of_node? hn]
  exact List.nodup_iff_count_le_one.mp hchildrenNodup c

theorem isTree (hp : p.Sound f) : p.IsTree where
  root := by
    obtain ⟨n, hn⟩ := hp.spans.exists_node (hp.reached_iff.mp .refl)
    exact ⟨n, hn, hp.hangs.parent_eq_of_mem List.mem_cons_self hn⟩
  closed h c hh hlead := hp.spans.lt_size (hp.reached_iff.mp (hh.leads hlead))
  entered c hc hne := by
    rcases hp.spans.exists_parent (hp.reached_iff.mp hc) with htop | ⟨h, hh, cs, hcs, hmem⟩
    · rw [hp.roots_eq, List.mem_singleton] at htop
      exact absurd htop hne
    · -- a slot other than the root has a parent in the forest, which its link names
      obtain ⟨n, hn, rfl⟩ := children?_eq_some_iff.mp hcs
      have hlead : p.Leads h c := ⟨n, hn, hmem⟩
      have hlink := hp.linksTo_of_leads hh hlead
      refine ⟨h, hp.reached_iff.mpr hh, hlink, fun i hi => ?_⟩
      have hle := hp.edgesTo_le_one (hp.reached_iff.mp hi) c
      split
      case isTrue heq =>
        subst i
        have hpos := leads_iff.mp hlead
        omega
      case isFalse hne' =>
        by_contra hpos
        have hlead' : p.Leads i c := leads_iff.mpr (by omega)
        exact hne' ((hp.linksTo_of_leads (hp.reached_iff.mp hi) hlead').unique hlink)
  rootless h hh := by
    rintro ⟨n, hn, hroot⟩
    exact hp.not_mem_children_root (hp.reached_iff.mp hh) hn hroot
  recorded h n hh hn := hp.recorded n (mem_nodesOn_iff.mpr ⟨h, hp.reached_iff.mp hh, hn⟩)
  distinct i j n m hi hj hn hm hcode :=
    hp.eq_of_code_eq (hp.reached_iff.mp hi) (hp.reached_iff.mp hj) hn hm hcode

end Sound

theorem validate_eq_ok_iff_isTree : p.validate = .ok () ↔ p.IsTree := by
  constructor
  · intro hok
    obtain ⟨f, hp⟩ := validate_eq_ok_iff.mp hok
    exact hp.isTree
  · exact IsTree.validate_eq_ok

theorem IsTree.exists_sound (ht : p.IsTree) : ∃ f, p.Sound f :=
  validate_eq_ok_iff.mp ht.validate_eq_ok

/-! ### Walks from reached slots -/

/-- The walks from reached slots come to an end inside the arena. -/
structure Walkable (p : Pattern) : Prop where
  /-- The pre-order listing has every reached slot once. -/
  preorder : ∃ l, p.preorder = some l ∧ l.Nodup ∧ ∀ h, h ∈ l ↔ p.Reached h
  /-- The listing by levels has every slot at or below the first once. -/
  bfs : ∀ h, p.Reached h → ∃ l, p.bfs h = some l ∧ l.Nodup ∧ ∀ i, i ∈ l ↔ p.Above h i
  /-- The count is the length of the listing. -/
  count : ∀ h, p.Reached h → ∃ l, p.bfs h = some l ∧ p.count h = some l.length
  /-- Codes can be searched. -/
  locate : ∀ code, ∃ found, p.locate code = some found
  /-- The pattern can be copied. -/
  copy : ∃ q, p.copy = some q
  /-- Subtrees can be rendered under every label. -/
  render : ∀ label h, p.Reached h → ∃ s, p.render label h = some s
  /-- The pattern can be pruned to every code. -/
  pruneTo : ∀ code, ∃ found q, p.pruneTo code = some (found, q)
  /-- It can be asked of every reached node whether an ancestor returns anything. -/
  topReturning : ∀ h, p.Reached h → ∃ answer q, p.topReturning h = some (answer, q)

theorem exists_firstAnswer {α β : Type} {g : α → Option (Option β)} {l : List α}
    (hl : ∀ a ∈ l, ∃ o, g a = some o) : ∃ o, firstAnswer g l = some o := by
  induction l with
  | nil => exact ⟨none, rfl⟩
  | cons a l ih =>
    obtain ⟨o, ho⟩ := hl a List.mem_cons_self
    rw [firstAnswer, ho]
    cases o with
    | some b => exact ⟨some b, rfl⟩
    | none => exact ih fun a ha => hl a (List.mem_cons_of_mem _ ha)

namespace Spans

variable {below : Forest}

theorem exists_locateFrom (code : Code) (hf : p.Spans (.cons h below .nil)) :
    ∃ o, p.locateFrom code p.size h = some o := by
  refine hf.exists_descent ?_ hf.height_le_size List.mem_cons_self
  intro fuel h n hn hchildren
  rw [locateFrom, hn]
  by_cases hcode : n.code = code
  · exact ⟨some h, by simp [hcode]⟩
  · obtain ⟨o, ho⟩ := exists_firstAnswer hchildren
    exact ⟨o, by simp [hcode, ho]⟩

theorem exists_render (label : Node → String) (hf : p.Spans (.cons h below .nil)) :
    ∃ s, p.render label h = some s := by
  refine hf.exists_descent ?_ hf.height_le_size List.mem_cons_self
  intro fuel h n hn hchildren
  have hbranches : ∀ e ∈ n.edges, ∃ s, (do
      return e.marks ++ " " ++ (← p.renderFrom label fuel e.child) ++ " " : Option String)
        = some s := by
    intro e he
    obtain ⟨s, hs⟩ := hchildren e he
    exact ⟨_, by rw [hs]; rfl⟩
  obtain ⟨branches, hmap, -⟩ := List.exists_mapM hbranches
  rw [renderFrom, hn]
  simp only [Option.bind_eq_bind, Option.bind_some] at hmap ⊢
  exact ⟨_, by rw [hmap]; rfl⟩

end Spans

/-- The walk up from a reached slot passes reached slots, and never one twice. -/
theorem Sound.exists_topReturning (hp : p.Sound f) (hh : p.Reached h) :
    ∃ answer q, p.topReturning h = some (answer, q) := by
  have ht := hp.isTree
  -- a step up is a step down from the parent, as links and edges agree
  have hup : ∀ i j, p.Reached i → p.LinksTo i j → p.Reached j ∧ p.Leads j i := by
    intro i j hi hlink
    have hne : i ≠ p.root := by
      rintro rfl
      obtain ⟨m, hm, hnone⟩ := ht.root
      obtain ⟨m', hm', hsome⟩ := hlink
      cases hm.symm.trans hm'
      cases hnone.symm.trans hsome
    obtain ⟨g, hg, hlink', hcount⟩ := ht.entered i hi hne
    cases hlink.unique hlink'
    exact ⟨hg, leads_iff.mpr (by rw [hcount j hg, if_pos rfl]; exact Nat.one_pos)⟩
  have hway : ∀ i j, p.Reached i → TransGen p.LinksTo i j → p.Reached j ∧ TransGen p.Leads j i := by
    intro i j hi hway
    induction hway with
    | single hlink => exact ⟨(hup i _ hi hlink).1, .single (hup i _ hi hlink).2⟩
    | tail _ hlink ih => exact ⟨(hup _ _ ih.1 hlink).1, .head (hup _ _ ih.1 hlink).2 ih.2⟩
  have hlt : ∀ i, p.Reached i → i < p.size := fun i hi => hp.spans.lt_size (hp.reached_iff.mp hi)
  refine Pattern.exists_topReturning (S := p.Reached) hlt (fun i j hi hij => (hup i j hi hij).1) ?_
    (hlt h hh) fun j hlink => (hup h j hh hlink).1
  -- a way up that returns would be a way down that does, and a tree has none
  intro i hi hcycle
  obtain ⟨below, hbelow, -⟩ := hp.spans.exists_subtree (hp.reached_iff.mp hi)
  exact hbelow.not_transGen (hway i i hi hcycle).2

/-- Every walk over a tree comes to an end. -/
theorem Sound.walkable (hp : p.Sound f) : p.Walkable := by
  obtain ⟨below, rfl⟩ := hp.exists_spans
  have hsubtree : ∀ h, p.Reached h → ∃ b, p.Spans (.cons h b .nil) ∧ (h :: b.handles).Nodup := by
    intro h hh
    obtain ⟨b, hb, hsub, -⟩ := hp.spans.exists_subtree (hp.reached_iff.mp hh)
    exact ⟨b, hb, hp.nodup.sublist hsub⟩
  refine
    { preorder := ⟨_, hp.spans.preorder_eq hp.roots_eq, hp.nodup, fun h => hp.reached_iff.symm⟩
      bfs := fun h hh => ?_
      count := fun h hh => ?_
      locate := fun code => hp.spans.exists_locateFrom code
      copy := ?_
      render := fun label h hh => ?_
      pruneTo := fun code => ?_
      topReturning := fun h hh => hp.exists_topReturning hh }
  · obtain ⟨b, hb, hnodup⟩ := hsubtree h hh
    obtain ⟨l, hl, hperm⟩ := hb.exists_bfs
    refine ⟨l, hl, hperm.symm.nodup hnodup, fun i => ?_⟩
    rw [hperm.mem_iff, ← hb.mem_iff_above, Forest.handles_cons, Forest.handles_nil,
      List.append_nil]
  · obtain ⟨b, hb, -⟩ := hsubtree h hh
    obtain ⟨l, hl, hperm⟩ := hb.exists_bfs
    exact ⟨l, hl, by rw [hb.count_eq, hperm.length_eq, List.length_cons]⟩
  · obtain ⟨t, ht⟩ := hp.spans.exists_extract
    obtain ⟨q, hq⟩ := t.exists_toPattern p.name
    exact ⟨q, by rw [copy, ht]; exact hq⟩
  · obtain ⟨b, hb, -⟩ := hsubtree h hh
    exact hb.exists_render label
  · exact hp.spans.exists_pruneTo code

theorem IsTree.walkable (ht : p.IsTree) : p.Walkable := by
  obtain ⟨f, hf⟩ := ht.exists_sound
  exact hf.walkable

/-- The check of a pattern comes to an end and accepts exactly the trees; every walk over a pattern
that it accepts comes to an end inside the arena. -/
theorem validate_exact (p : Pattern) :
    p.Checks [(p.root, none)] .nothing p.validate ∧ (p.validate = .ok () ↔ p.IsTree) ∧
      (p.validate = .ok () → p.Walkable) := by
  refine ⟨p.checks_validate, validate_eq_ok_iff_isTree, fun hok => ?_⟩
  obtain ⟨f, hp⟩ := validate_eq_ok_iff.mp hok
  exact hp.walkable

end TwigAlgebra.Pattern
