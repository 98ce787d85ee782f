import Mathlib.Data.List.Forall2
import TwigAlgebra.Minimise
import TwigAlgebra.Proofs.Edits
import TwigAlgebra.Proofs.PatternSoundness

/-!
# Giving up stored data

A rule that makes a sound pattern smaller must leave a sound pattern that binds the same variables,
in the same order, and stores what it stored for them.  The first rule clears what is stored under
some tags and changes nothing else; the tags of the nodes that bind variables are not among them.

## Main definitions

* `Node.bindings` — the variables of a node, and which of them are stored.
* `Pattern.Reduces` — what a rule must keep.
* `Pattern.Thins` — nothing but stored data is given up.
* `Pattern.Clears` — stored data is given up in some slots, except under some tags.

## Main results

* `Pattern.Reduces.checkKept_eq` — the check after the rules accepts what a rule leaves.
* `Pattern.Unfolds.exists_clearUnread` — what clearing unread data does to a finite tree.
* `Pattern.Clears.reduces` — clearing under tags of nodes that bind nothing keeps what a rule must
  keep.
-/

namespace TwigAlgebra

/-- The variables of a node, each with whether the node stores what the variable carries. -/
def Node.bindings (n : Node) : List (Variable × Bool) :=
  n.vars.map fun v => (v, n.stores.covers v.kind)

theorem Node.map_fst_bindings (n : Node) : n.bindings.map Prod.fst = n.vars := by
  rw [bindings, List.map_map]
  exact List.map_id _

theorem Node.bindings_eq_nil_iff {n : Node} : n.bindings = [] ↔ n.vars = [] := List.map_eq_nil_iff

namespace Pattern

variable {p q r : Pattern} {f g k : Forest}

/-- Nodes with the same bindings have the same variables. -/
theorem flatMap_vars_congr {ns ms : List Node}
    (h : ms.flatMap (·.bindings) = ns.flatMap (·.bindings)) :
    ms.flatMap (·.vars) = ns.flatMap (·.vars) := by
  have hmap := congrArg (List.map Prod.fst) h
  simpa only [List.map_flatMap, Node.map_fst_bindings] using hmap

/-! ### What a rule must keep -/

/-- What a rule must keep: `q` is sound, its codes are among those of `p`, and it binds the same
variables in the same order and stores what `p` stores for them. -/
structure Reduces (p : Pattern) (f : Forest) (q : Pattern) (g : Forest) : Prop where
  /-- The name stays. -/
  name : q.name = p.name
  /-- The smaller pattern is sound. -/
  sound : q.Sound g
  /-- Its codes are some of those before. -/
  codes : ((q.nodesOn g).map (·.code)).Sublist ((p.nodesOn f).map (·.code))
  /-- Its variables are those before. -/
  bindings : (q.nodesOn g).flatMap (·.bindings) = (p.nodesOn f).flatMap (·.bindings)

namespace Reduces

theorem refl (h : p.Sound f) : p.Reduces f p f := ⟨rfl, h, List.Sublist.refl _, rfl⟩

theorem trans (hpq : p.Reduces f q g) (hqr : q.Reduces g r k) : p.Reduces f r k where
  name := hqr.name.trans hpq.name
  sound := hqr.sound
  codes := hqr.codes.trans hpq.codes
  bindings := hqr.bindings.trans hpq.bindings

theorem vars_eq (h : p.Reduces f q g) :
    (q.nodesOn g).flatMap (·.vars) = (p.nodesOn f).flatMap (·.vars) :=
  flatMap_vars_congr h.bindings

theorem boundVars_eq (hp : p.Sound f) (h : p.Reduces f q g) : q.boundVars = p.boundVars := by
  rw [h.sound.boundVars_eq, hp.boundVars_eq, h.vars_eq]

end Reduces

theorem Unfolds.storedVars_eq (h : p.Unfolds f) :
    p.storedVars = some ((((p.nodesOn f).flatMap (·.bindings)).filter (·.2)).map (·.1.id)) := by
  have hnode : ∀ n : Node, (n.vars.filter fun v => n.stores.covers v.kind).map (·.id)
      = (n.bindings.filter (·.2)).map (·.1.id) := by
    intro n
    rw [Node.bindings, List.filter_map, List.map_map]
    rfl
  rw [storedVars, h.nodesInOrder_eq, Option.map_some, List.filter_flatMap, List.map_flatMap]
  simp only [hnode]

/-- The check after the rules accepts a finite tree with the same bindings. -/
theorem Unfolds.checkKept_eq (hp : p.Unfolds f) (hq : q.Unfolds g)
    (h : (q.nodesOn g).flatMap (·.bindings) = (p.nodesOn f).flatMap (·.bindings)) :
    p.checkKept q = some (.ok ()) := by
  have hfind : ∀ l : List Var, (l.find? fun v => !l.contains v) = none := by
    intro l
    rw [List.find?_eq_none]
    intro v hv
    simpa using hv
  have hvars : (q.nodesOn g).flatMap (·.vars) = (p.nodesOn f).flatMap (·.vars) :=
    flatMap_vars_congr h
  rw [checkKept, hq.boundVars_eq, hvars, hq.storedVars_eq, h, hp.boundVars_eq, hp.storedVars_eq]
  simp only [Option.bind_eq_bind, Option.bind_some, ne_eq, not_true_eq_false, if_false, hfind]
  rfl

/-- The check after the rules accepts what a rule leaves. -/
theorem Reduces.checkKept_eq (hp : p.Sound f) (h : p.Reduces f q g) :
    p.checkKept q = some (.ok ()) :=
  hp.unfolds.checkKept_eq h.sound.unfolds h.bindings

end Pattern

/-! ### Thinner nodes and patterns -/

/-- The node `m` is `n` with less stored, unless the tag is one of those listed. -/
def Node.Thins (tags : List String) (n m : Node) : Prop :=
  ∃ stores memo, m = { n with stores, topMemo := memo } ∧ (n.tag ∈ tags → stores = n.stores)

/-- The pattern `q` is `p` with less stored in some of its nodes, but not under the listed tags. -/
structure Pattern.Thins (tags : List String) (p q : Pattern) : Prop where
  /-- The name stays. -/
  name : q.name = p.name
  /-- The root stays. -/
  root : q.root = p.root
  /-- Every node stays in its slot. -/
  nodes : ∀ h n, p.node? h = some n → ∃ m, q.node? h = some m ∧ n.Thins tags m

namespace Pattern.Thins

variable {tags : List String} {p q r : Pattern} {f : Forest}

theorem spans (h : p.Thins tags q) (hf : p.Spans f) : q.Spans f := by
  refine hf.congr fun i hi => ?_
  obtain ⟨n, hn⟩ := hf.exists_node hi
  obtain ⟨m, hm, stores, memo, rfl, -⟩ := h.nodes i n hn
  rw [children?, children?, hn, hm]
  rfl

theorem unfolds (h : p.Thins tags q) (hp : p.Unfolds f) : q.Unfolds f :=
  ⟨h.spans hp.spans, hp.roots_eq.trans (by rw [h.root])⟩

theorem hangs (h : p.Thins tags q) {links : List (Handle × Option Handle)}
    (hf : p.Hangs links f) : q.Hangs links f := by
  induction f generalizing links with
  | nil => cases links with
    | nil => trivial
    | cons link links => cases hf
  | cons i below rest ihb ihr =>
    cases links with
    | nil => cases hf
    | cons link links =>
      obtain ⟨rfl, n, hn, hparent, hbelow, hrest⟩ := hf
      obtain ⟨m, hm, stores, memo, rfl, -⟩ := h.nodes _ n hn
      exact ⟨rfl, _, hm, hparent, ihb hbelow, ihr hrest⟩

theorem forall₂_nodesOn (h : p.Thins tags q) (hf : p.Spans f) :
    List.Forall₂ (Node.Thins tags) (p.nodesOn f) (q.nodesOn f) := by
  have hall : ∀ l : List Handle, l ⊆ f.handles →
      List.Forall₂ (Node.Thins tags) (l.filterMap p.node?) (l.filterMap q.node?) := by
    intro l hl
    induction l with
    | nil => exact .nil
    | cons i l ih =>
      obtain ⟨n, hn⟩ := hf.exists_node (hl List.mem_cons_self)
      obtain ⟨m, hm, hthins⟩ := h.nodes i n hn
      rw [List.filterMap_cons_some hn, List.filterMap_cons_some hm]
      exact .cons hthins (ih fun j hj => hl (List.mem_cons_of_mem _ hj))
  exact hall _ (List.Subset.refl _)

/-- The bindings stay if the nodes bind under the listed tags only. -/
theorem map_bindings_eq (h : p.Thins tags q) (hf : p.Spans f)
    (htags : ∀ n ∈ p.nodesOn f, n.vars ≠ [] → n.tag ∈ tags) :
    (q.nodesOn f).map Node.bindings = (p.nodesOn f).map Node.bindings := by
  have hnodes := (List.forall₂_and_left _ _).mpr ⟨htags, h.forall₂_nodesOn hf⟩
  rw [eq_comm, ← List.forall₂_eq_eq_eq, List.forall₂_map_left_iff, List.forall₂_map_right_iff]
  refine hnodes.imp fun n m hnm => ?_
  obtain ⟨htag, stores, memo, rfl, hstores⟩ := hnm
  by_cases hvars : n.vars = []
  · rw [Node.bindings_eq_nil_iff.mpr hvars, eq_comm, Node.bindings_eq_nil_iff]
    exact hvars
  · rw [hstores (htag hvars)]
    rfl

/-- A sound pattern stays sound, and keeps its bindings if its nodes bind under the listed tags
only. -/
theorem reduces (h : p.Thins tags q) (hp : p.Sound f)
    (htags : ∀ n ∈ p.nodesOn f, n.vars ≠ [] → n.tag ∈ tags) : p.Reduces f q f := by
  have hcodes : (q.nodesOn f).map (·.code) = (p.nodesOn f).map (·.code) := by
    -- clearing changes no code
    rw [eq_comm, ← List.forall₂_eq_eq_eq, List.forall₂_map_left_iff, List.forall₂_map_right_iff]
    refine (h.forall₂_nodesOn hp.spans).imp fun n m hnm => ?_
    obtain ⟨stores, memo, rfl, -⟩ := hnm
    rfl
  refine ⟨h.name, ⟨?_, hp.nodup, ?_, fun m hm => ?_⟩, ?_, ?_⟩
  · rw [h.root]
    exact h.hangs hp.hangs
  · rw [hcodes]
    exact hp.codes
  · obtain ⟨i, hi, hmi⟩ := mem_nodesOn_iff.mp hm
    obtain ⟨n, hn⟩ := hp.spans.exists_node hi
    obtain ⟨m', hm', stores, memo, rfl, -⟩ := h.nodes i n hn
    cases hmi.symm.trans hm'
    exact hp.recorded n (mem_nodesOn_iff.mpr ⟨i, hi, hn⟩)
  · rw [hcodes]
  · rw [List.flatMap_def, h.map_bindings_eq hp.spans htags, List.flatMap_def]

end Pattern.Thins

/-! ### Clearing what is stored -/

/-- The node with nothing stored, unless its tag is listed. -/
def Node.clearing (tags : List String) (n : Node) : Node :=
  { n with stores := if n.tag ∈ tags then n.stores else .none }

theorem Node.clearing_of_mem {tags : List String} {n : Node} (h : n.tag ∈ tags) :
    n.clearing tags = n := by
  rw [clearing, if_pos h]

theorem Node.clearing_of_not_mem {tags : List String} {n : Node} (h : n.tag ∉ tags) :
    n.clearing tags = n.cleared := by
  rw [clearing, if_neg h, cleared]

theorem Node.clearing_clearing (tags : List String) (n : Node) :
    (n.clearing tags).clearing tags = n.clearing tags := by
  by_cases h : n.tag ∈ tags
  · rw [clearing_of_mem h, clearing_of_mem h]
  · rw [clearing_of_not_mem (n := n.clearing tags) h, clearing_of_not_mem h]
    rfl

/-- The pattern `q` is `p` with nothing stored in the listed slots, except under the listed tags. -/
structure Pattern.Clears (tags : List String) (slots : List Handle) (p q : Pattern) : Prop where
  /-- The name stays. -/
  name : q.name = p.name
  /-- The root stays. -/
  root : q.root = p.root
  /-- The listed slots are cleared, and the others keep their nodes. -/
  bare : ∀ h, q.bare? h
    = if h ∈ slots then (p.bare? h).map (Node.clearing tags) else p.bare? h

namespace Pattern

variable {p q r : Pattern} {f : Forest} {tags : List String} {slots slots' : List Handle}

namespace Clears

theorem refl (tags : List String) (p : Pattern) : p.Clears tags [] p :=
  ⟨rfl, rfl, fun _ => (if_neg List.not_mem_nil).symm⟩

theorem forget (h : p.Clears tags slots q) : p.Clears tags slots q.forget :=
  ⟨h.name, h.root, fun i => (bare?_forget q i).trans (h.bare i)⟩

theorem trans (hpq : p.Clears tags slots q) (hqr : q.Clears tags slots' r) :
    p.Clears tags (slots ++ slots') r where
  name := hqr.name.trans hpq.name
  root := hqr.root.trans hpq.root
  bare h := by
    rw [hqr.bare, hpq.bare]
    by_cases hs : h ∈ slots
    · by_cases hs' : h ∈ slots'
      · -- clearing twice clears no more
        simp only [hs, hs', List.mem_append, or_self, if_true, Option.map_map, Function.comp_def,
          Node.clearing_clearing]
      · simp [hs, hs']
    · simp [hs]

/-- The slot of a node with a listed tag is clear. -/
theorem of_mem {h : Handle} {n : Node} (hn : p.node? h = some n) (htag : n.tag ∈ tags) :
    p.Clears tags [h] p := by
  refine ⟨rfl, rfl, fun i => ?_⟩
  split
  case isTrue hi =>
    rw [List.mem_singleton.mp hi, bare?_eq_some_of_node? hn, Option.map_some,
      Node.clearing_of_mem (n := n.bare) htag]
  case isFalse => rfl

/-- Clearing a node whose tag is not listed. -/
theorem update {h : Handle} {n : Node} (hn : p.node? h = some n) (htag : n.tag ∉ tags)
    (hq : p.update h Node.cleared = some q) : p.Clears tags [h] q := by
  refine ⟨name_update hq, root_update hq, fun i => ?_⟩
  rw [bare?_update hq fun _ => rfl]
  by_cases hi : i = h
  · rw [hi, if_pos rfl, if_pos List.mem_cons_self, bare?_eq_some_of_node? hn, Option.map_some,
      Option.map_some, Node.clearing_of_not_mem (n := n.bare) htag]
  · rw [if_neg (Ne.symm hi), if_neg (by simpa using hi)]

/-- A cleared slot keeps its node, but for what it stores. -/
theorem exists_node (h : p.Clears tags slots q) {i : Handle} {n : Node}
    (hn : p.node? i = some n) :
    ∃ memo, q.node? i
      = some { (if i ∈ slots then n.clearing tags else n) with topMemo := memo } := by
  have hbare := h.bare i
  rw [bare?_eq_some_of_node? hn] at hbare
  have hcleared : q.bare? i = some (if i ∈ slots then n.clearing tags else n).bare := by
    rw [hbare]
    split <;> rfl
  obtain ⟨m, hm, heq⟩ := exists_node_of_bare? hcleared
  exact ⟨m.topMemo, hm.trans (congrArg some (Node.eq_of_bare_eq heq))⟩

/-- Clearing gives up stored data only. -/
theorem thins (h : p.Clears tags slots q) : p.Thins tags q where
  name := h.name
  root := h.root
  nodes i n hn := by
    obtain ⟨memo, hm⟩ := h.exists_node hn
    split at hm
    · exact ⟨_, hm, _, memo, rfl, fun htag => if_pos htag⟩
    · exact ⟨_, hm, n.stores, memo, rfl, fun _ => rfl⟩

end Clears

/-- Clearing from a node on clears the node, unless its tag is listed, and goes on with its
children. -/
theorem exists_storeOnlyFrom_succ (tags : List String) {h : Handle} {n : Node}
    (hn : p.node? h = some n) :
    ∃ q, p.Clears tags [h] q ∧ ∀ fuel, storeOnlyFrom tags (fuel + 1) h p
      = (n.edges.foldlM (fun p e => storeOnlyFrom tags fuel e.child p) q).map forget := by
  by_cases htag : n.tag ∈ tags
  · refine ⟨p, .of_mem hn htag, fun fuel => ?_⟩
    rw [storeOnlyFrom, hn]
    simp only [Option.bind_eq_bind, Option.bind_some, List.contains_eq_mem, htag, decide_true, if_true]
    exact Option.map_eq_bind.symm
  · obtain ⟨q, hq⟩ := exists_update (lt_size_of_bare? (bare?_eq_some_of_node? hn)) Node.cleared
    refine ⟨q, .update hn htag hq, fun fuel => ?_⟩
    rw [storeOnlyFrom, hn]
    simp only [Option.bind_eq_bind, Option.bind_some, List.contains_eq_mem, htag, decide_false,
      Bool.false_eq_true, if_false, hq]
    exact Option.map_eq_bind.symm

/-- Clearing along some edges clears the slots of the trees that they lead to. -/
theorem Spans.exists_storeOnlyFrom (tags : List String) (hf : p.Spans f) {fuel : Nat}
    (hfuel : f.height ≤ fuel) {es : List Edge} (hes : es.map (·.child) = f.roots) :
    ∃ q, es.foldlM (fun p e => storeOnlyFrom tags fuel e.child p) p = some q ∧
      p.Clears tags f.handles q := by
  induction f generalizing p fuel es with
  | nil =>
    rw [List.map_eq_nil_iff.mp hes]
    exact ⟨p, rfl, .refl tags p⟩
  | cons h below rest ihb ihr =>
    obtain ⟨e, es, rfl, rfl, hrestes⟩ := exists_edges_of_roots_cons hes
    obtain ⟨hh, hbelow, hrest⟩ := hf
    obtain ⟨n, hn, hchildren⟩ := children?_eq_some_iff.mp hh
    rw [Forest.height] at hfuel
    obtain ⟨fuel, rfl⟩ : ∃ k, fuel = k + 1 := ⟨fuel - 1, by omega⟩
    -- the node itself, then what is below it, then the other trees
    obtain ⟨p₁, hself, hp₁⟩ := exists_storeOnlyFrom_succ tags hn
    obtain ⟨p₂, hp₂, hlower⟩ :=
      ihb (hself.thins.spans hbelow) (by omega : below.height ≤ fuel) hchildren
    have htree := (hself.trans hlower).forget
    obtain ⟨q, hq, hothers⟩ :=
      ihr (htree.thins.spans hrest) (by omega : rest.height ≤ fuel + 1) hrestes
    refine ⟨q, ?_, htree.trans hothers⟩
    rw [List.foldlM_cons, hp₁, hp₂]
    exact hq

/-- Clearing ends with forgetting. -/
theorem forget_storeOnly {h : Handle} (hq : p.storeOnly h tags = some q) : q.forget = q := by
  rw [storeOnly] at hq
  cases hsize : p.size with
  | zero =>
    rw [hsize] at hq
    cases hq
  | succ fuel =>
    rw [hsize] at hq
    -- the root exists, or nothing would be answered
    cases hn : p.node? h with
    | none =>
      rw [storeOnlyFrom, hn] at hq
      cases hq
    | some n =>
      obtain ⟨r, -, hr⟩ := exists_storeOnlyFrom_succ tags hn
      rw [hr] at hq
      obtain ⟨k, -, rfl⟩ := Option.map_eq_some_iff.mp hq
      exact forget_forget k

/-- Clearing a tree clears its slots, and nothing is remembered. -/
theorem Spans.exists_storeOnly (tags : List String) (hf : p.Spans f) {h : Handle}
    (hroots : f.roots = [h]) :
    ∃ q, p.storeOnly h tags = some q ∧ p.Clears tags f.handles q ∧ q.forget = q := by
  have htop : [EdgeFlags.to ⟨true, false, false⟩ h].map (·.child) = f.roots := hroots.symm
  obtain ⟨q, hq, hclears⟩ := hf.exists_storeOnlyFrom tags hf.height_le_size htop
  have hstore : p.storeOnly h tags = some q := by
    rw [storeOnly]
    simpa using hq
  exact ⟨q, hstore, hclears, forget_storeOnly hstore⟩

/-- The tags of the nodes that bind variables. -/
def tagsOn (p : Pattern) (f : Forest) : List String :=
  ((p.nodesOn f).filter fun n => !n.vars.isEmpty).map (·.tag)

theorem mem_tagsOn_iff {tag : String} :
    tag ∈ p.tagsOn f ↔ ∃ n ∈ p.nodesOn f, n.vars ≠ [] ∧ n.tag = tag := by
  simp [tagsOn, and_assoc]

theorem tag_mem_tagsOn {n : Node} (hn : n ∈ p.nodesOn f) (hvars : n.vars ≠ []) :
    n.tag ∈ p.tagsOn f :=
  mem_tagsOn_iff.mpr ⟨n, hn, hvars, rfl⟩

/-- Clearing, but not under the tags of nodes that bind, keeps what a rule must keep. -/
theorem Clears.reduces (h : p.Clears (p.tagsOn f) slots q) (hp : p.Sound f) : p.Reduces f q f :=
  h.thins.reduces hp fun _ => tag_mem_tagsOn

/-- Clearing unread data clears a finite tree, but not under the tags of nodes that bind, and counts
the nodes that no longer store anything. -/
theorem Unfolds.exists_clearUnread (hp : p.Unfolds f) :
    ∃ q, p.Clears (p.tagsOn f) f.handles q ∧ q.forget = q ∧
      p.clearUnread = some ((p.nodesOn f).countP (·.stores.any) - (q.nodesOn f).countP (·.stores.any), q) := by
  obtain ⟨q, hq, hclears, hforget⟩ := hp.spans.exists_storeOnly (p.tagsOn f) hp.roots_eq
  refine ⟨q, hclears, hforget, ?_⟩
  rw [clearUnread, boundTags, storingCount, hp.nodesInOrder_eq]
  rw [tagsOn] at hq
  simp only [Option.map_some, Option.bind_eq_bind, Option.bind_some, hq, storingCount,
    (hclears.thins.unfolds hp).nodesInOrder_eq]
  rfl

end Pattern

end TwigAlgebra
