import TwigAlgebra.Proofs.Drafting
import TwigAlgebra.Proofs.TreeCheck

/-!
# What grows on a tree of slots

A new child and a graft put nodes into new slots, at the end of the arena.  The codes and variables
of the slots form a list, and growing appends to it; slots that were there keep theirs.  A tree of
slots stays one, since a new slot is entered by one edge only, and no slot that was not reached
before is reached through it.  A virtual copy appends fresh codes, each of them once.

## Main definitions

* `Node.stem`, `Pattern.stems` — the code and the variables of a node, and of all slots.
* `Pattern.GrowsTo` — a tree has grown, in new slots only.

## Main results

* `Branches.stems_graft`, `Pattern.GrowsTo.graft` — what a graft appends, and that it keeps the tree.
* `Pattern.exists_spans_of_extract` — a subtree that can be taken out has the nodes of a forest.
* `Branches.numbered_asVirtual` — a virtual copy takes as many codes as it has nodes, each of them once.
-/

namespace TwigAlgebra

open Pattern

/-! ### Codes and variables of all slots -/

/-- The code of a node and the variables bound to it. -/
def Node.stem (n : Node) : Code × List Variable := (n.code, n.vars)

@[simp] theorem Node.stem_detached (n : Node) : n.detached.stem = n.stem := rfl

namespace Pattern

variable {p q r : Pattern} {F : Handle → Node → Node} {h c i : Handle} {n m : Node}
  {flags : EdgeFlags} {target : Handle}

/-- The codes and variables of the slots, in order. -/
def stems (p : Pattern) : List (Code × List Variable) := p.nodes.toList.map Node.stem

theorem getElem?_stems (p : Pattern) (h : Handle) : p.stems[h]? = (p.node? h).map Node.stem := by
  rw [stems, List.getElem?_map, Array.getElem?_toList, node?]

@[simp] theorem length_stems (p : Pattern) : p.stems.length = p.size := by
  rw [stems, List.length_map, Array.length_toList, size]

theorem stems_singleton (name : String) (n : Node) : (singleton name n).stems = [n.stem] := rfl

theorem Maps.stems_eq (hpq : Maps F p q) (hF : ∀ i n, (F i n).stem = n.stem) : q.stems = p.stems := by
  refine List.ext_getElem? fun i => ?_
  rw [getElem?_stems, getElem?_stems, hpq.nodes, Option.map_map]
  exact congrArg (fun g => (p.node? i).map g) (funext (hF i))

theorem stems_addNode (p : Pattern) (n : Node) : (p.addNode n).2.stems = p.stems ++ [n.stem] := by
  simp [stems, addNode]

/-- A new child appends its code and its variables. -/
theorem stems_addChild (hq : p.addChild target n flags = some (c, q)) :
    q.stems = p.stems ++ [n.stem] := by
  obtain ⟨-, hedge⟩ := addChild_eq_some hq
  obtain ⟨-, -, d, hmaps⟩ := exists_maps_addEdge hedge
  rw [hmaps.stems_eq fun _ _ => rfl, stems_addNode]

theorem size_addChild (hq : p.addChild target n flags = some (c, q)) : q.size = p.size + 1 := by
  rw [← length_stems, stems_addChild hq, List.length_append, length_stems, List.length_singleton]

/-- The code and the variables of a slot are in the list. -/
theorem getElem?_stems_of_node? (hn : p.node? h = some n) : p.stems[h]? = some n.stem := by
  rw [getElem?_stems, hn, Option.map_some]

/-! ### Trees that grow -/

/-- The pattern `q` is a tree of slots like `p`, and reaches new slots at most. -/
structure GrowsTo (p q : Pattern) : Prop where
  /-- The reached slots are a tree. -/
  orderly : q.Orderly
  /-- There are as many slots or more. -/
  size_le : p.size ≤ q.size
  /-- A reached slot is reached before, or new. -/
  reached : ∀ i, q.Reached i → p.Reached i ∨ p.size ≤ i

theorem GrowsTo.refl (hp : p.Orderly) : p.GrowsTo p := ⟨hp, Nat.le_refl _, fun _ hi => Or.inl hi⟩

theorem GrowsTo.trans (hpq : p.GrowsTo q) (hqr : q.GrowsTo r) : p.GrowsTo r where
  orderly := hqr.orderly
  size_le := hpq.size_le.trans hqr.size_le
  reached i hi := by
    rcases hqr.reached i hi with hi | hi
    · exact hpq.reached i hi
    · exact Or.inr (hpq.size_le.trans hi)

theorem Orderly.lt_size (hp : p.Orderly) (hh : p.Reached h) : h < p.size := by
  obtain ⟨n, hn⟩ := hp.exists_node hh
  exact lt_size_of_node? hn

/-- The edges between two slots after a new child. -/
theorem edgesTo_addChild (hq : p.addChild target n flags = some (c, q)) (i j : Handle) :
    q.edgesTo i j = p.edgesTo i j + if target = i ∧ p.size = j then 1 else 0 := by
  obtain ⟨-, hedge⟩ := addChild_eq_some hq
  rw [edgesTo_addEdge hedge, edgesTo_addNode]

/-- The links after a new child. -/
theorem parent?_addChild (hq : p.addChild target n flags = some (c, q)) (j : Handle) :
    q.parent? j = if p.size = j then some target else p.parent? j := by
  obtain ⟨-, hedge⟩ := addChild_eq_some hq
  rw [parent?_addEdge hedge, parent?_addNode]

theorem root_addChild (hq : p.addChild target n flags = some (c, q)) : q.root = p.root := by
  obtain ⟨-, hedge⟩ := addChild_eq_some hq
  obtain ⟨-, -, d, hmaps⟩ := exists_maps_addEdge hedge
  rw [hmaps.root, root_addNode]

/-- No edge starts in a slot that does not exist. -/
theorem edgesTo_eq_zero_of_size_le (hh : p.size ≤ h) : p.edgesTo h c = 0 := by
  rw [edgesTo, node?_eq_none_iff.mpr hh]
  rfl

/-- The edges that a new child brings along. -/
theorem leads_addChild_iff (hq : p.addChild target n flags = some (c, q)) :
    q.Leads h i ↔ p.Leads h i ∨ h = target ∧ i = p.size := by
  rw [leads_iff, leads_iff, edgesTo_addChild hq]
  by_cases hnew : target = h ∧ p.size = i
  · rw [if_pos hnew]
    exact iff_of_true (by omega) (Or.inr ⟨hnew.1.symm, hnew.2.symm⟩)
  · rw [if_neg hnew, Nat.add_zero, or_iff_left]
    rintro ⟨rfl, rfl⟩
    exact hnew ⟨rfl, rfl⟩

/-- What an old slot holds after a new child. -/
theorem node?_addChild (hq : p.addChild target n flags = some (c, q)) (hm : q.node? i = some m) :
    (∃ k, p.node? i = some k ∧ m.stem = k.stem ∧ m.parent = k.parent) ∨
      i = p.size ∧ m.stem = n.stem ∧ m.parent = some target := by
  obtain ⟨-, hedge⟩ := addChild_eq_some hq
  obtain ⟨-, -, d, hmaps⟩ := exists_maps_addEdge hedge
  obtain ⟨k, hk, rfl⟩ := hmaps.exists_node hm
  rw [node?_addNode] at hk
  split at hk
  case isTrue hi =>
    cases hk
    exact Or.inr ⟨hi, rfl, if_pos hi.symm⟩
  case isFalse hi => exact Or.inl ⟨k, hk, rfl, if_neg fun heq => hi heq.symm⟩

/-- The reached slots after a new child. -/
theorem reached_addChild_iff (hq : p.addChild target n flags = some (c, q)) :
    q.Reached i ↔ p.Reached i ∨ i = p.size ∧ p.Reached target := by
  constructor
  · intro hi
    induction hi with
    | refl => exact Or.inl (root_addChild hq ▸ .refl)
    | @tail i j _ hlead ih =>
      -- the new node is a leaf
      rcases (leads_addChild_iff hq).mp hlead with hlead | ⟨rfl, rfl⟩
      · rcases ih with hi | ⟨rfl, -⟩
        · exact Or.inl (hi.leads hlead)
        · exact absurd hlead.lt_size (Nat.lt_irrefl _)
      · rcases ih with hi | ⟨heq, htarget⟩
        · exact Or.inr ⟨rfl, hi⟩
        · exact Or.inr ⟨rfl, htarget⟩
  · -- no edge is lost
    have hmono : ∀ j, p.Reached j → q.Reached j := by
      intro j hj
      rw [Reached, root_addChild hq]
      exact Relation.ReflTransGen.mono (fun _ _ h => (leads_addChild_iff hq).mpr (Or.inl h)) _ _ hj
    rintro (hi | ⟨rfl, htarget⟩)
    · exact hmono i hi
    · exact (hmono target htarget).leads ((leads_addChild_iff hq).mpr (Or.inr ⟨rfl, rfl⟩))

/-- With a new child, too, every reached slot but the root is entered by exactly one edge. -/
theorem Orderly.entered_addChild (hp : p.Orderly) (hq : p.addChild target n flags = some (c, q))
    (hi : q.Reached i) (hne : i ≠ p.root) : ∃ h, q.Reached h ∧ q.LinksTo i h ∧
      ∀ j, q.Reached j → q.edgesTo j i = if j = h then 1 else 0 := by
  rcases (reached_addChild_iff hq).mp hi with hi | ⟨rfl, htarget⟩
  · -- an old slot is entered as before
    obtain ⟨h, hh, hlink, hcount⟩ := hp.entered i hi hne
    have hnew : p.size ≠ i := Nat.ne_of_gt (hp.lt_size hi)
    refine ⟨h, (reached_addChild_iff hq).mpr (Or.inl hh), ?_, fun j hj => ?_⟩
    · rw [linksTo_iff, parent?_addChild hq, if_neg hnew]
      exact linksTo_iff.mp hlink
    · rw [edgesTo_addChild hq, if_neg fun heq => hnew heq.2, Nat.add_zero]
      rcases (reached_addChild_iff hq).mp hj with hj | ⟨rfl, -⟩
      · exact hcount j hj
      · rw [edgesTo_eq_zero_of_size_le (Nat.le_refl _), if_neg (Nat.ne_of_gt (hp.lt_size hh))]
  · -- no old edge of a reached slot leads to the new slot, and none starts there
    refine ⟨target, (reached_addChild_iff hq).mpr (Or.inl htarget), ?_, fun j hj => ?_⟩
    · rw [linksTo_iff, parent?_addChild hq, if_pos rfl]
    · have hzero : p.edgesTo j p.size = 0 := by
        rcases (reached_addChild_iff hq).mp hj with hj | ⟨rfl, -⟩
        · exact edgesTo_eq_zero_iff.mpr fun hlead => Nat.lt_irrefl _ (hp.closed j _ hj hlead)
        · exact edgesTo_eq_zero_of_size_le (Nat.le_refl _)
      rw [edgesTo_addChild hq, hzero, Nat.zero_add]
      simp only [and_true, eq_comm]

/-- A new child keeps a tree. -/
theorem Orderly.addChild (hp : p.Orderly) (hn : n.Recorded)
    (hq : p.addChild target n flags = some (c, q)) : p.GrowsTo q := by
  have hroot := root_addChild hq
  have hsize := size_addChild hq
  have hreached : ∀ {i}, q.Reached i → p.Reached i ∨ i = p.size ∧ p.Reached target :=
    fun hi => (reached_addChild_iff hq).mp hi
  have hold : ∀ {i}, i < p.size → i < q.size := fun hi => by
    rw [hsize]
    exact Nat.lt_succ_of_lt hi
  refine ⟨?_, hsize ▸ Nat.le_succ _, fun i hi => (hreached hi).imp_right fun h => h.1.ge⟩
  constructor
  case root =>
    obtain ⟨k, hk, hparent⟩ := hp.root
    obtain ⟨m, hm⟩ := exists_node_of_lt_size (hold (lt_size_of_node? hk))
    refine ⟨m, by rwa [hroot], ?_⟩
    rcases node?_addChild hq hm with ⟨k', hk', -, hparent'⟩ | ⟨heq, -⟩
    · cases hk.symm.trans hk'
      exact hparent'.trans hparent
    · exact absurd heq (Nat.ne_of_lt (lt_size_of_node? hk))
  case closed =>
    intro h i hh hlead
    -- the new node has no children yet
    rcases (leads_addChild_iff hq).mp hlead with hlead | ⟨-, rfl⟩
    · rcases hreached hh with hh | ⟨rfl, -⟩
      · exact hold (hp.closed h i hh hlead)
      · exact absurd hlead.lt_size (Nat.lt_irrefl _)
    · rw [hsize]
      exact Nat.lt_succ_self _
  case entered =>
    intro i hi hne
    exact hp.entered_addChild hq hi (hroot ▸ hne)
  case rootless =>
    intro h hh hlead
    rw [hroot] at hlead
    rcases (leads_addChild_iff hq).mp hlead with hlead | ⟨-, heq⟩
    · rcases hreached hh with hh | ⟨rfl, -⟩
      · exact hp.rootless h hh hlead
      · exact absurd hlead.lt_size (Nat.lt_irrefl _)
    · exact absurd heq (Nat.ne_of_lt (hp.lt_size .refl))
  case recorded =>
    intro h m hh hm
    -- the new node records its own code, the old ones kept theirs
    rcases node?_addChild hq hm with ⟨k, hk, hstem, -⟩ | ⟨-, hstem, -⟩
    · obtain ⟨hcode, hvars⟩ := Prod.mk.inj hstem
      rcases hreached hh with hh | ⟨rfl, -⟩
      · rw [hcode, hvars]
        exact hp.recorded h k hh hk
      · exact absurd (lt_size_of_node? hk) (Nat.lt_irrefl _)
    · obtain ⟨hcode, hvars⟩ := Prod.mk.inj hstem
      rw [hcode, hvars]
      exact hn

theorem Orderly.singleton {name : String} (hn : n.Recorded) : (singleton name n).Orderly where
  root := ⟨_, node?_singleton name n 0, rfl⟩
  closed h c _ hlead := absurd hlead (edgesTo_eq_zero_iff.mp (edgesTo_singleton name n))
  entered := by
    intro c hc hne
    rcases hc.cases_tail with heq | ⟨i, -, hlead⟩
    · exact absurd heq hne
    · exact absurd hlead (edgesTo_eq_zero_iff.mp (edgesTo_singleton name n))
  rootless h _ hlead := absurd hlead (edgesTo_eq_zero_iff.mp (edgesTo_singleton name n))
  recorded h m _ hm := by
    rw [node?_singleton] at hm
    split at hm
    · cases hm
      exact hn
    · cases hm

end Pattern

/-! ### Grafts -/

namespace Branches

variable {p q : Pattern} {bs : Branches} {target : Handle}

/-- Grafting appends the codes and variables of the branches. -/
theorem stems_graft (hq : bs.graft target p = some q) :
    q.stems = p.stems ++ bs.labels.map Node.stem := by
  induction bs generalizing p q target with
  | nil =>
    cases hq
    simp
  | cons flags n below rest ihb ihr =>
    obtain ⟨⟨c, p₁⟩, hp₁, hq⟩ := Option.bind_eq_some_iff.mp hq
    obtain ⟨p₂, hp₂, hq⟩ := Option.bind_eq_some_iff.mp hq
    rw [ihr hq, ihb hp₂, stems_addChild hp₁]
    simp

/-- Grafting keeps a tree. -/
theorem growsTo_graft (hbs : ∀ n ∈ bs.labels, n.Recorded) (hq : bs.graft target p = some q)
    (hp : p.Orderly) : p.GrowsTo q :=
  graft_invariant (I := fun r => p.GrowsTo r)
    (fun _ _ _ _ n _ hn hr hgrows => hgrows.trans (hgrows.orderly.addChild (hbs n hn) hr)) hq
    (.refl hp)

end Branches

theorem Tree.stems_graft {p q : Pattern} {t : Tree} {target c : Handle} {flags : EdgeFlags}
    (hq : t.graft target flags p = some (c, q)) : q.stems = p.stems ++ t.labels.map Node.stem := by
  obtain ⟨⟨i, p₁⟩, hp₁, hq⟩ := Option.bind_eq_some_iff.mp hq
  obtain ⟨p₂, hp₂, hq⟩ := Option.bind_eq_some_iff.mp hq
  cases hq
  rw [Branches.stems_graft hp₂, stems_addChild hp₁, Tree.labels, List.map_cons, List.append_assoc,
    List.singleton_append]

theorem Tree.growsTo_graft {p q : Pattern} {t : Tree} {target c : Handle} {flags : EdgeFlags}
    (ht : ∀ n ∈ t.labels, n.Recorded) (hq : t.graft target flags p = some (c, q)) (hp : p.Orderly) :
    p.GrowsTo q :=
  graft_invariant (I := fun r => p.GrowsTo r)
    (fun _ _ _ _ n _ hn hr hgrows => hgrows.trans (hgrows.orderly.addChild (ht n hn) hr)) hq
    (.refl hp)

theorem Tree.stems_toPattern {q : Pattern} {t : Tree} {name : String}
    (hq : t.toPattern name = some q) : q.stems = t.labels.map Node.stem := by
  rw [Branches.stems_graft hq, stems_singleton, Tree.labels, List.map_cons, List.singleton_append]

theorem Tree.orderly_toPattern {q : Pattern} {t : Tree} {name : String}
    (ht : ∀ n ∈ t.labels, n.Recorded) (hq : t.toPattern name = some q) : q.Orderly :=
  (Branches.growsTo_graft (fun n hn => ht n (List.mem_cons_of_mem _ hn)) hq
    (.singleton (ht _ List.mem_cons_self))).orderly

/-! ### Trees taken out -/

namespace Pattern

variable {p : Pattern} {h : Handle} {t : Tree} {below : Forest}

/-- The trees below the edges of a node, put side by side. -/
theorem exists_spans_of_gather {visit : Handle → Option Tree} {es : List Edge} {bs : Branches}
    (hvisit : ∀ h t, visit h = some t → ∃ below, p.Spans (.cons h below .nil) ∧
      t.labels = (p.nodesOn (.cons h below .nil)).map Node.detached)
    (hbs : gather visit es = some bs) : ∃ f : Forest, p.Spans f ∧ f.roots = es.map (·.child) ∧
      bs.labels = (p.nodesOn f).map Node.detached := by
  induction es generalizing bs with
  | nil =>
    cases hbs
    exact ⟨.nil, trivial, rfl, rfl⟩
  | cons e es ih =>
    obtain ⟨t, ht, hbs⟩ := Option.bind_eq_some_iff.mp hbs
    obtain ⟨bs', hbs', hbs⟩ := Option.bind_eq_some_iff.mp hbs
    cases hbs
    obtain ⟨below, ⟨hchild, hbelow, -⟩, hlabels⟩ := hvisit e.child t ht
    obtain ⟨f, hf, hroots, hrest⟩ := ih hbs'
    obtain ⟨n, hn, -⟩ := children?_eq_some_iff.mp hchild
    refine ⟨.cons e.child below f, ⟨hchild, hbelow, hf⟩, ?_, ?_⟩
    · rw [Forest.roots_cons, hroots, List.map_cons]
    · rw [nodesOn_cons hn, nodesOn_nil, List.append_nil, Tree.labels, List.map_cons,
        List.cons.injEq] at hlabels
      rw [Branches.labels_cons, nodesOn_cons hn, List.map_cons, List.map_append, hlabels.1,
        hlabels.2, hrest]

/-- A subtree that can be taken out is finite, and its nodes are those of the arena. -/
theorem exists_spans_of_extract (ht : p.extract h = some t) :
    ∃ below, p.Spans (.cons h below .nil) ∧
      t.labels = (p.nodesOn (.cons h below .nil)).map Node.detached := by
  rw [extract] at ht
  generalize p.size = fuel at ht
  induction fuel generalizing h t with
  | zero => cases ht
  | succ fuel ih =>
    rw [extractWith] at ht
    simp only [Option.bind_eq_bind, Option.bind_some] at ht
    obtain ⟨n, hn, ht⟩ := Option.bind_eq_some_iff.mp ht
    obtain ⟨bs, hbs, ht⟩ := Option.bind_eq_some_iff.mp ht
    cases ht
    obtain ⟨f, hf, hroots, hlabels⟩ := exists_spans_of_gather (fun _ _ => ih) hbs
    refine ⟨f, ⟨children?_eq_some_iff.mpr ⟨n, hn, hroots.symm⟩, hf, trivial⟩, ?_⟩
    rw [nodesOn_cons hn, nodesOn_nil, List.append_nil, Tree.labels, List.map_cons, hlabels]

/-- What is taken out of a finite subtree has its nodes. -/
theorem Spans.labels_of_extract (hf : p.Spans (.cons h below .nil)) (ht : p.extract h = some t) :
    t.labels = (p.nodesOn (.cons h below .nil)).map Node.detached := by
  obtain ⟨below', hf', hlabels⟩ := exists_spans_of_extract ht
  cases hf'.unique hf rfl
  exact hlabels

end Pattern

/-! ### Fresh codes -/

theorem Branches.length_labels (bs : Branches) : bs.labels.length = bs.size := by
  induction bs with
  | nil => rfl
  | cons flags n below rest ihb ihr =>
    rw [labels_cons, List.length_cons, List.length_append, ihb, ihr, size_cons]
    omega

theorem Tree.length_labels (t : Tree) : t.labels.length = t.size := by
  rw [labels, List.length_cons, Branches.length_labels, size, Nat.add_comm]

/-- A subtree that can be taken out has as many nodes as a count finds. -/
theorem Pattern.count_of_extract {p : Pattern} {h : Handle} {t : Tree}
    (ht : p.extract h = some t) : p.count h = some t.size := by
  obtain ⟨below, hbelow, hlabels⟩ := exists_spans_of_extract ht
  rw [hbelow.count_eq, ← t.length_labels, hlabels, List.length_map, hbelow.length_nodesOn,
    Forest.handles_cons, List.length_cons, Forest.handles_nil, List.append_nil]

theorem Pattern.Spans.size_of_extract {p : Pattern} {h : Handle} {below : Forest} {t : Tree}
    (hf : p.Spans (.cons h below .nil)) (ht : p.extract h = some t) :
    t.size = below.handles.length + 1 := by
  have hcount := count_of_extract ht
  rw [hf.count_eq] at hcount
  exact (Option.some.inj hcount).symm

/-- The codes of the nodes are different, and in a range of numbers. -/
structure Numbered (first next : Nat) (ns : List Node) : Prop where
  /-- The codes are in the range. -/
  within : ∀ n ∈ ns, first ≤ n.code.val.toNat ∧ n.code.val.toNat < next
  /-- No code repeats. -/
  nodup : (ns.map (·.code)).Nodup

namespace Numbered

variable {a b c : Nat} {ns ms : List Node}

theorem nil (a b : Nat) : Numbered a b [] where
  within _ hn := absurd hn List.not_mem_nil
  nodup := List.nodup_nil

theorem perm (hns : Numbered a b ns) (hperm : ns.Perm ms) : Numbered a b ms :=
  ⟨fun n hn => hns.within n (hperm.symm.subset hn), (hperm.map _).nodup hns.nodup⟩

theorem singleton (n : Node) : Numbered n.code.val.toNat (n.code.val.toNat + 1) [n] := by
  refine ⟨fun m hm => ?_, List.nodup_singleton _⟩
  rw [List.mem_singleton.mp hm]
  exact ⟨Nat.le_refl _, Nat.lt_succ_self _⟩

/-- Nodes numbered from where others end. -/
theorem append (hns : Numbered a b ns) (hms : Numbered b c ms) (hab : a ≤ b) (hbc : b ≤ c) :
    Numbered a c (ns ++ ms) := by
  constructor
  · intro n hn
    rcases List.mem_append.mp hn with hn | hn
    · have hwithin := hns.within n hn
      exact ⟨hwithin.1, by omega⟩
    · have hwithin := hms.within n hn
      exact ⟨by omega, hwithin.2⟩
  · rw [List.map_append]
    refine hns.nodup.append hms.nodup fun code hcode hcode' => ?_
    obtain ⟨n, hn, rfl⟩ := List.mem_map.mp hcode
    obtain ⟨m, hm, heq⟩ := List.mem_map.mp hcode'
    -- a code of both would be below `b` and not below it
    have hlt := (hns.within n hn).2
    have hle := (hms.within m hm).1
    rw [heq] at hle
    omega

end Numbered

theorem Counters.toNat_freshCode {c : Counters} (hc : c.code.val.toNat + 1 < 2 ^ 32) :
    c.freshCode.2.code.val.toNat = c.code.val.toNat + 1 := by
  rw [freshCode_code]
  show (c.code.val + 1).toNat = _
  rw [UInt32.toNat_add, UInt32.toNat_one, Nat.mod_eq_of_lt hc]

/-- A node that is numbered before the nodes below it. -/
theorem numbered_cons {c : Counters} {n : Node} {ns : List Node} {k : Nat}
    (hc : c.code.val.toNat + 1 < 2 ^ 32)
    (hns : Numbered c.freshCode.2.code.val.toNat (c.freshCode.2.code.val.toNat + k) ns) :
    Numbered c.code.val.toNat (c.code.val.toNat + 1 + k) (n.asVirtual c.code :: ns) := by
  rw [Counters.toNat_freshCode hc] at hns
  exact (Numbered.singleton (n.asVirtual c.code)).append hns (Nat.le_succ _) (Nat.le_add_right _ _)

/-- A virtual copy of branches takes as many codes as these have nodes, each of them once. -/
theorem Branches.numbered_asVirtual (bs : Branches) {c : Counters}
    (hc : c.code.val.toNat + bs.size < 2 ^ 32) :
    (bs.asVirtual c).2.code.val.toNat = c.code.val.toNat + bs.size ∧
      Numbered c.code.val.toNat (c.code.val.toNat + bs.size) (bs.asVirtual c).1.labels := by
  induction bs generalizing c with
  | nil => exact ⟨rfl, .nil _ _⟩
  | cons flags n below rest ihb ihr =>
    rw [size_cons] at hc
    -- the later siblings take the first codes, then the node, then what is below it
    obtain ⟨hlater, hlaters⟩ := ihr (c := c) (by omega)
    have hnode := Counters.toNat_freshCode (c := (rest.asVirtual c).2) (by omega)
    obtain ⟨hbelow, hbelows⟩ := ihb (c := (rest.asVirtual c).2.freshCode.2) (by omega)
    have hfirst : Numbered (c.code.val.toNat + rest.size)
        (c.code.val.toNat + (1 + below.size + rest.size))
        (n.asVirtual (rest.asVirtual c).2.code
          :: (below.asVirtual (rest.asVirtual c).2.freshCode.2).1.labels) := by
      have hcons := numbered_cons (n := n) (by omega) hbelows
      rw [hlater] at hcons
      rwa [show c.code.val.toNat + rest.size + 1 + below.size
        = c.code.val.toNat + (1 + below.size + rest.size) by omega] at hcons
    refine ⟨?_, ?_⟩
    · rw [asVirtual, size_cons]
      dsimp only
      omega
    · rw [asVirtual, size_cons, labels_cons]
      exact (hlaters.append hfirst (by omega) (by omega)).perm List.perm_append_comm

/-- A virtual copy of a tree takes as many codes as the tree has nodes, each of them once. -/
theorem Tree.numbered_asVirtual (t : Tree) {c : Counters}
    (hc : c.code.val.toNat + t.size < 2 ^ 32) :
    (t.asVirtual c).2.code.val.toNat = c.code.val.toNat + t.size ∧
      Numbered c.code.val.toNat (c.code.val.toNat + t.size) (t.asVirtual c).1.labels := by
  rw [size] at hc
  have hnode := Counters.toNat_freshCode (c := c) (by omega)
  obtain ⟨hbelow, hbelows⟩ := t.below.numbered_asVirtual (c := c.freshCode.2) (by omega)
  refine ⟨?_, ?_⟩
  · rw [asVirtual, size]
    dsimp only
    omega
  · rw [asVirtual, size, labels, ← Nat.add_assoc]
    exact numbered_cons (by omega) hbelows

end TwigAlgebra
