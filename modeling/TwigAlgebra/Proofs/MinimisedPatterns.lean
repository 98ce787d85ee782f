import Mathlib.Data.Set.Card
import TwigAlgebra.Proofs.Minimisation
import TwigAlgebra.Proofs.TreeCheck

/-!
# What minimising leaves of a pattern

The two rules are said without the walks that apply them.  Stored data goes from the nodes whose tag
no binding node has; an optional edge goes if, that data apart, nothing in the subtree of its child
matters.  What is reached without such an edge stays, slot by slot, in its place and in its order.

The second rule has two ways to take the edges: one by one, or all at once by pruning to the end of a
chain.  Both leave the same tree.

## Main definitions

* `Pattern.Unread`, `Pattern.GivesUp` — whose stored data goes.
* `Pattern.Idle`, `Pattern.Removes`, `Pattern.Loses` — the edges that go, and the slots with them.
* `Pattern.MinimisesTo` — what is left of the pattern.
* `Pattern.PrunesEitherWay` — both ways to take the edges leave that.

## Main results

* `Pattern.Sound.exists_minimisesTo` — the rules leave what they say, and count what is gone.
* `Pattern.Sound.prunesEitherWay` — in either way.
* `Pattern.Sound.minimise_again` — a second time nothing is left to do.
-/

namespace TwigAlgebra.Pattern

variable {p p₁ q : Pattern} {m : Minimisation} {unread : Bool} {f : Forest} {drop : List Handle}
  {c h i : Handle} {n : Node} {e : Edge} {tag : String}

/-! ### What goes -/

/-- A reached node with the tag binds a variable. -/
def BindsUnder (p : Pattern) (tag : String) : Prop :=
  ∃ h n, p.Reached h ∧ p.node? h = some n ∧ n.vars ≠ [] ∧ n.tag = tag

/-- The first rule applies, and no reached node with the tag binds a variable. -/
def Unread (p : Pattern) (m : Minimisation) (unread : Bool) (tag : String) : Prop :=
  m.minimizeStorage = true ∧ unread = true ∧ ¬p.BindsUnder tag

/-- The slot is reached, and its node gives up what it stores. -/
def GivesUp (p : Pattern) (m : Minimisation) (unread : Bool) (h : Handle) : Prop :=
  p.Reached h ∧ ∃ n, p.node? h = some n ∧ n.stores.any = true ∧ p.Unread m unread n.tag

/-- The nodes in the subtree of `c` bind and require nothing, and give up what they store. -/
def Idle (p : Pattern) (m : Minimisation) (unread : Bool) (c : Handle) : Prop :=
  ∀ i n, p.Above c i → p.node? i = some n →
    n.vars = [] ∧ n.requires.any = false ∧ (n.stores.any = true → p.Unread m unread n.tag)

/-- The second rule applies, and the edge is optional and leads to an idle subtree. -/
def Removes (p : Pattern) (m : Minimisation) (unread : Bool) (e : Edge) : Prop :=
  m.pruneBranches = true ∧ e.optional = true ∧ p.Idle m unread e.child

/-- There is an edge that goes on the way from the root to the slot. -/
def Loses (p : Pattern) (m : Minimisation) (unread : Bool) (h : Handle) : Prop :=
  ∃ i n e, p.Reached i ∧ p.node? i = some n ∧ e ∈ n.edges ∧ p.Removes m unread e ∧
    p.Above e.child h

/-- What the nodes with `n`'s tag store is given up, or it stays. -/
def LeavesStored (p : Pattern) (m : Minimisation) (unread : Bool) (n : Node) (stores : Stores) : Prop :=
  (p.Unread m unread n.tag → stores = .none) ∧ (¬p.Unread m unread n.tag → stores = n.stores)

/-- From its root on, `q` is what the rules leave of `p`. -/
structure MinimisesTo (m : Minimisation) (unread : Bool) (p q : Pattern) : Prop where
  /-- The name stays. -/
  name : q.name = p.name
  /-- The root stays. -/
  root : q.root = p.root
  /-- A slot is still reached unless it hangs on an edge that goes. -/
  reached : ∀ h, q.Reached h ↔ p.Reached h ∧ ¬p.Loses m unread h
  /-- A node that is still reached gives up what it stores or does not, loses the edges that go, and
  is otherwise the same, but for what it remembers. -/
  nodes : ∀ h n, q.Reached h → p.node? h = some n → ∃ stores edges memo,
    q.node? h = some { n with stores, edges, topMemo := memo } ∧ p.LeavesStored m unread n stores ∧
      edges.Sublist n.edges ∧ ∀ e, e ∈ edges ↔ e ∈ n.edges ∧ ¬p.Removes m unread e

/-- What is counted: the pattern, the nodes that give up what they store, and the slots that go. -/
noncomputable def savings (p : Pattern) (m : Minimisation) (unread : Bool) : Savings where
  scansVisited := 1
  storageCleared := {h | p.GivesUp m unread h}.ncard
  nodesPruned := {h | p.Loses m unread h}.ncard

/-! ### Subtrees after the first rule -/

theorem Spans.below_iff_above (hf : p.Spans f) (hc : c ∈ f.handles) :
    p.Below c i ↔ p.Above c i := by
  obtain ⟨below, hspans, -, -⟩ := hf.exists_subtree hc
  rw [hspans.below_iff, ← hspans.mem_iff_above, Forest.handles_cons, Forest.handles_nil,
    List.append_nil]

theorem Sound.mem_tagsOn_iff (hp : p.Sound f) : tag ∈ p.tagsOn f ↔ p.BindsUnder tag := by
  rw [Pattern.mem_tagsOn_iff]
  simp only [mem_nodesOn_iff, ← hp.reached_iff]
  constructor
  · rintro ⟨n, ⟨h, hh, hn⟩, hvars, htag⟩
    exact ⟨h, n, hh, hn, hvars, htag⟩
  · rintro ⟨h, n, hh, hn, hvars, htag⟩
    exact ⟨n, ⟨h, hh, hn⟩, hvars, htag⟩

theorem Sound.unread_iff (hp : p.Sound f) :
    p.Unread m unread tag ↔ (m.minimizeStorage && unread) = true ∧ tag ∉ p.tagsOn f := by
  rw [Unread, hp.mem_tagsOn_iff, Bool.and_eq_true, and_assoc]

namespace Steps

/-- The first rule changes what a node stores, and nothing else that matters. -/
theorem exists_node (hp : p.Sound f) (hs : Steps m unread f p p₁ q drop) (hh : h ∈ f.handles)
    (hn : p.node? h = some n) : ∃ stores memo,
      p₁.node? h = some { n with stores, topMemo := memo } ∧ p.LeavesStored m unread n stores := by
  obtain ⟨memo, hm⟩ := hs.clears.exists_node hn
  simp only [LeavesStored, hp.unread_iff]
  cases hrule : m.minimizeStorage && unread with
  | true =>
    simp only [hrule, if_true, hh] at hm
    refine ⟨_, memo, hm, fun hunread => if_neg hunread.2, fun hread => if_pos ?_⟩
    by_contra htag
    exact hread ⟨rfl, htag⟩
  | false =>
    simp only [hrule, Bool.false_eq_true, if_false, List.not_mem_nil] at hm
    exact ⟨n.stores, memo, hm, nofun, fun _ => rfl⟩

theorem below_iff (hp : p.Sound f) (hs : Steps m unread f p p₁ q drop) (hc : c ∈ f.handles) :
    p₁.Below c i ↔ p.Above c i := by
  obtain ⟨below, hspans, -, -⟩ := hp.spans.exists_subtree hc
  rw [(hs.clears.thins.spans hspans).below_iff, ← hspans.below_iff, hp.spans.below_iff_above hc]

/-- A subtree is inert after the first rule if it was idle before. -/
theorem inert_iff (hp : p.Sound f) (hs : Steps m unread f p p₁ q drop) (hc : c ∈ f.handles) :
    p₁.Inert c ↔ p.Idle m unread c := by
  -- after the first rule a node stores nothing if it stored nothing or is unread
  have hnode : ∀ i n, p.Above c i → p.node? i = some n → ∃ stores memo,
      p₁.node? i = some { n with stores, topMemo := memo } ∧
        (stores.any = false ↔ (n.stores.any = true → p.Unread m unread n.tag)) := by
    intro i n hi hn
    obtain ⟨stores, memo, hm, hunread, hread⟩ := hs.exists_node hp (hp.spans.mem_of_above hc hi) hn
    refine ⟨stores, memo, hm, ?_⟩
    by_cases htag : p.Unread m unread n.tag
    · rw [hunread htag]
      exact iff_of_true rfl fun _ => htag
    · rw [hread htag]
      cases n.stores.any <;> simp [htag]
  constructor
  · intro hinert i n hi hn
    obtain ⟨stores, memo, hm, hiff⟩ := hnode i n hi hn
    obtain ⟨hvars, hrequires, hstores⟩ := hinert i ((hs.below_iff hp hc).mpr hi) _ hm
    exact ⟨hvars, hrequires, hiff.mp hstores⟩
  · intro hidle i hi k hk
    have habove := (hs.below_iff hp hc).mp hi
    obtain ⟨n, hn⟩ := hp.spans.exists_node (hp.spans.mem_of_above hc habove)
    obtain ⟨stores, memo, hm, hiff⟩ := hnode i n habove hn
    obtain ⟨hvars, hrequires, hstores⟩ := hidle i n habove hn
    cases hk.symm.trans hm
    exact ⟨hvars, hrequires, hiff.mpr hstores⟩

/-! ### The edges and slots that go -/

/-- A branch is removable after the first rule if the rules remove its edge. -/
theorem removable_iff (hp : p.Sound f) (hs : Steps m unread f p p₁ q drop)
    (hprune : m.pruneBranches = true) (hh : h ∈ f.handles) (hn : p.node? h = some n)
    (he : e ∈ n.edges) : p₁.Removable f (h, e.child) ↔ p.Removes m unread e := by
  have hc : e.child ∈ f.handles := hp.spans.mem_of_mem_children hh
    (children?_eq_some_iff.mpr ⟨n, hn, rfl⟩) (List.mem_map_of_mem he)
  obtain ⟨stores, memo, hm, -⟩ := hs.exists_node hp hh hn
  constructor
  · intro hr
    obtain ⟨k, e', hk, he', hoptional, hchild⟩ := hr.edge
    cases hm.symm.trans hk
    -- two edges of one node do not lead to one child
    have hnodup := hp.isTree.nodup_children (hp.reached_iff.mpr hh) hn
    obtain rfl := List.inj_on_of_nodup_map hnodup he' he hchild
    exact ⟨hprune, hoptional, (hs.inert_iff hp hc).mp hr.inert⟩
  · rintro ⟨-, hoptional, hidle⟩
    exact ⟨hh, ⟨_, e, hm, he, hoptional, rfl⟩, (hs.inert_iff hp hc).mpr hidle⟩

/-- The slots that go are those that the rules lose. -/
theorem mem_drop_iff (hp : p.Sound f) (hs : Steps m unread f p p₁ q drop) :
    h ∈ drop ↔ p.Loses m unread h := by
  rw [hs.doomed]
  constructor
  · -- a doomed slot is below the end of a removable edge
    rintro ⟨hprune, ⟨i, c⟩, hr, hbelow⟩
    have hi : i ∈ f.handles := hr.parent
    obtain ⟨n, hn⟩ := hp.spans.exists_node hi
    obtain ⟨stores, memo, hm, -⟩ := hs.exists_node hp hi hn
    obtain ⟨k, e, hk, he, -, rfl⟩ := hr.edge
    cases hm.symm.trans hk
    have hc := hr.mem_handles (hs.reduces_clears hp).sound.spans
    exact ⟨i, n, e, hp.reached_iff.mpr hi, hn, he, (hs.removable_iff hp hprune hi hn he).mp hr,
      (hs.below_iff hp hc).mp hbelow⟩
  · rintro ⟨i, n, e, hi, hn, he, hremoves, habove⟩
    have hi := hp.reached_iff.mp hi
    have hr := (hs.removable_iff hp hremoves.1 hi hn he).mpr hremoves
    have hc := hr.mem_handles (hs.reduces_clears hp).sound.spans
    exact ⟨hremoves.1, (i, e.child), hr, (hs.below_iff hp hc).mpr habove⟩

/-- An edge of a node that stays goes with its child. -/
theorem mem_drop_child_iff (hp : p.Sound f) (hs : Steps m unread f p p₁ q drop)
    (hh : h ∈ f.handles) (hmem : h ∉ drop) (hn : p.node? h = some n) (he : e ∈ n.edges) :
    e.child ∈ drop ↔ p.Removes m unread e := by
  cases hprune : m.pruneBranches with
  | false =>
    refine iff_of_false (fun hc => ?_) fun hremoves => ?_
    · rw [hs.doomed, hprune] at hc
      cases hc.1
    · rw [Removes, hprune] at hremoves
      cases hremoves.1
  | true =>
    have hdoomed : ∀ i, i ∈ drop ↔ p₁.Doomed f i := fun i =>
      (hs.doomed i).trans (and_iff_right hprune)
    obtain ⟨stores, memo, hm, -⟩ := hs.exists_node hp hh hn
    rw [(hs.reduces_clears hp).sound.mem_drop_iff hdoomed hh hmem hm (List.mem_map_of_mem he),
      hs.removable_iff hp hprune hh hn he]

/-- The slots that are still reached. -/
theorem reached_iff (hp : p.Sound f) (hs : Steps m unread f p p₁ q drop) :
    q.Reached h ↔ h ∈ f.handles ∧ h ∉ drop := by
  have hspans := (hs.reduces_clears hp).sound.spans
  rw [(hs.reduces hp).sound.reached_iff, (hs.drops hp).handles_without hspans, List.mem_filter,
    decide_eq_true_iff]

/-- The steps leave what the rules say. -/
theorem minimisesTo (hp : p.Sound f) (hs : Steps m unread f p p₁ q drop) :
    p.MinimisesTo m unread q where
  name := (hs.reduces hp).name
  root := hs.cuts.root.trans hs.clears.root
  reached h := by rw [hs.reached_iff hp, hp.reached_iff, hs.mem_drop_iff hp]
  nodes h n hh hn := by
    obtain ⟨hf, hmem⟩ := (hs.reached_iff hp).mp hh
    obtain ⟨stores, memo, hm, hleaves⟩ := hs.exists_node hp hf hn
    obtain ⟨memo', hk⟩ := hs.cuts.exists_node hf hmem hm
    refine ⟨stores, _, memo', hk, hleaves, List.filter_sublist, fun e => ?_⟩
    rw [Node.mem_edges_cut]
    exact and_congr_right fun he => not_congr (hs.mem_drop_child_iff hp hf hmem hn he)

/-! ### Counting -/

/-- The slots that go are as many as the forest loses. -/
theorem ncard_loses (hp : p.Sound f) (hs : Steps m unread f p p₁ q drop) :
    f.handles.length - (f.without drop).handles.length = {h | p.Loses m unread h}.ncard := by
  have hlost : {h | p.Loses m unread h}.ncard = f.handles.countP (· ∈ drop) := by
    refine Set.ncard_eq_countP hp.nodup fun h => ?_
    rw [Set.mem_ofPred_eq, ← hs.mem_drop_iff hp, decide_eq_true_iff]
    refine (and_iff_right_of_imp fun hmem => ?_).symm
    obtain ⟨r, hr, hbelow⟩ := ((hs.doomed h).mp hmem).2
    have hspans := (hs.reduces_clears hp).sound.spans
    exact hspans.mem_of_below (hr.mem_handles hspans) hbelow
  rw [(hs.drops hp).handles_without (hs.reduces_clears hp).sound.spans, hlost,
    ← List.countP_eq_length_filter, List.length_eq_countP_add_countP (· ∈ drop)]
  simp

/-- A node still stores something if it did and does not give it up. -/
theorem stores_iff (hp : p.Sound f) (hs : Steps m unread f p p₁ q drop) (hh : h ∈ f.handles) :
    (p₁.node? h).any (·.stores.any) = true ↔
      (p.node? h).any (·.stores.any) = true ∧ ¬p.GivesUp m unread h := by
  obtain ⟨n, hn⟩ := hp.spans.exists_node hh
  obtain ⟨stores, memo, hm, hunread, hread⟩ := hs.exists_node hp hh hn
  have hgives : p.GivesUp m unread h ↔ n.stores.any = true ∧ p.Unread m unread n.tag := by
    rw [GivesUp, hp.reached_iff, hn]
    simp [hh]
  rw [hgives, hm, hn, Option.any_some, Option.any_some]
  by_cases htag : p.Unread m unread n.tag
  · rw [hunread htag]
    simp [htag]
  · rw [hread htag]
    simp [htag]

/-- The nodes that no longer store anything are those that give up what they store. -/
theorem ncard_givesUp (hp : p.Sound f) (hs : Steps m unread f p p₁ q drop) :
    (p.nodesOn f).countP (·.stores.any) - (p₁.nodesOn f).countP (·.stores.any)
      = {h | p.GivesUp m unread h}.ncard := by
  let before : Handle → Bool := fun h => (p.node? h).any (·.stores.any)
  let after : Handle → Bool := fun h => (p₁.node? h).any (·.stores.any)
  have hgives : {h | p.GivesUp m unread h}.ncard
      = f.handles.countP fun h => before h && !after h := by
    refine Set.ncard_eq_countP hp.nodup fun h => ?_
    rw [Set.mem_ofPred_eq, Bool.and_eq_true, Bool.not_eq_true']
    constructor
    · intro hgives
      have hh := hp.reached_iff.mp hgives.1
      obtain ⟨n, hn, hstores, -⟩ := hgives.2
      refine ⟨hh, by simp only [before, hn, Option.any_some, hstores], ?_⟩
      rw [Bool.eq_false_iff]
      exact fun hafter => ((hs.stores_iff hp hh).mp hafter).2 hgives
    · rintro ⟨hh, hbefore, hafter⟩
      by_contra hkeeps
      rw [Bool.eq_false_iff] at hafter
      exact hafter ((hs.stores_iff hp hh).mpr ⟨hbefore, hkeeps⟩)
  -- a node that stores something afterwards has stored something before
  have hkeep : f.handles.countP (fun h => before h && after h) = f.handles.countP after :=
    List.countP_congr fun h hh => by
      rw [Bool.and_eq_true]
      exact and_iff_right_of_imp fun hafter => ((hs.stores_iff hp hh).mp hafter).1
  have hcount : ∀ r : Pattern, (r.nodesOn f).countP (·.stores.any)
      = f.handles.countP fun h => (r.node? h).any (·.stores.any) := by
    intro r
    rw [nodesOn, List.countP_filterMap]
    refine congrArg (List.countP · f.handles) (funext fun h => ?_)
    cases r.node? h <;> rfl
  rw [hcount, hcount, hgives, List.countP_eq_countP_filter_add f.handles before after,
    List.countP_filter, List.countP_filter, hkeep]
  exact Nat.add_sub_cancel_left _ _

end Steps

/-- The rules leave what they say, and count what is gone.  The first rule leaves nothing remembered. -/
theorem Sound.exists_minimisesTo (hp : p.Sound f) (m : Minimisation) (unread : Bool) :
    ∃ q g, p.minimise m unread = some (q, p.savings m unread, .ok ()) ∧ p.MinimisesTo m unread q ∧
      q.Sound g ∧ ((m.minimizeStorage && unread) = true → q.forget = q) := by
  obtain ⟨cleared, p₁, q, drop, hs, hforget, -, hcleared, hq⟩ := hp.exists_steps m unread
  rw [hs.ncard_givesUp hp] at hcleared
  rw [hcleared, hs.ncard_loses hp] at hq
  exact ⟨q, _, hq, hs.minimisesTo hp, (hs.reduces hp).sound, hforget⟩

/-! ### Either way -/

/-- After the first rule the branches to remove are found.  Taking their edges one by one leaves what
the rules say; and so does, where the nodes that stay are a chain, pruning to the code at its end. -/
def PrunesEitherWay (p : Pattern) (m : Minimisation) (unread : Bool) : Prop :=
  ∃ cleared p₁ handles branches slots,
    (if (m.minimizeStorage && unread) = true then p.clearUnread else some (0, p))
      = some (cleared, p₁) ∧
    p₁.preorder = some handles ∧ handles.mapM p₁.inertChildren = some branches ∧
    (branches.flatten.mapM fun r => p₁.bfs r.2) = some slots ∧
    (∃ q, removeEdges slots.flatten branches.flatten p₁ = some q ∧ p.MinimisesTo m unread q) ∧
    ∀ t, p₁.chainEnd slots.flatten p₁.size p₁.root = some (some t) →
      ∃ n q, p₁.node? t = some n ∧ p₁.pruneTo n.code = some (true, q) ∧ p.MinimisesTo m unread q

theorem Sound.prunesEitherWay (hp : p.Sound f) (hprune : m.pruneBranches = true) :
    p.PrunesEitherWay m unread := by
  obtain ⟨cleared, p₁, q, drop, hs, -, hp₁, -, -⟩ := hp.exists_steps m unread
  have hsound := (hs.reduces_clears hp).sound
  obtain ⟨branches, hbranches, hremovable⟩ := hsound.spans.exists_removable
  obtain ⟨slots, hslots, hdoomed⟩ := hsound.spans.exists_dropped hremovable
  -- whichever way the branches are cut off, the same steps are taken
  have hcut : ∀ {q}, Cuts slots.flatten f p₁ q → p.MinimisesTo m unread q := fun hcuts =>
    Steps.minimisesTo hp ⟨hs.clears, fun i => (hdoomed i).trans (and_iff_right hprune).symm, hcuts⟩
  refine ⟨cleared, p₁, f.handles, branches, slots, hp₁,
    hsound.spans.preorder_eq hsound.roots_eq, hbranches, hslots, ?_, fun t ht => ?_⟩
  · -- edge by edge
    obtain ⟨q, hq, hcuts⟩ := hsound.exists_removeEdges hremovable hdoomed
    exact ⟨q, hq, hcut hcuts⟩
  · -- by the end of a chain
    obtain ⟨o, ho, hend⟩ := hsound.unfolds.exists_chainEnd slots.flatten
    obtain rfl := Option.some.inj (ho.symm.trans ht)
    obtain ⟨n, q, hn, hq, hcuts⟩ := hsound.exists_pruneTo (hsound.drops hdoomed) (hend t rfl)
    exact ⟨n, q, hn, hq, hcut hcuts⟩

/-! ### A second time -/

namespace MinimisesTo

theorem exists_node (hp : p.Sound f) (hpq : p.MinimisesTo m unread q) (hh : q.Reached h) :
    ∃ n stores edges memo, p.node? h = some n ∧
      q.node? h = some { n with stores, edges, topMemo := memo } ∧ p.LeavesStored m unread n stores ∧
      ∀ e, e ∈ edges ↔ e ∈ n.edges ∧ ¬p.Removes m unread e := by
  have hreached := ((hpq.reached h).mp hh).1
  obtain ⟨n, hn⟩ := hp.spans.exists_node (hp.reached_iff.mp hreached)
  obtain ⟨stores, edges, memo, hm, hleaves, -, hedges⟩ := hpq.nodes h n hh hn
  exact ⟨n, stores, edges, memo, hn, hm, hleaves, hedges⟩

/-- No node that binds a variable goes. -/
theorem bindsUnder_iff (hp : p.Sound f) (hpq : p.MinimisesTo m unread q) :
    q.BindsUnder tag ↔ p.BindsUnder tag := by
  constructor
  · rintro ⟨h, k, hh, hk, hvars, rfl⟩
    obtain ⟨n, stores, edges, memo, hn, hm, -⟩ := hpq.exists_node hp hh
    cases hk.symm.trans hm
    exact ⟨h, n, ((hpq.reached h).mp hh).1, hn, hvars, rfl⟩
  · rintro ⟨h, n, hh, hn, hvars, rfl⟩
    have hstays : ¬p.Loses m unread h := by
      rintro ⟨i, k, e, -, -, -, hremoves, habove⟩
      exact hvars (hremoves.2.2 h n habove hn).1
    obtain ⟨stores, edges, memo, hm, -⟩ := hpq.nodes h n ((hpq.reached h).mpr ⟨hh, hstays⟩) hn
    exact ⟨h, _, (hpq.reached h).mpr ⟨hh, hstays⟩, hm, hvars, rfl⟩

theorem unread_iff (hp : p.Sound f) (hpq : p.MinimisesTo m unread q) :
    q.Unread m unread tag ↔ p.Unread m unread tag := by
  rw [Unread, Unread, hpq.bindsUnder_iff hp]

/-- What stays of a subtree is below its top as before. -/
theorem above (hpq : p.MinimisesTo m unread q) (hc : p.Reached c)
    (habove : p.Above c i) (hstays : ¬p.Loses m unread i) : q.Above c i := by
  induction habove with
  | refl => exact .refl
  | @tail b i hb hlead ih =>
    have hreached : p.Reached b := Relation.ReflTransGen.trans hc hb
    obtain ⟨n, hn, hchild⟩ := hlead
    obtain ⟨e, he, rfl⟩ := List.mem_map.mp hchild
    have hb : ¬p.Loses m unread b := by
      rintro ⟨j, k, e', hj, hk, he', hremoves, hway⟩
      exact hstays ⟨j, k, e', hj, hk, he', hremoves, hway.tail ⟨n, hn, hchild⟩⟩
    have hkeeps : ¬p.Removes m unread e := fun hremoves =>
      hstays ⟨b, n, e, hreached, hn, he, hremoves, .refl⟩
    obtain ⟨stores, edges, memo, hm, -, -, hedges⟩ :=
      hpq.nodes b n ((hpq.reached b).mpr ⟨hreached, hb⟩) hn
    exact (ih hb).tail ⟨_, hm, List.mem_map_of_mem ((hedges e).mpr ⟨he, hkeeps⟩)⟩

/-- A subtree that is idle was idle before: all that has gone from it was idle, too. -/
theorem idle (hp : p.Sound f) (hpq : p.MinimisesTo m unread q) (hc : q.Reached c)
    (hidle : q.Idle m unread c) : p.Idle m unread c := by
  intro i n habove hn
  by_cases hloses : p.Loses m unread i
  · obtain ⟨j, k, e, -, -, -, hremoves, hway⟩ := hloses
    exact hremoves.2.2 i n hway hn
  · have hreached := ((hpq.reached c).mp hc).1
    have hway := hpq.above hreached habove hloses
    obtain ⟨stores, edges, memo, hm, hleaves, -⟩ :=
      hpq.nodes i n (Relation.ReflTransGen.trans hc hway) hn
    obtain ⟨hvars, hrequires, hstores⟩ := hidle i _ hway hm
    refine ⟨hvars, hrequires, fun hany => ?_⟩
    by_contra hread
    rw [hleaves.2 hread] at hstores
    exact hread ((hpq.unread_iff hp).mp (hstores hany))

/-- No edge is left to remove. -/
theorem not_removes (hp : p.Sound f) (hpq : p.MinimisesTo m unread q) (hh : q.Reached h)
    (hn : q.node? h = some n) (he : e ∈ n.edges) : ¬q.Removes m unread e := by
  rintro ⟨hprune, hoptional, hidle⟩
  obtain ⟨k, stores, edges, memo, hk, hm, -, hedges⟩ := hpq.exists_node hp hh
  have hchild : q.Reached e.child := hh.leads ⟨n, hn, List.mem_map_of_mem he⟩
  cases hn.symm.trans hm
  exact ((hedges e).mp he).2 ⟨hprune, hoptional, hpq.idle hp hchild hidle⟩

/-- No branch is left to remove. -/
theorem not_removable {g : Forest} (hp : p.Sound f) (hpq : p.MinimisesTo m unread q) (hq : q.Sound g)
    (hprune : m.pruneBranches = true) (r : Handle × Handle) : ¬q.Removable g r := by
  intro hr
  obtain ⟨n, e, hn, he, hoptional, hchild⟩ := hr.edge
  refine hpq.not_removes hp (hq.reached_iff.mpr hr.parent) hn he ⟨hprune, hoptional, ?_⟩
  intro i k habove hk
  have hbelow := (hq.spans.below_iff_above (hr.mem_handles hq.spans)).mpr (hchild ▸ habove)
  obtain ⟨hvars, hrequires, hstores⟩ := hr.inert i hbelow k hk
  exact ⟨hvars, hrequires, fun hany => absurd hany (by rw [hstores]; decide)⟩

/-- No stored data is left to clear. -/
theorem clearUnread_eq {g : Forest} (hp : p.Sound f) (hpq : p.MinimisesTo m unread q)
    (hq : q.Sound g) (hrule : (m.minimizeStorage && unread) = true) (hforget : q.forget = q) :
    q.clearUnread = some (0, q) := by
  obtain ⟨r, hclears, hforgets, hr⟩ := hq.unfolds.exists_clearUnread
  have hbare : ∀ h, r.bare? h = q.bare? h := by
    intro h
    rw [hclears.bare]
    split
    case isFalse => rfl
    case isTrue hh =>
      obtain ⟨n, stores, edges, memo, -, hm, hleaves, -⟩ := hpq.exists_node hp (hq.reached_iff.mpr hh)
      rw [bare?_eq_some_of_node? hm, Option.map_some, Option.some.injEq]
      by_cases htag : n.tag ∈ q.tagsOn g
      · exact Node.clearing_of_mem htag
      · -- the node has been cleared
        have hunread : p.Unread m unread n.tag :=
          (hpq.unread_iff hp).mp (hq.unread_iff.mpr ⟨hrule, htag⟩)
        rw [hleaves.1 hunread]
        exact Node.clearing_of_not_mem htag
  obtain rfl := eq_of_bare? hclears.name hclears.root hbare hforget hforgets
  rw [hr, Nat.sub_self]

end MinimisesTo

/-- The rules leave nothing to do for themselves: applied to what they left, they change nothing and
count nothing. -/
theorem Sound.minimise_again (hp : p.Sound f) {saved : Savings} {kept : Except PlanError Unit}
    (hpq : p.minimise m unread = some (q, saved, kept)) :
    q.minimise m unread = some (q, ⟨1, 0, 0⟩, .ok ()) := by
  obtain ⟨q', g, hpq', hminimises, hq, hforget⟩ := hp.exists_minimisesTo m unread
  cases hpq.symm.trans hpq'
  refine minimise_eq (q := q) ?_ ?_ ((Reduces.refl hq).checkKept_eq hq)
  · split
    case isTrue hrule => exact hminimises.clearUnread_eq hp hq hrule (hforget hrule)
    case isFalse => rfl
  · split
    case isTrue hprune => exact hq.unfolds.pruneInert_eq (hminimises.not_removable hp hq hprune)
    case isFalse => rfl

end TwigAlgebra.Pattern
