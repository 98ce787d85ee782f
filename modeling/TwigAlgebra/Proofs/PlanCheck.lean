import Mathlib.Data.List.Nodup
import Mathlib.Logic.Function.Basic
import TwigAlgebra.Proofs.Totality
import TwigAlgebra.Proofs.TreeCheck

/-!
# The check of a plan is exact

The check of a plan keeps three growing lists while it walks over the operators, and inside a scan
over the nodes and their variables.  What it accepts is said here without any walk.  An operator
has an address in the plan, a node has the address of its scan and a slot, and a variable is bound
at a position of a node or as the result of an aggregation.  No number of a scan, no code and no
variable may be found in two such places.

## Main definitions

* `Plan.Operator` — an operator without its inputs.
* `Plan.sub?`, `Plan.operator?`, `Plan.places` — what is at an address, and all subplans.
* `Plan.ScansAt`, `Plan.NodeAt`, `Plan.BindsAt` — where scans, nodes and variables are found.
* `Plan.Distinct` — every pattern is sound, and nothing is found in two places.
* `Plan.operators` — the operators of a plan, however they are arranged.

## Main results

* `Plan.Locates.nodup_flatMap_iff` — a list of what the operators bring along has no repetition if nothing
  is found in two places.
* `Plan.validate_decides_distinct` — the check accepts exactly the plans with distinct parts, and
  their arrangement does not matter.
-/

namespace TwigAlgebra

namespace Plan

variable {p q n : Plan} {a b : List Nat}

/-! ### Addresses -/

/-- An operator without its inputs. -/
inductive Operator where
  /-- A leaf. -/
  | scan (s : Scan) : Operator
  /-- An operator over one input. -/
  | unary (op : Unary) : Operator
  /-- An operator over two inputs. -/
  | binary (op : Binary) : Operator
  deriving DecidableEq, Repr, Inhabited

/-- The operator at the top. -/
def operator : Plan → Operator
  | scan s _ => .scan s
  | unary op _ _ => .unary op
  | binary op _ _ _ => .binary op

/-- The subplan at an address, which lists the positions among the inputs on the way down. -/
def sub? : List Nat → Plan → Option Plan
  | [], p => some p
  | i :: a, p => p.inputs[i]?.bind (sub? a)

/-- The operator at an address. -/
def operator? (p : Plan) (a : List Nat) : Option Operator := (p.sub? a).map operator

/-- The subplans with their addresses, the inputs of an operator before the operator. -/
def places : Plan → List (List Nat × Plan)
  | scan s d => [([], scan s d)]
  | unary op input d => input.places.map (Prod.map (0 :: ·) id) ++ [([], unary op input d)]
  | binary op left right d =>
    left.places.map (Prod.map (0 :: ·) id) ++ right.places.map (Prod.map (1 :: ·) id)
      ++ [([], binary op left right d)]

@[simp] theorem sub?_nil (p : Plan) : p.sub? [] = some p := rfl

@[simp] theorem sub?_cons (i : Nat) (a : List Nat) (p : Plan) :
    p.sub? (i :: a) = p.inputs[i]?.bind (sub? a) := rfl

theorem map_snd_places (p : Plan) : p.places.map Prod.snd = p.postorder := by
  induction p with
  | scan s d => rfl
  | unary op input d ih => simp [places, ih, List.map_map, Function.comp_def]
  | binary op left right d ihl ihr => simp [places, ihl, ihr, List.map_map, Function.comp_def]

theorem mem_map_cons_iff {l : List (List Nat × Plan)} {i : Nat} :
    (a, n) ∈ l.map (Prod.map (i :: ·) id) ↔ ∃ b, a = i :: b ∧ (b, n) ∈ l := by
  constructor
  · intro h
    obtain ⟨⟨b, m⟩, hmem, heq⟩ := List.mem_map.mp h
    cases heq
    exact ⟨b, rfl, hmem⟩
  · rintro ⟨b, rfl, hmem⟩
    exact List.mem_map.mpr ⟨(b, n), hmem, rfl⟩

/-- The subplans listed with an address are the subplan there. -/
theorem mem_places_iff : (a, n) ∈ p.places ↔ p.sub? a = some n := by
  induction p generalizing a with
  | scan s d => cases a <;> simp [places, inputs, eq_comm]
  | unary op input d ih =>
    rw [places, List.mem_append, mem_map_cons_iff]
    cases a with
    | nil => simpa using eq_comm
    | cons i a => cases i <;> simp [inputs, ih]
  | binary op left right d ihl ihr =>
    rw [places, List.mem_append, List.mem_append, mem_map_cons_iff, mem_map_cons_iff]
    cases a with
    | nil => simpa using eq_comm
    | cons i a =>
      rcases i with _ | _ | i
      · -- the left input, the right input, and no third one
        simp [inputs, ihl]
      · simp [inputs, ihr]
      · simp [inputs]

/-- No address is listed twice. -/
theorem nodup_map_fst_places (p : Plan) : (p.places.map Prod.fst).Nodup := by
  have hcons : ∀ (i : Nat) (l : List (List Nat × Plan)),
      (l.map (Prod.map (i :: ·) id)).map Prod.fst = (l.map Prod.fst).map (i :: ·) := by
    intro i l
    rw [List.map_map, List.map_map]
    rfl
  have hnodup : ∀ (i : Nat) {l : List (List Nat)}, l.Nodup → (l.map (i :: ·)).Nodup :=
    fun i _ hl => hl.map fun _ _ h => List.tail_eq_of_cons_eq h
  induction p with
  | scan s d => exact List.nodup_singleton _
  | unary op input d ih =>
    rw [places, List.map_append, hcons]
    refine (hnodup 0 ih).append (List.nodup_singleton _) fun x hx hx' => ?_
    obtain ⟨y, -, rfl⟩ := List.mem_map.mp hx
    cases List.mem_singleton.mp hx'
  | binary op left right d ihl ihr =>
    rw [places, List.map_append, List.map_append, hcons, hcons]
    refine ((hnodup 0 ihl).append (hnodup 1 ihr) fun x hx hx' => ?_).append
      (List.nodup_singleton _) fun x hx hx' => ?_
    · -- an address starts with the number of its input, so that the inputs share none
      obtain ⟨y, -, rfl⟩ := List.mem_map.mp hx
      obtain ⟨z, -, heq⟩ := List.mem_map.mp hx'
      cases heq
    · -- the address of the operator itself is empty
      rw [List.mem_append] at hx
      rcases hx with hx | hx <;> obtain ⟨y, -, rfl⟩ := List.mem_map.mp hx <;>
        cases List.mem_singleton.mp hx'

theorem mem_postorder_iff : n ∈ p.postorder ↔ ∃ a, p.sub? a = some n := by
  rw [← map_snd_places, List.mem_map]
  constructor
  · rintro ⟨⟨a, m⟩, hmem, rfl⟩
    exact ⟨a, mem_places_iff.mp hmem⟩
  · rintro ⟨a, ha⟩
    exact ⟨(a, n), mem_places_iff.mpr ha, rfl⟩

/-- What the operators bring along repeats nothing if no operator does, and no two addresses. -/
theorem nodup_flatMap_postorder_iff {β : Type} {g : Plan → List β} :
    (p.postorder.flatMap g).Nodup ↔ (∀ a n, p.sub? a = some n → (g n).Nodup) ∧
      ∀ a b n m x, p.sub? a = some n → p.sub? b = some m → x ∈ g n → x ∈ g m → a = b := by
  have hplaces : p.places.Nodup := p.nodup_map_fst_places.of_map
  rw [← map_snd_places, List.flatMap_map, List.nodup_flatMap_iff_of_nodup hplaces]
  constructor
  · rintro ⟨hown, hshared⟩
    refine ⟨fun a n ha => hown (a, n) (mem_places_iff.mpr ha), fun a b n m x ha hb hxn hxm => ?_⟩
    exact congrArg Prod.fst
      (hshared (a, n) (mem_places_iff.mpr ha) (b, m) (mem_places_iff.mpr hb) x hxn hxm)
  · rintro ⟨hown, hshared⟩
    refine ⟨fun ⟨a, n⟩ ha => hown a n (mem_places_iff.mp ha), ?_⟩
    rintro ⟨a, n⟩ ha ⟨b, m⟩ hb x hxn hxm
    obtain rfl := hshared a b n m x (mem_places_iff.mp ha) (mem_places_iff.mp hb) hxn hxm
    cases (mem_places_iff.mp ha).symm.trans (mem_places_iff.mp hb)
    rfl

/-! ### Where things are found -/

/-- The sites where `At` finds things lie at the addresses of the operators that `g` lists these
things for, and `g` lists a thing for an operator once for each of its sites. -/
structure Locates {σ β : Type} (p : Plan) (g : Plan → List β) (address : σ → List Nat)
    (At : σ → β → Prop) : Prop where
  /-- Every site is at an operator. -/
  inside : ∀ s x, At s x → ∃ n, p.sub? (address s) = some n
  /-- An operator lists what is found at its sites. -/
  mem_iff : ∀ a n x, p.sub? a = some n → (x ∈ g n ↔ ∃ s, address s = a ∧ At s x)
  /-- An operator repeats nothing if nothing is found at two of its sites. -/
  nodup_iff : ∀ a n, p.sub? a = some n → ((g n).Nodup ↔
    ∀ s s' x, address s = a → address s' = a → At s x → At s' x → s = s')

/-- The lists of the operators repeat nothing if nothing is found at two sites. -/
theorem Locates.nodup_flatMap_iff {σ β : Type} {g : Plan → List β} {address : σ → List Nat}
    {At : σ → β → Prop} (hg : p.Locates g address At) :
    (p.postorder.flatMap g).Nodup ↔ ∀ s s' x, At s x → At s' x → s = s' := by
  rw [nodup_flatMap_postorder_iff]
  constructor
  · rintro ⟨hown, hshared⟩ s s' x hs hs'
    obtain ⟨n, hn⟩ := hg.inside s x hs
    obtain ⟨m, hm⟩ := hg.inside s' x hs'
    have haddress : address s = address s' := hshared _ _ n m x hn hm
      ((hg.mem_iff _ n x hn).mpr ⟨s, rfl, hs⟩) ((hg.mem_iff _ m x hm).mpr ⟨s', rfl, hs'⟩)
    exact (hg.nodup_iff _ n hn).mp (hown _ n hn) s s' x rfl haddress.symm hs hs'
  · intro hsites
    refine ⟨fun a n hn => (hg.nodup_iff a n hn).mpr fun s s' x _ _ => hsites s s' x, ?_⟩
    -- a shared element is found at two sites, which are the same and have one address
    intro a b n m x hn hm hxn hxm
    obtain ⟨s, rfl, hs⟩ := (hg.mem_iff a n x hn).mp hxn
    obtain ⟨s', rfl, hs'⟩ := (hg.mem_iff b m x hm).mp hxm
    rw [hsites s s' x hs hs']

/-- The scan at the address has the number. -/
def ScansAt (p : Plan) (a : List Nat) (i : ScanId) : Prop :=
  ∃ s, p.operator? a = some (.scan s) ∧ s.id = i

/-- The scan at the address has the pattern. -/
def HasPattern (p : Plan) (a : List Nat) (r : Pattern) : Prop :=
  ∃ s, p.operator? a = some (.scan s) ∧ s.pattern = some r

/-- The slot of the pattern at the address is reached, and holds the node. -/
def NodeAt (p : Plan) (a : List Nat) (h : Handle) (n : Node) : Prop :=
  ∃ r, p.HasPattern a r ∧ r.Reached h ∧ r.node? h = some n

/-- A place where a plan can bind a variable. -/
inductive Site where
  /-- A position among the variables of a node, which is in a slot of the pattern at an address. -/
  | node (a : List Nat) (h : Handle) (k : Nat) : Site
  /-- The result of the aggregation at an address. -/
  | result (a : List Nat) : Site
  deriving DecidableEq, Repr, Inhabited

/-- The address of the operator that binds. -/
def Site.address : Site → List Nat
  | node a _ _ => a
  | result a => a

/-- The plan binds the variable in the place. -/
def BindsAt (p : Plan) : Site → Var → Prop
  | .node a h k, v => ∃ n w, p.NodeAt a h n ∧ n.vars[k]? = some w ∧ w.id = v
  | .result a, v => ∃ g, p.operator? a = some (.unary (.aggregate g)) ∧ g.result = v

/-- Every pattern is sound, and scans, codes and variables are found in one place each. -/
structure Distinct (p : Plan) : Prop where
  /-- The check of patterns accepts every pattern. -/
  patterns : ∀ a r, p.HasPattern a r → r.validate = .ok ()
  /-- No two scans have one number. -/
  scans : ∀ a b i, p.ScansAt a i → p.ScansAt b i → a = b
  /-- No two reached nodes have one code, in one pattern or in two. -/
  codes : ∀ a b h i n m, p.NodeAt a h n → p.NodeAt b i m → n.code = m.code → a = b ∧ h = i
  /-- No variable is bound in two places. -/
  vars : ∀ x y v, p.BindsAt x v → p.BindsAt y v → x = y

end Plan

/-! ### Variables of a pattern -/

namespace Pattern

variable {p : Pattern} {f : Forest}

/-- The variables bound to the node in a slot. -/
def varsAt (p : Pattern) (h : Handle) : List Var :=
  ((p.node? h).map fun n => n.vars.map (·.id)).getD []

/-- The pattern binds the variable in a position of the node in a slot that it reaches. -/
def BindsAt (p : Pattern) (h : Handle) (k : Nat) (v : Var) : Prop :=
  ∃ n w, p.Reached h ∧ p.node? h = some n ∧ n.vars[k]? = some w ∧ w.id = v

theorem flatMap_nodesOn (p : Pattern) (f : Forest) :
    ((p.nodesOn f).flatMap fun n => n.vars.map (·.id)) = f.handles.flatMap p.varsAt := by
  rw [nodesOn, List.filterMap_eq_flatMap_toList, List.flatMap_assoc]
  refine congrArg (f.handles.flatMap ·) (funext fun h => ?_)
  rw [varsAt]
  cases p.node? h <;> simp

theorem bindsAt_iff_getElem? {h : Handle} {k : Nat} {v : Var} (hh : p.Reached h) :
    p.BindsAt h k v ↔ (p.varsAt h)[k]? = some v := by
  cases hn : p.node? h with
  | none => simp [BindsAt, varsAt, hn]
  | some n => simp [BindsAt, varsAt, hn, hh, List.getElem?_map]

namespace Sound

theorem mem_codes_iff (hp : p.Sound f) {code : Code} :
    code ∈ (p.nodesOn f).map (·.code) ↔ ∃ h n, p.Reached h ∧ p.node? h = some n ∧ n.code = code := by
  simp only [List.mem_map, mem_nodesOn_iff, hp.reached_iff]
  constructor
  · rintro ⟨n, ⟨h, hh, hn⟩, rfl⟩
    exact ⟨h, n, hh, hn, rfl⟩
  · rintro ⟨h, n, hh, hn, rfl⟩
    exact ⟨n, ⟨h, hh, hn⟩, rfl⟩

theorem mem_vars_iff (hp : p.Sound f) {v : Var} :
    v ∈ (p.nodesOn f).flatMap (fun n => n.vars.map (·.id)) ↔ ∃ h k, p.BindsAt h k v := by
  rw [flatMap_nodesOn, List.mem_flatMap]
  constructor
  · rintro ⟨h, hh, hv⟩
    obtain ⟨k, hk⟩ := List.mem_iff_getElem?.mp hv
    exact ⟨h, k, (bindsAt_iff_getElem? (hp.reached_iff.mpr hh)).mpr hk⟩
  · rintro ⟨h, k, hv⟩
    obtain ⟨n, w, hh, -⟩ := id hv
    exact ⟨h, hp.reached_iff.mp hh, List.mem_of_getElem? ((bindsAt_iff_getElem? hh).mp hv)⟩

/-- The variables of a sound pattern repeat nothing if none is bound in two positions. -/
theorem nodup_vars_iff (hp : p.Sound f) :
    ((p.nodesOn f).flatMap fun n => n.vars.map (·.id)).Nodup ↔
      ∀ h i k l v, p.BindsAt h k v → p.BindsAt i l v → h = i ∧ k = l := by
  rw [flatMap_nodesOn, List.nodup_flatMap_iff_of_nodup hp.nodup]
  constructor
  · rintro ⟨hown, hshared⟩ h i k l v hv hv'
    obtain ⟨n, w, hh, -⟩ := id hv
    obtain ⟨m, w', hi, -⟩ := id hv'
    rw [bindsAt_iff_getElem? hh] at hv
    rw [bindsAt_iff_getElem? hi] at hv'
    rw [hp.reached_iff] at hh hi
    obtain rfl := hshared h hh i hi v (List.mem_of_getElem? hv) (List.mem_of_getElem? hv')
    obtain ⟨hk, rfl⟩ := List.getElem?_eq_some_iff.mp hv
    obtain ⟨hl, heq⟩ := List.getElem?_eq_some_iff.mp hv'
    exact ⟨rfl, (hown h hh).getElem_inj_iff.mp heq.symm⟩
  · intro hpositions
    refine ⟨fun h hh => List.nodup_iff_getElem?_ne_getElem?.mpr fun k l hlt hl heq => ?_,
      fun h hh i hi v hv hv' => ?_⟩
    · -- two positions of one node
      have hreached := hp.reached_iff.mpr hh
      have hbind := (List.getElem?_eq_getElem hl)
      have hkl := (hpositions h h k l _ ((bindsAt_iff_getElem? hreached).mpr (heq.trans hbind))
        ((bindsAt_iff_getElem? hreached).mpr hbind)).2
      omega
    · -- positions of two nodes
      obtain ⟨k, hk⟩ := List.mem_iff_getElem?.mp hv
      obtain ⟨l, hl⟩ := List.mem_iff_getElem?.mp hv'
      exact (hpositions h i k l v ((bindsAt_iff_getElem? (hp.reached_iff.mpr hh)).mpr hk)
        ((bindsAt_iff_getElem? (hp.reached_iff.mpr hi)).mpr hl)).1

end Sound

end Pattern

/-! ### The lists of the check -/

namespace Plan

variable {p q n : Plan} {a : List Nat} {r : Pattern} {f : Forest}

/-- The pattern of the scan at the top, if it is one and has one. -/
def pattern? (n : Plan) : Option Pattern := n.scan?.bind (·.pattern)

theorem operator?_of_sub? (hn : p.sub? a = some n) : p.operator? a = some n.operator := by
  rw [operator?, hn, Option.map_some]

theorem exists_sub?_of_operator? {o : Operator} (ho : p.operator? a = some o) :
    ∃ n, p.sub? a = some n ∧ n.operator = o :=
  Option.map_eq_some_iff.mp ho

theorem hasPattern_iff (hn : p.sub? a = some n) : p.HasPattern a r ↔ n.pattern? = some r := by
  rw [HasPattern, operator?_of_sub? hn]
  cases n <;> simp [operator, pattern?, scan?]

theorem HasPattern.exists_sub? (hr : p.HasPattern a r) :
    ∃ n, p.sub? a = some n ∧ n.pattern? = some r := by
  obtain ⟨n, hn, -⟩ := exists_sub?_of_operator? hr.choose_spec.1
  exact ⟨n, hn, (hasPattern_iff hn).mp hr⟩

theorem HasPattern.unique {r' : Pattern} (hr : p.HasPattern a r) (hr' : p.HasPattern a r') :
    r = r' := by
  obtain ⟨n, hn, hnr⟩ := hr.exists_sub?
  exact Option.some.inj (hnr.symm.trans ((hasPattern_iff hn).mp hr'))

theorem patternSound_iff : n.PatternSound ↔ ∀ r, n.pattern? = some r → ∃ f, r.Sound f := by
  cases n <;> simp [PatternSound, scan?, pattern?]

theorem ownCodes_eq_nil (hn : n.pattern? = none) : n.ownCodes = [] := by
  cases n with
  | scan s d =>
    have hs : s.pattern = none := hn
    rw [ownCodes, Scan.nodes, hs]
    rfl
  | unary op input d => rfl
  | binary op left right d => rfl

/-- Without a pattern there is one variable at most, the result of an aggregation. -/
theorem nodup_ownVars (hn : n.pattern? = none) : n.ownVars.Nodup := by
  cases n with
  | scan s d =>
    have hs : s.pattern = none := hn
    rw [ownVars, Scan.nodes, hs]
    exact List.nodup_nil
  | unary op input d => cases op <;> simp [ownVars]
  | binary op left right d => exact List.nodup_nil

/-- A sound pattern brings along the codes and the variables of its tree. -/
theorem own_eq_of_sound (hn : n.pattern? = some r) (hr : r.Sound f) :
    n.ownCodes = (r.nodesOn f).map (·.code) ∧
      n.ownVars = (r.nodesOn f).flatMap fun m => m.vars.map (·.id) := by
  cases n with
  | scan s d =>
    have hs : s.pattern = some r := hn
    have hnodes : s.nodes = r.nodesOn f := by
      rw [Scan.nodes, hs, Option.bind_some, hr.nodesInOrder_eq, Option.getD_some]
    exact ⟨congrArg (List.map _) hnodes, congrArg (List.flatMap _) hnodes⟩
  | unary op input d => cases hn
  | binary op left right d => cases hn

theorem locates_scans (p : Plan) : p.Locates ownScans id p.ScansAt where
  inside := by
    rintro a i ⟨s, ha, -⟩
    obtain ⟨n, hn, -⟩ := exists_sub?_of_operator? ha
    exact ⟨n, hn⟩
  mem_iff a n x hn := by
    cases n <;> simp [ownScans, ScansAt, operator?_of_sub? hn, operator, eq_comm]
  nodup_iff a n hn := by
    refine iff_of_true ?_ fun b b' x hb hb' _ _ => hb.trans hb'.symm
    cases n with
    | scan s d => exact List.nodup_singleton _
    | unary op input d => exact List.nodup_nil
    | binary op left right d => exact List.nodup_nil

/-- The codes of an operator are those of the nodes that its pattern reaches. -/
theorem locates_codes (hsound : ∀ n ∈ p.postorder, n.PatternSound) :
    p.Locates ownCodes Prod.fst fun x code => ∃ n, p.NodeAt x.1 x.2 n ∧ n.code = code where
  inside := by
    rintro ⟨a, h⟩ code ⟨n, ⟨r, hr, -⟩, -⟩
    obtain ⟨m, hm, -⟩ := hr.exists_sub?
    exact ⟨m, hm⟩
  mem_iff a n code hn := by
    cases hr : n.pattern? with
    | none =>
      rw [ownCodes_eq_nil hr]
      refine iff_of_false List.not_mem_nil ?_
      rintro ⟨⟨b, h⟩, rfl, m, ⟨r, hpattern, -⟩, -⟩
      cases hr.symm.trans ((hasPattern_iff hn).mp hpattern)
    | some r =>
      obtain ⟨f, hf⟩ := patternSound_iff.mp (hsound n (mem_postorder_iff.mpr ⟨a, hn⟩)) r hr
      rw [(own_eq_of_sound hr hf).1, hf.mem_codes_iff]
      -- both say that a node reached in the pattern of this operator has the code
      constructor
      · rintro ⟨h, m, hh, hm, hcode⟩
        exact ⟨(a, h), rfl, m, ⟨r, (hasPattern_iff hn).mpr hr, hh, hm⟩, hcode⟩
      · rintro ⟨⟨b, h⟩, rfl, m, ⟨r', hpattern, hh, hm⟩, hcode⟩
        cases hr.symm.trans ((hasPattern_iff hn).mp hpattern)
        exact ⟨h, m, hh, hm, hcode⟩
  nodup_iff a n hn := by
    have hpattern := patternSound_iff.mp (hsound n (mem_postorder_iff.mpr ⟨a, hn⟩))
    refine iff_of_true ?_ ?_
    · cases hr : n.pattern? with
      | none =>
        rw [ownCodes_eq_nil hr]
        exact List.nodup_nil
      | some r =>
        obtain ⟨f, hf⟩ := hpattern r hr
        rw [(own_eq_of_sound hr hf).1]
        exact hf.codes
    · rintro ⟨b, h⟩ ⟨b', i⟩ code rfl rfl ⟨m, ⟨r, hr, hh, hm⟩, hcode⟩ ⟨m', ⟨r', hr', hi, hm'⟩, hcode'⟩
      obtain rfl := hr.unique hr'
      obtain ⟨f, hf⟩ := hpattern r ((hasPattern_iff hn).mp hr)
      rw [hf.isTree.distinct h i m m' hh hi hm hm' (hcode.trans hcode'.symm)]

theorem bindsAt_node_iff (hr : p.HasPattern a r) {h : Handle} {k : Nat} {v : Var} :
    p.BindsAt (.node a h k) v ↔ r.BindsAt h k v := by
  constructor
  · rintro ⟨n, w, ⟨r', hr', hh, hn⟩, hk, hv⟩
    obtain rfl := hr.unique hr'
    exact ⟨n, w, hh, hn, hk, hv⟩
  · rintro ⟨n, w, hh, hn, hk, hv⟩
    exact ⟨n, w, ⟨r, hr, hh, hn⟩, hk, hv⟩

/-- Where there is no pattern, only a result is bound. -/
theorem bindsAt_iff_of_pattern?_eq_none (hn : p.sub? a = some n) (hr : n.pattern? = none)
    {x : Site} {v : Var} : x.address = a ∧ p.BindsAt x v ↔ x = .result a ∧ v ∈ n.ownVars := by
  constructor
  · -- a bound variable is the result of an aggregation, as there is no node to bind it
    rintro ⟨rfl, hbinds⟩
    cases x with
    | node a h k =>
      obtain ⟨m, w, ⟨r, hpattern, -⟩, -⟩ := hbinds
      cases hr.symm.trans ((hasPattern_iff hn).mp hpattern)
    | result a =>
      obtain ⟨g, ha, rfl⟩ := hbinds
      have htop : n.operator = .unary (.aggregate g) :=
        Option.some.inj ((operator?_of_sub? hn).symm.trans ha)
      cases n <;> cases htop
      exact ⟨rfl, List.mem_singleton_self _⟩
  · rintro ⟨rfl, hv⟩
    refine ⟨rfl, ?_⟩
    -- only an aggregation has variables without a pattern
    cases n with
    | scan s d =>
      have hs : s.pattern = none := hr
      rw [ownVars, Scan.nodes, hs] at hv
      cases hv
    | binary op left right d => cases hv
    | unary op input d =>
      cases op with
      | aggregate g => exact ⟨g, operator?_of_sub? hn, (List.mem_singleton.mp hv).symm⟩
      | _ => cases hv

/-- Where there is a pattern, no result is bound. -/
theorem bindsAt_iff_of_hasPattern (hr : p.HasPattern a r) {x : Site} {v : Var} :
    x.address = a ∧ p.BindsAt x v ↔ ∃ h k, x = .node a h k ∧ r.BindsAt h k v := by
  constructor
  · rintro ⟨rfl, hbinds⟩
    cases x with
    | node a h k => exact ⟨h, k, rfl, (bindsAt_node_iff hr).mp hbinds⟩
    | result a =>
      obtain ⟨g, ha, -⟩ := hbinds
      obtain ⟨s, ha', -⟩ := hr
      cases ha.symm.trans ha'
  · rintro ⟨h, k, rfl, hbinds⟩
    exact ⟨rfl, (bindsAt_node_iff hr).mpr hbinds⟩

/-- The variables of an operator are those bound at the positions of the nodes that its pattern
reaches, or as its result. -/
theorem locates_vars (hsound : ∀ n ∈ p.postorder, n.PatternSound) :
    p.Locates ownVars Site.address p.BindsAt where
  inside x v hv := by
    cases x with
    | node a h k =>
      obtain ⟨m, w, ⟨r, hr, -⟩, -⟩ := hv
      obtain ⟨n, hn, -⟩ := hr.exists_sub?
      exact ⟨n, hn⟩
    | result a =>
      obtain ⟨g, ha, -⟩ := hv
      obtain ⟨n, hn, -⟩ := exists_sub?_of_operator? ha
      exact ⟨n, hn⟩
  mem_iff a n v hn := by
    cases hr : n.pattern? with
    | none => simp [bindsAt_iff_of_pattern?_eq_none hn hr]
    | some r =>
      obtain ⟨f, hf⟩ := patternSound_iff.mp (hsound n (mem_postorder_iff.mpr ⟨a, hn⟩)) r hr
      rw [(own_eq_of_sound hr hf).2, hf.mem_vars_iff]
      simp only [bindsAt_iff_of_hasPattern ((hasPattern_iff hn).mpr hr)]
      constructor
      · rintro ⟨h, k, hbinds⟩
        exact ⟨.node a h k, h, k, rfl, hbinds⟩
      · rintro ⟨x, h, k, -, hbinds⟩
        exact ⟨h, k, hbinds⟩
  nodup_iff a n hn := by
    cases hr : n.pattern? with
    | none =>
      -- without a pattern there is one site at this address, the result
      refine iff_of_true (nodup_ownVars hr) fun x y v hx hy hxv hyv => ?_
      obtain ⟨rfl, -⟩ := (bindsAt_iff_of_pattern?_eq_none hn hr).mp ⟨hx, hxv⟩
      obtain ⟨rfl, -⟩ := (bindsAt_iff_of_pattern?_eq_none hn hr).mp ⟨hy, hyv⟩
      rfl
    | some r =>
      obtain ⟨f, hf⟩ := patternSound_iff.mp (hsound n (mem_postorder_iff.mpr ⟨a, hn⟩)) r hr
      have hpattern := (hasPattern_iff hn).mpr hr
      rw [(own_eq_of_sound hr hf).2, hf.nodup_vars_iff]
      constructor
      · intro hpositions x y v hx hy hxv hyv
        obtain ⟨h, k, rfl, hbinds⟩ := (bindsAt_iff_of_hasPattern hpattern).mp ⟨hx, hxv⟩
        obtain ⟨i, l, rfl, hbinds'⟩ := (bindsAt_iff_of_hasPattern hpattern).mp ⟨hy, hyv⟩
        obtain ⟨rfl, rfl⟩ := hpositions h i k l v hbinds hbinds'
        rfl
      · intro hsites h i k l v hbinds hbinds'
        cases hsites (.node a h k) (.node a i l) v rfl rfl ((bindsAt_node_iff hpattern).mpr hbinds)
          ((bindsAt_node_iff hpattern).mpr hbinds')
        exact ⟨rfl, rfl⟩

/-- The patterns of a plan are sound if the check of patterns accepts those of its scans. -/
theorem forall_patternSound_iff :
    (∀ n ∈ p.postorder, n.PatternSound) ↔ ∀ a r, p.HasPattern a r → r.validate = .ok () := by
  simp only [patternSound_iff, Pattern.validate_eq_ok_iff]
  constructor
  · intro hsound a r hr
    obtain ⟨n, hn, hnr⟩ := hr.exists_sub?
    exact hsound n (mem_postorder_iff.mpr ⟨a, hn⟩) r hnr
  · intro hsound n hn r hr
    obtain ⟨a, ha⟩ := mem_postorder_iff.mp hn
    exact hsound a r ((hasPattern_iff ha).mpr hr)

/-- A plan is sound if nothing is found in two places of it. -/
theorem sound_iff_distinct : p.Sound ↔ p.Distinct := by
  constructor
  · rintro ⟨hpatterns, hscans, hcodes, hvars⟩
    -- the lists of a sound plan repeat nothing, so that what is found at two sites is found at one
    refine ⟨forall_patternSound_iff.mp hpatterns, p.locates_scans.nodup_flatMap_iff.mp hscans, ?_,
      (locates_vars hpatterns).nodup_flatMap_iff.mp hvars⟩
    intro a b h i n m hn hm hcode
    have heq := (locates_codes hpatterns).nodup_flatMap_iff.mp hcodes (a, h) (b, i) n.code
      ⟨n, hn, rfl⟩ ⟨m, hm, hcode.symm⟩
    exact Prod.mk.inj heq
  · rintro ⟨hpatterns, hscans, hcodes, hvars⟩
    have hsound := forall_patternSound_iff.mpr hpatterns
    refine ⟨hsound, p.locates_scans.nodup_flatMap_iff.mpr hscans,
      (locates_codes hsound).nodup_flatMap_iff.mpr ?_,
      (locates_vars hsound).nodup_flatMap_iff.mpr hvars⟩
    rintro ⟨a, h⟩ ⟨b, i⟩ code ⟨n, hn, rfl⟩ ⟨m, hm, hcode⟩
    obtain ⟨rfl, rfl⟩ := hcodes a b h i n m hn hm hcode.symm
    rfl

/-! ### Arrangement -/

/-- The operators of a plan. -/
def operators (p : Plan) : List Operator := p.postorder.map operator

/-- What the operators bring along by themselves is, in some order, the same for every plan of these
operators. -/
theorem perm_flatMap_of_operators {β : Type} {g : Plan → List β}
    (hg : g.FactorsThrough operator) (hpq : p.operators.Perm q.operators) :
    (p.postorder.flatMap g).Perm (q.postorder.flatMap g) := by
  obtain ⟨g', rfl⟩ := (Function.factorsThrough_iff g).mp hg
  have hflat := hpq.flatMap_right g'
  rwa [operators, operators, List.flatMap_map, List.flatMap_map] at hflat

theorem factorsThrough_scan? : scan?.FactorsThrough operator := by
  intro n m hnm
  cases n <;> cases m <;> cases hnm <;> rfl

theorem factorsThrough_ownScans : ownScans.FactorsThrough operator := by
  intro n m hnm
  cases n <;> cases m <;> cases hnm <;> rfl

theorem factorsThrough_ownCodes : ownCodes.FactorsThrough operator := by
  intro n m hnm
  cases n <;> cases m <;> cases hnm <;> rfl

theorem factorsThrough_ownVars : ownVars.FactorsThrough operator := by
  intro n m hnm
  cases n with
  | scan s d => cases m <;> cases hnm; rfl
  | unary op input d => cases m <;> cases hnm; cases op <;> rfl
  | binary op left right d => cases m <;> cases hnm; rfl

/-- Another arrangement of the operators of a sound plan is sound. -/
theorem Sound.of_operators (hp : p.Sound) (hpq : p.operators.Perm q.operators) : q.Sound where
  patterns n hn := by
    obtain ⟨m, hm, hmn⟩ := List.mem_map.mp (hpq.symm.subset (List.mem_map_of_mem hn))
    rw [PatternSound, ← factorsThrough_scan? hmn]
    exact hp.patterns m hm
  scans := (perm_flatMap_of_operators factorsThrough_ownScans hpq).nodup hp.scans
  codes := (perm_flatMap_of_operators factorsThrough_ownCodes hpq).nodup hp.codes
  vars := (perm_flatMap_of_operators factorsThrough_ownVars hpq).nodup hp.vars

/-- The check of a plan comes to a verdict.  It accepts exactly the plans whose patterns it accepts
and in which no scan number, no code of a reached node and no variable is found in two places; it
accepts every arrangement of the operators or none. -/
theorem validate_decides_distinct (p : Plan) :
    p.validate ≠ .error .lostHandle ∧ (p.validate = .ok () ↔ p.Distinct) ∧
      ∀ q : Plan, p.operators.Perm q.operators → (q.validate = .ok () ↔ p.validate = .ok ()) := by
  refine ⟨p.validate_ne_lost, validate_eq_ok_iff.trans sound_iff_distinct, fun q hpq => ?_⟩
  rw [validate_eq_ok_iff, validate_eq_ok_iff]
  exact ⟨fun hq => hq.of_operators hpq.symm, fun hp => hp.of_operators hpq⟩

end Plan

end TwigAlgebra
