import Mathlib.Data.List.Forall2
import Mathlib.Data.Set.Card

/-!
# Lists and work that may fail

Facts about lists in general.  The children of a node and the inputs of an operator are gone through
one by one with work that may fail; what they yield is put one after the other; a plan and what it
is resolved to are related place by place; and labels are read from the left.

## Main results

* `Except.bind_eq_ok_iff`, `List.forM_eq_ok_iff` — when a sequence of checks succeeds.
* `List.exists_of_forM_eq_error` — a sequence of checks fails as one of them does.
* `List.exists_mapM`, `List.exists_filterM` — work on a list comes to an end if it does on each
  element.
* `List.foldlM_invariant` — a loop keeps what each of its steps keeps.
* `List.nodup_flatMap_iff_of_nodup` — when lists put one after the other repeat nothing.
* `List.Forall₂.exists_append`, `List.forall₂_append_iff` — related lists that have two parts.
-/

namespace Except

variable {ε α β : Type} {x : Except ε α} {f : α → Except ε β}

/-- Two steps succeed if the first does and the second does on its result. -/
theorem bind_eq_ok_iff {b : β} : (x >>= f) = .ok b ↔ ∃ a, x = .ok a ∧ f a = .ok b := by
  cases x with
  | error e => exact iff_of_false nofun fun ⟨_, h, _⟩ => by cases h
  | ok a => exact ⟨fun h => ⟨a, rfl, h⟩, fun ⟨_, h, h'⟩ => by cases h; exact h'⟩

/-- Two steps do not fail with an error if neither does. -/
theorem bind_ne_error {e : ε} (hx : x ≠ .error e) (hf : ∀ a, x = .ok a → f a ≠ .error e) :
    (x >>= f) ≠ .error e := by
  cases x with
  | error e' => exact fun h => hx (by cases h; rfl)
  | ok a => exact hf a rfl

end Except

/-- A set that is listed without repetition is counted along the list. -/
theorem Set.ncard_eq_countP {α : Type} {l : List α} (hl : l.Nodup) {s : Set α} {g : α → Bool}
    (hs : ∀ a, a ∈ s ↔ a ∈ l ∧ g a = true) : s.ncard = l.countP g := by
  classical
  have hset : s = ((l.filter g).toFinset : Set α) := by
    ext a
    rw [hs a]
    simp
  rw [hset, Set.ncard_coe_finset, List.toFinset_card_of_nodup (hl.filter g),
    List.countP_eq_length_filter]

namespace List

variable {α β γ ε : Type}

/-! ### Work that may fail -/

/-- A list is accepted if each element is. -/
theorem forM_eq_ok_iff {g : α → Except ε Unit} {l : List α} :
    l.forM g = .ok () ↔ ∀ a ∈ l, g a = .ok () := by
  induction l with
  | nil => exact iff_of_true rfl nofun
  | cons a l ih =>
    show (g a >>= fun _ => l.forM g) = .ok () ↔ _
    rw [Except.bind_eq_ok_iff, forall_mem_cons, ← ih]
    exact ⟨fun ⟨_, ha, hl⟩ => ⟨ha, hl⟩, fun ⟨ha, hl⟩ => ⟨(), ha, hl⟩⟩

/-- A list is refused as one of its elements is. -/
theorem exists_of_forM_eq_error {g : α → Except ε Unit} {l : List α} {e : ε}
    (h : l.forM g = .error e) : ∃ a ∈ l, g a = .error e := by
  induction l with
  | nil => cases h
  | cons a l ih =>
    replace h : (g a >>= fun _ => l.forM g) = .error e := h
    cases ha : g a with
    | error e' =>
      rw [ha] at h
      cases h
      exact ⟨a, mem_cons_self, ha⟩
    | ok _ =>
      rw [ha] at h
      obtain ⟨b, hb, hbad⟩ := ih h
      exact ⟨b, mem_cons_of_mem _ hb, hbad⟩

/-- Working on a list fails only if the work on some element does. -/
theorem exists_mapM {g : α → Option β} {l : List α} (h : ∀ a ∈ l, ∃ b, g a = some b) :
    ∃ bs, l.mapM g = some bs ∧ ∀ b, b ∈ bs ↔ ∃ a ∈ l, g a = some b := by
  induction l with
  | nil => exact ⟨[], rfl, by simp⟩
  | cons a l ih =>
    obtain ⟨b, hb⟩ := h a mem_cons_self
    obtain ⟨bs, hbs, hmem⟩ := ih fun a' ha' => h a' (mem_cons_of_mem _ ha')
    refine ⟨b :: bs, by simp [mapM_cons, hb, hbs], fun b' => ?_⟩
    simp [hmem, hb, eq_comm]

/-- Selecting from a list fails only if the test of some element does. -/
theorem exists_filterM {g : α → Option Bool} {l : List α} (h : ∀ a ∈ l, ∃ b, g a = some b) :
    ∃ kept, l.filterM g = some kept ∧ ∀ a, a ∈ kept ↔ a ∈ l ∧ g a = some true := by
  -- the selection is collected backwards, behind what was selected before
  have haux : ∀ (l acc : List α), (∀ a ∈ l, ∃ b, g a = some b) →
      ∃ kept, filterAuxM g l acc = some kept ∧
        ∀ a, a ∈ kept ↔ a ∈ acc ∨ a ∈ l ∧ g a = some true := by
    intro l
    induction l with
    | nil => exact fun acc _ => ⟨acc, rfl, by simp⟩
    | cons a l ih =>
      intro acc h
      obtain ⟨b, hb⟩ := h a mem_cons_self
      obtain ⟨kept, hkept, hmem⟩ :=
        ih (cond b (a :: acc) acc) fun a' ha' => h a' (mem_cons_of_mem _ ha')
      refine ⟨kept, by simp [filterAuxM, hb, hkept], fun a' => ?_⟩
      rw [hmem, mem_cons]
      cases b with
      | false =>
        refine or_congr_right ⟨fun ⟨hl, htrue⟩ => ⟨Or.inr hl, htrue⟩, ?_⟩
        rintro ⟨rfl | hl, htrue⟩
        · cases hb.symm.trans htrue
        · exact ⟨hl, htrue⟩
      | true =>
        rw [cond_true, mem_cons, or_assoc, or_left_comm]
        refine or_congr_right ⟨?_, ?_⟩
        · rintro (rfl | ⟨hl, htrue⟩)
          · exact ⟨Or.inl rfl, hb⟩
          · exact ⟨Or.inr hl, htrue⟩
        · rintro ⟨rfl | hl, htrue⟩
          · exact Or.inl rfl
          · exact Or.inr ⟨hl, htrue⟩
  obtain ⟨kept, hkept, hmem⟩ := haux l [] h
  exact ⟨kept.reverse, by simp [filterM, hkept], fun a => by simp [hmem]⟩

/-- What was written element by element is read again. -/
theorem mapM_map_of_forall {encode : α → β} {decode : β → Option γ} {g : α → γ} {l : List α}
    (h : ∀ a ∈ l, decode (encode a) = some (g a)) :
    (l.map encode).mapM decode = some (l.map g) := by
  induction l with
  | nil => rfl
  | cons a l ih =>
    obtain ⟨hfirst, hrest⟩ := forall_mem_cons.mp h
    rw [map_cons, mapM_cons, hfirst, ih hrest]
    rfl

/-- A loop keeps what each of its steps keeps. -/
theorem foldlM_invariant {f : β → α → Option β} {I : β → Prop} {l : List α} {b d : β}
    (hstep : ∀ b a d, a ∈ l → f b a = some d → I b → I d) (hd : l.foldlM f b = some d)
    (hb : I b) : I d := by
  induction l generalizing b with
  | nil =>
    cases hd
    exact hb
  | cons a l ih =>
    rw [foldlM_cons] at hd
    obtain ⟨b', hb', hd⟩ := Option.bind_eq_some_iff.mp hd
    exact ih (fun b a d ha => hstep b a d (mem_cons_of_mem _ ha)) hd
      (hstep b a b' mem_cons_self hb' hb)

/-! ### Counting -/

/-- The number of the elements with a property, as a sum. -/
theorem sum_map_toNat (g : α → Bool) (l : List α) :
    (l.map fun a => (g a).toNat).sum = l.countP g := by
  induction l with
  | nil => rfl
  | cons a l ih =>
    rw [map_cons, sum_cons, ih, countP_cons, Nat.add_comm]
    cases g a <;> rfl

/-! ### Lists put one after the other -/

/-- Searching lists one after the other is searching their concatenation. -/
theorem findSome?_flatMap (f : β → Option γ) (g : α → List β) (l : List α) :
    (l.flatMap g).findSome? f = l.findSome? fun a => (g a).findSome? f := by
  induction l with
  | nil => rfl
  | cons a as ih =>
    rw [flatMap_cons, findSome?_append, ih, findSome?_cons]
    cases (g a).findSome? f <;> rfl

/-- Lists put one after the other for different things repeat nothing if none of them does and what
they share they have from one thing. -/
theorem nodup_flatMap_iff_of_nodup {l : List α} (hl : l.Nodup) {f : α → List β} :
    (l.flatMap f).Nodup ↔
      (∀ a ∈ l, (f a).Nodup) ∧ ∀ a ∈ l, ∀ b ∈ l, ∀ x ∈ f a, x ∈ f b → a = b := by
  rw [nodup_flatMap]
  refine and_congr_right fun _ => ⟨fun hpairwise a ha b hb x hxa hxb => ?_, fun hshared => ?_⟩
  · have hsymm : Std.Symm (Function.onFun Disjoint f) := ⟨fun _ _ h => h.symm⟩
    by_contra hne
    exact hpairwise.forall ha hb hne hxa hxb
  · refine hl.pairwise_of_forall_ne fun a ha b hb hne x hxa hxb => ?_
    exact hne (hshared a ha b hb x hxa hxb)

/-! ### Related lists -/

variable {R : α → β → Prop} {as as' : List α} {bs bs' : List β}

/-- In related lists, everything on the right has a partner on the left. -/
theorem Forall₂.exists_of_mem_right (h : Forall₂ R as bs) {b : β} (hb : b ∈ bs) :
    ∃ a ∈ as, R a b := by
  obtain ⟨i, hi, rfl⟩ := getElem_of_mem hb
  exact ⟨_, getElem_mem _, h.get (h.length_eq ▸ hi) hi⟩

/-- A list that is related to one list behind another one is made of two parts. -/
theorem Forall₂.exists_append (h : Forall₂ R (as ++ as') bs) :
    ∃ cs cs', Forall₂ R as cs ∧ Forall₂ R as' cs' ∧ bs = cs ++ cs' :=
  ⟨bs.take as.length, bs.drop as.length, forall₂_take_append bs as as' h.flip |>.flip,
    forall₂_drop_append bs as as' h.flip |>.flip, (take_append_drop _ bs).symm⟩

/-- Lists made of two parts are related if the parts are. -/
theorem forall₂_append_iff (h : as.length = bs.length) :
    Forall₂ R (as ++ as') (bs ++ bs') ↔ Forall₂ R as bs ∧ Forall₂ R as' bs' := by
  constructor
  · intro hboth
    obtain ⟨cs, cs', hfirst, hsecond, heq⟩ := hboth.exists_append
    obtain ⟨rfl, rfl⟩ := append_inj heq (h.symm.trans hfirst.length_eq)
    exact ⟨hfirst, hsecond⟩
  · rintro ⟨hfirst, hsecond⟩
    exact rel_append hfirst hsecond

/-! ### Reading from the left -/

section Reading

variable {x y z w : List α} {c d : α} {j k : Nat}

theorem not_cons_prefix_cons (hd : c ≠ d) : ¬ (c :: x) <+: d :: y :=
  fun h => hd (cons_prefix_cons.mp h).1

theorem not_singleton_prefix_append (hx : c ∉ x) (hd : c ≠ d) : ¬ [c] <+: x ++ d :: y := by
  cases x with
  | nil => exact not_cons_prefix_cons hd
  | cons e x => exact not_cons_prefix_cons fun h => hx (h ▸ mem_cons_self)

/-- A run of one element is read if what follows begins with another. -/
theorem replicate_append_inj (hx : ¬ [c] <+: x) (hy : ¬ [c] <+: y) :
    replicate j c ++ x = replicate k c ++ y ↔ j = k ∧ x = y := by
  induction j generalizing k with
  | zero =>
    cases k with
    | zero => simp
    | succ k =>
      refine iff_of_false (fun h => hx ?_) (by simp)
      rw [replicate_zero, nil_append] at h
      exact ⟨replicate k c ++ y, by rw [h, replicate_succ]; rfl⟩
  | succ j ih =>
    cases k with
    | zero =>
      refine iff_of_false (fun h => hy ?_) (by simp)
      rw [replicate_zero, nil_append] at h
      exact ⟨replicate j c ++ x, by rw [← h, replicate_succ]; rfl⟩
    | succ k =>
      rw [replicate_succ, replicate_succ, cons_append, cons_append, cons.injEq, ih]
      simp

/-- What stands before a delimiter is read if the delimiter does not occur in it. -/
theorem append_delimiter_inj (hx : c ∉ x) (hy : c ∉ y) :
    x ++ c :: z = y ++ c :: w ↔ x = y ∧ z = w := by
  induction x generalizing y with
  | nil =>
    cases y with
    | nil => simp
    | cons d y =>
      refine iff_of_false (fun h => hy ?_) (by simp)
      rw [(cons.inj h).1]
      exact mem_cons_self
  | cons d x ih =>
    cases y with
    | nil =>
      refine iff_of_false (fun h => hx ?_) (by simp)
      rw [(cons.inj h).1]
      exact mem_cons_self
    | cons d' y =>
      rw [cons_append, cons_append, cons.injEq, cons.injEq,
        ih (fun h => hx (mem_cons_of_mem _ h)) (fun h => hy (mem_cons_of_mem _ h)), and_assoc]

end Reading

end List
