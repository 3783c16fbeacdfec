import Std.Data.ExtTreeSet
import Mathlib.Data.List.Basic

/-! Lists that are sorted by a key, the order in which entries stand in a list,
and finite sets read as lists. A sorted list is determined by the entries of
each key, so a stable sort is the only sorted arrangement that keeps them in
order. -/
namespace Repack

/-- The last entry of a kind is the one added last, if it is of the kind. -/
theorem find?_reverse_concat {α : Type} (p : α → Bool) (l : List α) (a : α) :
    (l ++ [a]).reverse.find? p = if p a then some a else l.reverse.find? p := by
  rw [List.reverse_append, List.reverse_singleton, List.singleton_append, List.find?_cons]
  cases p a <;> rfl

/-- Leaving a loop at the first failure computes `List.all`. -/
theorem all_eq_loop {α : Type} (l : List α) (p : α → Bool) :
    l.all p = Id.run do
      for a in l do
        if p a = false then return false
      return true := by
  induction l with
  | nil => rfl
  | cons a rest ih =>
    rw [List.all_cons, ih]
    cases h : p a <;> simp [h]

open Std in
theorem all_set_eq {α : Type} {cmp : α → α → Ordering} [TransCmp cmp] (t : ExtTreeSet α cmp)
    (p : α → Bool) : t.all p = t.toList.all p := by
  obtain ⟨⟨⟨inner⟩⟩⟩ := t
  induction inner using Quotient.ind with
  | _ tree =>
    rw [all_eq_loop]
    change tree.inner.all (fun a _ => p a) = _
    unfold DTreeMap.Internal.Impl.all
    simp only [forIn]
    rw [DTreeMap.Internal.Impl.forIn_eq_forIn_keys (m := Id) (f := fun a _ =>
      if p a = false then pure (ForInStep.done (some false, ()))
      else pure (ForInStep.yield (none, ())))]
    rfl

theorem all_set_iff {α : Type} {cmp : α → α → Ordering} [Std.TransCmp cmp] [Std.LawfulEqCmp cmp]
    (t : Std.ExtTreeSet α cmp) (p : α → Bool) : t.all p = true ↔ ∀ x ∈ t, p x = true := by
  simp only [all_set_eq, List.all_eq_true, Std.ExtTreeSet.mem_toList]

/-- Of two keys one is at most the other. -/
theorem isLE_total {β : Type} [Ord β] [Std.OrientedOrd β] (x y : β) :
    ((compare x y).isLE || (compare y x).isLE) = true := by
  rw [← Std.OrientedCmp.isGE_eq_isLE]
  cases compare y x <;> rfl

section Sorted

variable {α β : Type} {R : α → α → Prop} {p q : α → Bool}

/-- A cut of a sorted list loses nothing that is known to stand before it. -/
theorem filter_takeWhile (down : ∀ a b, R a b → q b = true → q a = true) {l : List α}
    (within : ∀ a ∈ l, p a = true → q a = true) (sorted : l.Pairwise R) :
    (l.takeWhile q).filter p = l.filter p := by
  induction l with
  | nil => rfl
  | cons a rest ih =>
    obtain ⟨first, sorted⟩ := List.pairwise_cons.mp sorted
    have ih := ih (fun b member => within b (List.mem_cons_of_mem _ member)) sorted
    rw [List.takeWhile_cons]
    split
    · rw [List.filter_cons, List.filter_cons, ih]
    · next stop =>
      symm
      rw [List.filter_nil, List.filter_eq_nil_iff]
      intro b member held
      apply stop
      rcases List.mem_cons.mp member with rfl | member
      · exact within _ List.mem_cons_self held
      · exact down a b (first b member) (within b (List.mem_cons_of_mem _ member) held)

theorem filter_dropWhile {l : List α} (outside : ∀ a ∈ l, p a = true → q a = false) :
    (l.dropWhile q).filter p = l.filter p := by
  induction l with
  | nil => rfl
  | cons a rest ih =>
    have ih := ih fun b member => outside b (List.mem_cons_of_mem _ member)
    rw [List.dropWhile_cons]
    split
    · next dropped =>
      have : p a = false := by
        cases held : p a with
        | false => rfl
        | true => rw [outside a List.mem_cons_self held] at dropped; cases dropped
      rw [ih, List.filter_cons, this]
      rfl
    · rfl

variable [Ord β] [Std.TransOrd β] [Std.LawfulEqOrd β] [DecidableEq β] {key : α → β}

/-- A list sorted by a key is determined by the entries of each key. -/
theorem eq_of_sorted_of_filter_eq {l m : List α}
    (sorted : l.Pairwise fun a b => (compare (key a) (key b)).isLE = true)
    (sorted' : m.Pairwise fun a b => (compare (key a) (key b)).isLE = true)
    (same : ∀ k, l.filter (fun a => key a = k) = m.filter (fun a => key a = k)) : l = m := by
  induction l generalizing m with
  | nil =>
    cases m with
    | nil => rfl
    | cons b m =>
      have := same (key b)
      simp at this
  | cons a l ih =>
    cases m with
    | nil =>
      have := same (key a)
      simp at this
    | cons b m =>
      obtain ⟨first, rest⟩ := List.pairwise_cons.mp sorted
      obtain ⟨first', rest'⟩ := List.pairwise_cons.mp sorted'
      have reach : ∀ x, x ∈ a :: l ↔ x ∈ b :: m := by
        intro x
        have := congrArg (x ∈ ·) (same (key x))
        simpa only [List.mem_filter, decide_true, and_true, eq_iff_iff] using this
      -- Each head stands before all of the other list, so the two have one key.
      have keys : key a = key b := by
        have ab : (compare (key a) (key b)).isLE = true := by
          rcases List.mem_cons.mp ((reach b).mpr List.mem_cons_self) with rfl | member
          · simp
          · exact first b member
        have ba : (compare (key b) (key a)).isLE = true := by
          rcases List.mem_cons.mp ((reach a).mp List.mem_cons_self) with rfl | member
          · simp
          · exact first' a member
        exact Std.LawfulEqCmp.eq_of_compare (Std.OrientedCmp.isLE_antisymm ab ba)
      have heads := same (key a)
      rw [List.filter_cons, List.filter_cons, keys] at heads
      simp only [decide_true, if_true, List.cons.injEq] at heads
      obtain ⟨rfl, _⟩ := heads
      congr 1
      apply ih rest rest'
      intro k
      have := same k
      rw [List.filter_cons, List.filter_cons] at this
      split at this
      · exact (List.cons.inj this).2
      · exact this

omit [DecidableEq β] in
/-- However a sorted list is arranged, its keys are the same. -/
theorem map_eq_of_sorted_of_perm {l m : List α}
    (sorted : l.Pairwise fun a b => (compare (key a) (key b)).isLE = true)
    (sorted' : m.Pairwise fun a b => (compare (key a) (key b)).isLE = true)
    (perm : l.Perm m) : l.map key = m.map key := by
  have antisymm (x y : β) (below : (compare x y).isLE = true) (above : (compare y x).isLE = true) :
      x = y := Std.LawfulEqCmp.eq_of_compare (Std.OrientedCmp.isLE_antisymm below above)
  exact List.Perm.eq_of_pairwise (fun x y _ _ => antisymm x y) (List.pairwise_map.mpr sorted)
    (List.pairwise_map.mpr sorted') (perm.map key)

omit [Ord β] [Std.TransOrd β] [Std.LawfulEqOrd β] [DecidableEq β] in
/-- A stable sort keeps entries as they stand that are in order already. -/
theorem filter_mergeSort_of_pairwise {le : α → α → Bool}
    (trans : ∀ a b c, le a b = true → le b c = true → le a c = true)
    (total : ∀ a b, (le a b || le b a) = true) {l : List α}
    (chain : (l.filter p).Pairwise fun a b => le a b = true) :
    (l.mergeSort le).filter p = l.filter p := by
  have kept := (List.sublist_mergeSort trans total chain List.filter_sublist).filter p
  rw [List.filter_filter] at kept
  simp only [Bool.and_self] at kept
  symm
  apply kept.eq_of_length
  exact ((List.mergeSort_perm l _).filter _).length_eq.symm

/-- A stable sort keeps the entries of each key as they stand. -/
theorem filter_mergeSort (l : List α) (k : β) :
    (l.mergeSort fun a b => (compare (key a) (key b)).isLE).filter (fun a => key a = k) =
      l.filter fun a => key a = k := by
  have chain : (l.filter fun a => key a = k).Pairwise
      fun a b => (compare (key a) (key b)).isLE = true := by
    apply List.pairwise_of_forall_mem_list
    intro a inA b inB
    have keyA : key a = k := by simpa using (List.mem_filter.mp inA).2
    have keyB : key b = k := by simpa using (List.mem_filter.mp inB).2
    simp [keyA, keyB]
  have le_trans (a b c : α) : (compare (key a) (key b)).isLE = true →
      (compare (key b) (key c)).isLE = true → (compare (key a) (key c)).isLE = true :=
    Std.TransOrd.isLE_trans
  exact filter_mergeSort_of_pairwise le_trans (fun a b => isLE_total (key a) (key b)) chain

end Sorted

section Part

variable {α : Type} [BEq α] {l : List α} {q : α → Bool} {e : α}

/-- An entry is sought among those with a property that its equals have. -/
theorem contains_filter_eq (alike : ∀ a ∈ l, (e == a) = true → q a = true) :
    (l.filter q).contains e = l.contains e := by
  rw [Bool.eq_iff_iff, List.contains_iff_exists_mem_beq, List.contains_iff_exists_mem_beq]
  constructor
  · rintro ⟨a, member, same⟩
    exact ⟨a, List.mem_of_mem_filter member, same⟩
  · rintro ⟨a, member, same⟩
    exact ⟨a, List.mem_filter.mpr ⟨member, alike a member same⟩, same⟩

omit [BEq α] in
/-- What is erased has not the property that is filtered by. -/
theorem filter_eraseP_of_disjoint {f : α → Bool} (apart : ∀ a, f a = true → q a = false) :
    (l.eraseP f).filter q = l.filter q := by
  induction l with
  | nil => rfl
  | cons a rest ih =>
    rw [List.eraseP_cons]
    cases found : f a with
    | true => simp [apart a found]
    | false => rw [cond_false, List.filter_cons, List.filter_cons, ih]

/-- An entry is erased among those with a property that its equals have, or else not among them. -/
theorem filter_erase (alike : ∀ a ∈ l, (a == e) = true → q a = q e) :
    (l.erase e).filter q = if q e = true then (l.filter q).erase e else l.filter q := by
  induction l with
  | nil => simp
  | cons a rest ih =>
    have ih := ih fun b member => alike b (List.mem_cons_of_mem _ member)
    rw [List.erase_cons]
    cases same : a == e with
    | true =>
      have both := alike a List.mem_cons_self same
      cases held : q e with
      | true => simp [both, held, List.erase_cons, same]
      | false => simp [both, held]
    | false =>
      cases held : q a <;> cases held' : q e <;> simp [held, held', same, ih]

end Part

/-- Lists with the same entries of each of some kinds, which together are all kinds, are
permutations of each other. -/
theorem perm_of_filter_eq {α κ : Type} {kind : κ → α → Bool} (all : ∀ a, ∃ k, kind k a = true)
    {l m : List α} (same : ∀ k, l.filter (kind k) = m.filter (kind k)) : l.Perm m := by
  classical
  rw [List.perm_iff_count]
  intro a
  obtain ⟨k, held⟩ := all a
  rw [← List.count_filter held, same k, List.count_filter held]

section Standing

variable {α : Type} {l : List α} {a b : α}

/-- Whether one entry stands before another in a list. -/
def Precedes (l : List α) (a b : α) : Prop := [a, b].Sublist l

theorem pairwise_iff_precedes {R : α → α → Prop} :
    l.Pairwise R ↔ ∀ a b, Precedes l a b → R a b :=
  List.pairwise_iff_forall_sublist.trans ⟨fun h _ _ => h, fun h {a b} => h a b⟩

theorem Precedes.of_sublist {m : List α} (h : Precedes l a b) (within : l.Sublist m) :
    Precedes m a b := h.trans within

theorem Precedes.filter (h : Precedes l a b) {p : α → Bool} (ha : p a = true) (hb : p b = true) :
    Precedes (l.filter p) a b := by
  have kept := List.Sublist.filter p h
  rwa [List.filter_cons_of_pos ha, List.filter_cons_of_pos hb] at kept

/-- In a list without repeats, what stands before an entry is the part that ends with it. -/
theorem precedes_iff_mem_before {before after : List α} (nodup : (before ++ b :: after).Nodup) :
    Precedes (before ++ b :: after) a b ↔ a ∈ before := by
  obtain ⟨_, tail, apart⟩ := List.nodup_append.mp nodup
  constructor
  · intro h
    obtain ⟨first, second, split, inBefore, inAfter⟩ := List.sublist_append_iff.mp h
    cases first with
    | nil =>
      obtain rfl : [a, b] = second := split
      have later : b ∈ after := by
        cases inAfter with
        | cons _ rest => exact rest.subset (by simp)
        | cons_cons _ rest => exact rest.subset (by simp)
      exact absurd later (List.nodup_cons.mp tail).1
    | cons x xs =>
      obtain ⟨rfl, _⟩ := List.cons.inj split
      exact inBefore.subset List.mem_cons_self
  · intro member
    have last : [b].Sublist (b :: after) := List.singleton_sublist.mpr List.mem_cons_self
    exact (List.singleton_sublist.mpr member).append last

theorem Precedes.asymm (nodup : l.Nodup) (h : Precedes l a b) : ¬ Precedes l b a := by
  obtain ⟨before, after, rfl⟩ := List.append_of_mem (h.subset (by simp : b ∈ [a, b]))
  obtain ⟨x, y, rfl⟩ := List.append_of_mem ((precedes_iff_mem_before nodup).mp h)
  have regrouped : x ++ a :: y ++ b :: after = x ++ a :: (y ++ b :: after) := by simp
  intro back
  rw [regrouped] at back nodup
  have earlier := (precedes_iff_mem_before nodup).mp back
  exact (List.nodup_append.mp nodup).2.2 b earlier b (by simp) rfl

/-- The last entry of a list without repeats stands before no other. -/
theorem getLast?_eq_some_iff_precedes (nodup : l.Nodup) :
    l.getLast? = some a ↔ a ∈ l ∧ ∀ b ∈ l, ¬ Precedes l a b := by
  rw [List.getLast?_eq_some_iff]
  constructor
  · rintro ⟨init, rfl⟩
    refine ⟨by simp, ?_⟩
    intro b member h
    rcases List.mem_append.mp member with earlier | last
    · exact h.asymm nodup ((precedes_iff_mem_before nodup).mpr earlier)
    · obtain rfl := List.mem_singleton.mp last
      exact h.asymm nodup h
  · rintro ⟨member, last⟩
    obtain ⟨init, rest, rfl⟩ := List.append_of_mem member
    cases rest with
    | nil => exact ⟨init, rfl⟩
    | cons b rest =>
      have h : Precedes (init ++ a :: b :: rest) a b :=
        (((List.nil_sublist rest).cons_cons b).cons_cons a).trans (List.sublist_append_right ..)
      exact absurd h (last b (by simp))

/-- Of two different entries of a list one stands before the other. -/
theorem precedes_or_precedes (inA : a ∈ l) (inB : b ∈ l) (differ : a ≠ b) :
    Precedes l a b ∨ Precedes l b a := by
  obtain ⟨before, after, rfl⟩ := List.append_of_mem inA
  rcases List.mem_append.mp inB with earlier | later
  · right
    exact (List.singleton_sublist.mpr earlier).append (List.singleton_sublist.mpr List.mem_cons_self)
  · left
    have later : b ∈ after := (List.mem_cons.mp later).resolve_left (Ne.symm differ)
    exact ((List.singleton_sublist.mpr later).cons_cons a).trans (List.sublist_append_right ..)

/-- In a list sorted by a key, entries of different keys stand in the order of their keys. -/
theorem precedes_iff_of_sorted {β : Type} [Ord β] [Std.TransOrd β] [Std.LawfulEqOrd β] {key : α → β}
    (sorted : l.Pairwise fun a b => (compare (key a) (key b)).isLE = true) (inA : a ∈ l) (inB : b ∈ l)
    (differ : key a ≠ key b) : Precedes l a b ↔ compare (key a) (key b) = .lt := by
  have ordered {x y : α} (h : Precedes l x y) : (compare (key x) (key y)).isLE = true :=
    pairwise_iff_precedes.mp sorted x y h
  constructor
  · intro h
    cases order : compare (key a) (key b) with
    | lt => rfl
    | eq => exact absurd (Std.LawfulEqCmp.eq_of_compare order) differ
    | gt =>
      have below := ordered h
      rw [order] at below
      cases below
  · intro less
    refine (precedes_or_precedes inA inB fun same => differ (congrArg key same)).resolve_right ?_
    intro h
    have below := ordered h
    rw [Std.OrientedCmp.gt_of_lt less] at below
    cases below

end Standing

end Repack
