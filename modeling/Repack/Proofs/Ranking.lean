import Repack.Proofs.Sequence

/-! Lists by descending measure, and the first so many entries of them. A stable sort leaves the
entries of one measure as they stand, so the entries of the greatest measure come first, in the
order of the list, and a cut leaves out only what comes after all that is kept. -/
namespace Repack

variable {α : Type} {measure : α → Nat} {l : List α} {n : Nat}

/-- The entries of a list, those that measure most first, and equals as they stand. -/
def descending (measure : α → Nat) (l : List α) : List α :=
  l.mergeSort fun a b => measure b ≤ measure a

theorem perm_descending (measure : α → Nat) (l : List α) : (descending measure l).Perm l :=
  List.mergeSort_perm l _

theorem mem_descending {a : α} : a ∈ descending measure l ↔ a ∈ l :=
  (perm_descending measure l).mem_iff

theorem pairwise_descending (measure : α → Nat) (l : List α) :
    (descending measure l).Pairwise fun a b => measure b ≤ measure a := by
  have ordered : (descending measure l).Pairwise fun a b => decide (measure b ≤ measure a) = true :=
    List.pairwise_mergeSort (by simp; omega) (by simp; omega) l
  exact ordered.imp of_decide_eq_true

theorem descending_eq_self (sorted : l.Pairwise fun a b => measure b ≤ measure a) :
    descending measure l = l :=
  List.mergeSort_of_pairwise (sorted.imp decide_eq_true)

theorem filter_descending (measure : α → Nat) (l : List α) (m : Nat) :
    (descending measure l).filter (fun a => measure a = m) = l.filter fun a => measure a = m := by
  apply filter_mergeSort_of_pairwise (by simp; omega) (by simp; omega)
  apply List.pairwise_of_forall_mem_list
  intro a inA b inB
  have measureA : measure a = m := by simpa using (List.mem_filter.mp inA).2
  have measureB : measure b = m := by simpa using (List.mem_filter.mp inB).2
  simp [measureA, measureB]

/-- Of two entries one comes after the other if it measures less, or as much and stands later. -/
theorem pairwise_descending_stable (measure : α → Nat) (l : List α) :
    (descending measure l).Pairwise fun a b =>
      measure b < measure a ∨ measure b = measure a ∧ Precedes l a b := by
  rw [pairwise_iff_precedes]
  intro a b before
  obtain less | same :=
    Nat.lt_or_eq_of_le (pairwise_iff_precedes.mp (pairwise_descending measure l) a b before)
  · exact Or.inl less
  · right
    refine ⟨same, ?_⟩
    have kept : Precedes ((descending measure l).filter fun x => measure x = measure a) a b :=
      before.filter (by simp) (by simp [same])
    rw [filter_descending] at kept
    exact kept.of_sublist List.filter_sublist

/-- What measures as much as anything can comes first, as it stands. -/
theorem descending_eq_append {top : Nat} (bound : ∀ a ∈ l, measure a ≤ top) :
    descending measure l = (l.filter fun a => measure a = top) ++
      (descending measure l).filter fun a => measure a ≠ top := by
  rw [← filter_descending]
  have bound : ∀ a ∈ descending measure l, measure a ≤ top :=
    fun a member => bound a (mem_descending.mp member)
  have ordered := pairwise_descending measure l
  revert bound ordered
  generalize descending measure l = m
  induction m with
  | nil => intros; rfl
  | cons a rest ih =>
    intro bound ordered
    obtain ⟨first, ordered⟩ := List.pairwise_cons.mp ordered
    by_cases most : measure a = top
    · have ih := ih (fun b member => bound b (List.mem_cons_of_mem _ member)) ordered
      simpa [most] using ih
    · have less : measure a < top := Nat.lt_of_le_of_ne (bound a List.mem_cons_self) most
      have none : ∀ b ∈ a :: rest, measure b ≠ top := by
        intro b member
        rcases List.mem_cons.mp member with rfl | member
        · exact most
        · have := first b member
          omega
      rw [List.filter_eq_nil_iff.mpr (by simpa using none),
        List.filter_eq_self.mpr (by simpa using none), List.nil_append]

/-- The measures of the greatest entries do not depend on how the list is arranged. -/
theorem map_take_descending_of_perm (measure : α → Nat) {l m : List α} (perm : l.Perm m) (n : Nat) :
    ((descending measure l).take n).map measure = ((descending measure m).take n).map measure := by
  have sorted (l : List α) : ((descending measure l).map measure).Pairwise fun x y => y ≤ x :=
    List.pairwise_map.mpr (pairwise_descending measure l)
  have arranged : ((descending measure l).map measure).Perm ((descending measure m).map measure) :=
    (((perm_descending measure l).trans perm).trans (perm_descending measure m).symm).map _
  rw [List.map_take, List.map_take]
  congr 1
  exact List.Perm.eq_of_pairwise (fun _ _ _ _ below above => Nat.le_antisymm above below)
    (sorted l) (sorted m) arranged

theorem head?_descending_eq_none_iff : (descending measure l).head? = none ↔ l = [] := by
  rw [List.head?_eq_none_iff, ← List.length_eq_zero_iff, (perm_descending measure l).length_eq,
    List.length_eq_zero_iff]

theorem mem_of_head?_descending {a : α} (first : (descending measure l).head? = some a) : a ∈ l :=
  mem_descending.mp (List.mem_of_mem_head? first)

/-- The first entry measures as much as any. -/
theorem le_of_head?_descending {a : α} (first : (descending measure l).head? = some a) :
    ∀ b ∈ l, measure b ≤ measure a := by
  obtain ⟨rest, split⟩ := List.head?_eq_some_iff.mp first
  have ordered := pairwise_descending measure l
  rw [split] at ordered
  intro b member
  have placed : b ∈ descending measure l := mem_descending.mpr member
  rw [split] at placed
  rcases List.mem_cons.mp placed with rfl | later
  · exact Nat.le_refl _
  · exact (List.pairwise_cons.mp ordered).1 b later

/-- The greatest measure is not lost as long as each entry that goes measures no more than one that
stays. -/
theorem map_head?_descending_of_dominated {before after : List α}
    (within : ∀ a ∈ after, a ∈ before)
    (dominated : ∀ a ∈ before, ∃ b ∈ after, measure a ≤ measure b) :
    (descending measure after).head?.map measure =
      (descending measure before).head?.map measure := by
  cases old : (descending measure before).head? with
  | none =>
    cases new : (descending measure after).head? with
    | none => rfl
    | some c =>
      obtain rfl := head?_descending_eq_none_iff.mp old
      exact absurd (within c (mem_of_head?_descending new)) List.not_mem_nil
  | some a =>
    obtain ⟨b, stays, most⟩ := dominated a (mem_of_head?_descending old)
    cases new : (descending measure after).head? with
    | none =>
      obtain rfl := head?_descending_eq_none_iff.mp new
      exact absurd stays List.not_mem_nil
    | some c =>
      have below : measure c ≤ measure a :=
        le_of_head?_descending old c (within c (mem_of_head?_descending new))
      have above : measure b ≤ measure c := le_of_head?_descending new b stays
      exact congrArg some (by omega)

/-- Some entries of a list that measure most, at most so many: the more one measures the earlier it
comes, equals come as they stand in the list, and what is left out would come after the last. -/
structure Best (measure : α → Nat) (n : Nat) (l best : List α) : Prop where
  length : best.length = min n l.length
  nodup : best.Nodup
  listed : ∀ a ∈ best, a ∈ l
  descending : best.Pairwise fun a b => measure b ≤ measure a
  stable : ∀ a b, Precedes best a b → measure a = measure b → Precedes l a b
  left_out : ∀ a ∈ l, a ∉ best → ∀ b ∈ best.getLast?,
    measure a < measure b ∨ measure a = measure b ∧ Precedes l b a

theorem best_take_descending (nodup : l.Nodup) (n : Nat) :
    Best measure n l ((descending measure l).take n) := by
  have kept : ((descending measure l).take n).Sublist (descending measure l) :=
    List.take_sublist _ _
  have ranked := pairwise_descending_stable measure l
  constructor
  · rw [List.length_take, (perm_descending measure l).length_eq]
  · exact ((perm_descending measure l).nodup_iff.mpr nodup).sublist kept
  · exact fun a member => mem_descending.mp (kept.subset member)
  · exact (pairwise_descending measure l).sublist kept
  · intro a b before same
    obtain less | ⟨_, stands⟩ := pairwise_iff_precedes.mp ranked a b (before.of_sublist kept)
    · omega
    · exact stands
  · intro a member out b last
    have parts := List.take_append_drop n (Repack.descending measure l)
    have placed : a ∈ Repack.descending measure l := mem_descending.mpr member
    rw [← parts] at ranked placed
    have cut := (List.mem_append.mp placed).resolve_left out
    exact (List.pairwise_append.mp ranked).2.2 b (List.mem_of_getLast? last) a cut

end Repack
