import Mathlib.Data.Finset.Card
import Mathlib.Data.Finset.Dedup
import Repack.Index.Query
import Repack.Proofs.Index.Filing

/-! What an index answers, in terms of the list it holds. All entries come sorted
by their bit sets, and a query is a filter of them: the side of the order that is
left out holds no answer. -/
namespace Repack

/-- Whether the set of a candidate lies within the set of a query, or around it. -/
def Containment.Relates {E : Type} : Containment → List E → List E → Prop
  | subsets, query, candidate => ∀ x ∈ candidate, x ∈ query
  | supersets, query, candidate => ∀ x ∈ query, x ∈ candidate

instance {E : Type} [DecidableEq E] (d : Containment) (query candidate : List E) :
    Decidable (d.Relates query candidate) := by
  cases d <;> unfold Containment.Relates <;> infer_instance

theorem Permutation.answers_bits {E : Type} [DecidableEq E] (p : Permutation E) (d : Containment)
    {query candidate : List E} (inside : p.Spans query) (within : p.Spans candidate) :
    d.answers (p.bits query) (p.bits candidate) = decide (d.Relates query candidate) := by
  rw [Bool.eq_iff_iff, decide_eq_true_iff]
  cases d with
  | subsets => exact p.subset_bits_iff within inside
  | supersets => exact p.subset_bits_iff inside within

namespace Index

variable {E C : Type} [DecidableEq E] [HasElements C E]
variable {p : Permutation E} {ix : Index E C} {l : List C}

theorem Holds.getD_bucket (h : Holds p ix l) (b : BitSet) :
    ix.buckets[b]?.getD [] = bucketOf p l b := by
  rw [h.buckets]
  split
  · next empty => rw [empty]; rfl
  · rfl

/-- The ordered sets are determined by the entries, in whatever order. -/
theorem Holds.sets_of_perm (h : Holds p ix l) {ix' : Index E C} {m : List C} (h' : Holds p ix' m)
    (perm : l.Perm m) : ix.sets = ix'.sets := by
  apply Std.ExtTreeSet.ext_mem
  intro b
  rw [h.sets, h'.sets, ne_eq, ne_eq, ← List.length_eq_zero_iff, ← List.length_eq_zero_iff,
    bucketOf, bucketOf, (perm.filter _).length_eq]

theorem Holds.entries_eq_flatMap (h : Holds p ix l) :
    ix.entries = ix.sets.toList.flatMap (bucketOf p l) :=
  congrArg (ix.sets.toList.flatMap ·) (funext h.getD_bucket)

theorem Holds.width_of_mem (h : Holds p ix l) {b : BitSet} (member : b ∈ ix.sets.toList) :
    b.width = p.size := by
  rw [Std.ExtTreeSet.mem_toList, h.sets] at member
  obtain ⟨e, stored⟩ := List.exists_mem_of_ne_nil _ member
  obtain ⟨_, rfl⟩ := mem_bucketOf.mp stored
  exact p.width_bits

/-- Entries of one set stand as in the list. -/
theorem Holds.filter_entries (h : Holds p ix l) (b : BitSet) :
    ix.entries.filter (fun e => p.key e = b) = bucketOf p l b := by
  have distinct : ix.sets.toList.Nodup := Permutation.nodup_toList _
  have present : b ∉ ix.sets.toList → bucketOf p l b = [] := by
    intro absent
    rw [Std.ExtTreeSet.mem_toList, h.sets] at absent
    exact not_not.mp absent
  rw [h.entries_eq_flatMap]
  -- Of the buckets in turn only the one of `b` passes, and it passes whole.
  revert distinct present
  generalize ix.sets.toList = sets
  induction sets with
  | nil => intro _ present; exact (present List.not_mem_nil).symm
  | cons c rest ih =>
    intro distinct present
    obtain ⟨fresh, distinct⟩ := List.nodup_cons.mp distinct
    rw [List.flatMap_cons, List.filter_append]
    by_cases same : c = b
    · subst same
      have whole : (bucketOf p l c).filter (fun e => p.key e = c) = bucketOf p l c := by
        rw [bucketOf, List.filter_filter]
        simp
      have none : (rest.flatMap (bucketOf p l)).filter (fun e => p.key e = c) = [] := by
        rw [List.filter_eq_nil_iff]
        intro e member found
        obtain ⟨d, later, stored⟩ := List.mem_flatMap.mp member
        have : d = c := (mem_bucketOf.mp stored).2.symm.trans (by simpa using found)
        exact fresh (this ▸ later)
      rw [whole, none, List.append_nil]
    · have none : (bucketOf p l c).filter (fun e => p.key e = b) = [] := by
        rw [List.filter_eq_nil_iff]
        intro e member found
        exact same ((mem_bucketOf.mp member).2.symm.trans (by simpa using found))
      rw [none, List.nil_append]
      apply ih distinct
      intro absent
      apply present
      intro member
      rcases List.mem_cons.mp member with here | later
      · exact same here.symm
      · exact absent later

theorem Holds.pairwise_entries (h : Holds p ix l) :
    ix.entries.Pairwise fun a b => (compare (p.key a) (p.key b)).isLE = true := by
  rw [h.entries_eq_flatMap, List.pairwise_flatMap]
  constructor
  · intro c _
    apply List.pairwise_of_forall_mem_list
    intro a inA b inB
    rw [(mem_bucketOf.mp inA).2, (mem_bucketOf.mp inB).2]
    simp
  · apply ix.sets.ordered_toList.imp
    intro c d lt a inA b inB
    rw [(mem_bucketOf.mp inA).2, (mem_bucketOf.mp inB).2, lt]
    rfl

/-- All entries are the list, stably sorted by bit sets. -/
theorem Holds.entries_eq (h : Holds p ix l) :
    ix.entries = l.mergeSort fun a b => (compare (p.key a) (p.key b)).isLE := by
  apply eq_of_sorted_of_filter_eq h.pairwise_entries
  · apply List.pairwise_mergeSort
    · intro a b c
      exact Std.TransCmp.isLE_trans
    · intro a b
      exact isLE_total (p.key a) (p.key b)
  · intro b
    rw [h.filter_entries, filter_mergeSort]
    rfl

theorem Holds.perm_entries (h : Holds p ix l) : ix.entries.Perm l :=
  h.entries_eq ▸ List.mergeSort_perm _ _

theorem Holds.mem_entries (h : Holds p ix l) {e : C} : e ∈ ix.entries ↔ e ∈ l :=
  h.perm_entries.mem_iff

/-- The side of the order that a query leaves out holds no answer. -/
theorem Holds.answers_eq (h : Holds p ix l) (d : Containment) {b : BitSet}
    (width : b.width = p.size) : ix.answers d b = ix.sets.toList.filter (d.answers b) := by
  cases d with
  | subsets =>
    refine filter_takeWhile ?_ ?_ ix.sets.ordered_toList
    · intro c d lt le
      exact Std.TransCmp.isLE_trans (by rw [lt]; rfl) le
    · intro c member within
      exact BitSet.isLE_of_subset ((h.width_of_mem member).trans width.symm) within
  | supersets =>
    apply filter_dropWhile
    intro c member within
    have le := BitSet.isLE_of_subset (width.trans (h.width_of_mem member).symm) within
    rw [← Std.OrientedCmp.isGE_eq_isLE] at le
    cases order : compare c b with
    | lt => rw [order] at le; cases le
    | eq => rfl
    | gt => rfl

section Query

variable {Q : Type} [HasElements Q E] {query : Q}

theorem Holds.result_answering (h : Holds p ix l) (d : Containment)
    (inside : p.Spans (elements query)) : (ix.answering d query).result =
      .ok ((ix.answers d (p.bits (elements query))).map (bucketOf p l)) := by
  rw [answering, Attempt.result_bind, h.result_bitSet inside]
  simp only [Except.bind, Attempt.result_bind, Attempt.result_log]
  apply Attempt.result_mapM_ok
  intro b member
  rw [h.answers_eq d p.width_bits] at member
  have stored := (h.sets b).mp (Std.ExtTreeSet.mem_toList.mp (List.mem_filter.mp member).1)
  rw [bucket, h.buckets, if_neg stored]
  rfl

/-- The buckets of the sets that answer are the entries that are related. -/
theorem Holds.flatMap_answers (h : Holds p ix l) (d : Containment)
    (inside : p.Spans (elements query)) :
    (ix.answers d (p.bits (elements query))).flatMap (bucketOf p l) =
      ix.entries.filter fun e => d.Relates (elements query) (elements e) := by
  rw [h.answers_eq d p.width_bits, h.entries_eq_flatMap, List.filter_flatMap]
  induction ix.sets.toList with
  | nil => rfl
  | cons b rest ih =>
    have alike : ∀ e ∈ bucketOf p l b, decide (d.Relates (elements query) (elements e)) =
        d.answers (p.bits (elements query)) b := by
      intro e member
      obtain ⟨stored, rfl⟩ := mem_bucketOf.mp member
      exact (p.answers_bits d inside (h.admits e stored)).symm
    rw [List.flatMap_cons, List.filter_cons, ← ih]
    cases answered : d.answers (p.bits (elements query)) b with
    | true =>
      have whole : (bucketOf p l b).filter (fun e => d.Relates (elements query) (elements e)) =
          bucketOf p l b :=
        List.filter_eq_self.mpr fun e member => (alike e member).trans answered
      rw [if_pos rfl, List.flatMap_cons, whole]
    | false =>
      have none : (bucketOf p l b).filter (fun e => d.Relates (elements query) (elements e)) =
          [] :=
        List.filter_eq_nil_iff.mpr fun e member => by simp [alike e member, answered]
      rw [if_neg (by simp), none, List.nil_append]

/-- A query finds the entries that are related to it, in index order. -/
theorem Holds.result_find (h : Holds p ix l) (d : Containment)
    (inside : p.Spans (elements query)) : (ix.find d query).result =
      .ok (ix.entries.filter fun e => d.Relates (elements query) (elements e)) := by
  rw [find, Attempt.result_bind, h.result_answering d inside]
  simp only [Except.bind, Attempt.result_pure, ← List.flatMap_def, h.flatMap_answers d inside]

theorem Holds.result_count (h : Holds p ix l) (d : Containment)
    (inside : p.Spans (elements query)) : (ix.count d query).result =
      .ok (ix.entries.filter fun e => d.Relates (elements query) (elements e)).length := by
  have summed (buckets : List (List C)) (n : Nat) :
      buckets.foldl (fun n bucket => n + bucket.length) n = n + buckets.flatten.length := by
    induction buckets generalizing n with
    | nil => rfl
    | cons b rest ih =>
      rw [List.foldl_cons, ih, List.flatten_cons, List.length_append, Nat.add_assoc]
  rw [count, Attempt.result_bind, h.result_answering d inside]
  simp only [Except.bind, Attempt.result_pure, summed, Nat.zero_add, ← List.flatMap_def,
    h.flatMap_answers d inside]

theorem Holds.result_answering_error (h : Holds p ix l) (d : Containment)
    (outside : ¬ p.Spans (elements query)) :
    (ix.answering d query).result = .error .unknownElement := by
  rw [answering, Attempt.result_bind, h.result_bitSet_error outside]
  rfl

theorem Holds.result_find_error (h : Holds p ix l) (d : Containment)
    (outside : ¬ p.Spans (elements query)) :
    (ix.find d query).result = .error .unknownElement := by
  rw [find, Attempt.result_bind, h.result_answering_error d outside]
  rfl

theorem Holds.result_count_error (h : Holds p ix l) (d : Containment)
    (outside : ¬ p.Spans (elements query)) :
    (ix.count d query).result = .error .unknownElement := by
  rw [count, Attempt.result_bind, h.result_answering_error d outside]
  rfl

end Query

end Index

end Repack
