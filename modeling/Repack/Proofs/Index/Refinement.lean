import Repack.Proofs.Index.Queries

/-! An index is a list of entries, seen through its interface. After any run of
calls everything that the index answers is read off the list that the same calls
build by appending and erasing. -/
namespace Repack.Index

variable {E C : Type} [DecidableEq E] [HasElements C E]
variable {p : Permutation E} {ix : Index E C} {l : List C}

/-- There are as many ordered sets as distinct sets of elements in the list. -/
theorem Holds.size_eq (h : Holds p ix l) :
    ix.size = (l.map fun e => (elements e).toFinset).toFinset.card := by
  have ordered : ix.size = (l.map p.key).toFinset.card := by
    have distinct : ix.sets.toList.Nodup := Permutation.nodup_toList _
    rw [Index.size, ← Std.ExtTreeSet.length_toList, ← List.toFinset_card_of_nodup distinct]
    congr 1
    ext b
    rw [List.mem_toFinset, List.mem_toFinset, Std.ExtTreeSet.mem_toList, h.sets, List.mem_map]
    constructor
    · intro stored
      obtain ⟨e, member⟩ := List.exists_mem_of_ne_nil _ stored
      exact ⟨e, mem_bucketOf.mp member⟩
    · rintro ⟨e, member⟩
      exact List.ne_nil_of_mem (mem_bucketOf.mpr member)
  -- The bit set of an entry is a function of its elements, one to one on the universe.
  let encode (s : Finset E) : BitSet := p.bits s.toList
  have keys : l.map p.key = (l.map fun e => (elements e).toFinset).map encode := by
    rw [List.map_map]
    apply List.map_congr_left
    intro e member
    have inside : p.Spans (elements e).toFinset.toList := by
      intro x found
      exact h.admits e member x (by simpa using found)
    exact (p.bits_eq_iff (h.admits e member) inside).mpr fun x => by simp
  have injective : Set.InjOn encode (l.map fun e => (elements e).toFinset).toFinset := by
    intro s inS t inT same
    simp only [List.coe_toFinset, Set.mem_ofPred_eq, List.mem_map] at inS inT
    obtain ⟨a, memberA, rfl⟩ := inS
    obtain ⟨b, memberB, rfl⟩ := inT
    have inside (e : C) (member : e ∈ l) : p.Spans (elements e).toFinset.toList := by
      intro x found
      exact h.admits e member x (by simpa using found)
    have alike := (p.bits_eq_iff (inside a memberA) (inside b memberB)).mp same
    ext x
    simpa using alike x
  rw [ordered, keys, ← Finset.card_image_of_injOn injective]
  congr 1
  ext b
  simp

variable [BEq C]

/-- Each observation of an index, stated of a list of entries. -/
structure Refines (p : Permutation E) (ix : Index E C) (l : List C) : Prop where
  insert : ∀ e, (Index.insert e).result ix =
    if p.Admits e then .ok !l.contains e else .error .unknownElement
  erase : ∀ e, (Index.erase e).result ix =
    if p.Admits e then .ok (l.contains e) else .error .unknownElement
  contains : ∀ e, (ix.contains e).result =
    if p.Admits e then .ok (l.contains e) else .error .unknownElement
  entries : ix.entries = l.mergeSort fun a b => (compare (p.key a) (p.key b)).isLE
  /-- Entries of one set come in the order of their latest addition. -/
  latest : ∀ b, ix.entries.filter (fun e => p.key e = b) = l.filter fun e => p.key e = b
  subsets : ∀ {Q : Type} [HasElements Q E] (q : Q), p.Spans (elements q) →
    (ix.subsets q).result = .ok (ix.entries.filter fun e => ∀ x ∈ elements e, x ∈ elements q)
  supersets : ∀ {Q : Type} [HasElements Q E] (q : Q), p.Spans (elements q) →
    (ix.supersets q).result = .ok (ix.entries.filter fun e => ∀ x ∈ elements q, x ∈ elements e)
  count_subsets : ∀ {Q : Type} [HasElements Q E] (q : Q), p.Spans (elements q) →
    (ix.count .subsets q).result =
      .ok (ix.entries.filter fun e => ∀ x ∈ elements e, x ∈ elements q).length
  count_supersets : ∀ {Q : Type} [HasElements Q E] (q : Q), p.Spans (elements q) →
    (ix.count .supersets q).result =
      .ok (ix.entries.filter fun e => ∀ x ∈ elements q, x ∈ elements e).length
  size : ix.size = (l.map fun e => (elements e).toFinset).toFinset.card
  total : ix.total = l.length

theorem Holds.result_contains (h : Holds p ix l) (e : C) : (ix.contains e).result =
    if p.Admits e then .ok (l.any (matching p e)) else .error .unknownElement := by
  rw [Index.contains, Attempt.result_bind]
  by_cases inside : p.Admits e
  · rw [if_pos inside, h.result_bitSet inside, ← any_bucketOf]
    simp only [Except.bind, Attempt.result_pure, h.getD_bucket]
    rfl
  · rw [if_neg inside, h.result_bitSet_error inside]
    rfl

variable [LawfulElements C]

theorem Files.result_contains [PartialEquivBEq C] (h : Files p ix l) (e : C) :
    (ix.contains e).result =
      if p.Admits e then .ok (l.contains e) else .error .unknownElement := by
  rw [h.toHolds.result_contains]
  by_cases inside : p.Admits e
  · rw [if_pos inside, if_pos inside, any_matching inside]
  · rw [if_neg inside, if_neg inside]

variable [EquivBEq C]

theorem Files.refines (h : Files p ix l) : Refines p ix l where
  insert := by
    intro e
    obtain ⟨_, outcome, _⟩ := h.step (.insert e)
    exact Action.result_of_outcome outcome
  erase := by
    intro e
    obtain ⟨_, outcome, _⟩ := h.step (.erase e)
    exact Action.result_of_outcome outcome
  contains := h.result_contains
  entries := h.entries_eq
  latest := h.filter_entries
  subsets := fun q => h.result_find .subsets
  supersets := fun q => h.result_find .supersets
  count_subsets := fun q => h.result_count .subsets
  count_supersets := fun q => h.result_count .supersets
  size := h.size_eq
  total := h.total

/-- After any calls, within the universe or not, an index over any permutation answers as the list
that they build. -/
theorem run_refines_listing (p : Permutation E) (calls : List (Call C)) :
    Refines p ((Index.empty p).run calls) (listing p calls) :=
  (files_run p calls).refines

/-- Two arrangements of one set, one of them added anew, and an entry outside of the universe. -/
theorem run_refines_arrangements :
    EquivBEq (List Nat) ∧ LawfulElements (List Nat) ∧
    Refines ⟨[30, 10, 20], by decide, by decide⟩
      ((Index.empty ⟨[30, 10, 20], by decide, by decide⟩).run
        [.insert [10, 20], .insert [20, 10], .insert [40, 10], .erase [10, 20], .insert [30],
          .insert [10, 20]])
      [[20, 10], [30], [10, 20]] := by
  refine ⟨inferInstance, inferInstance, ?_⟩
  have listed : listing ⟨[30, 10, 20], by decide, by decide⟩
      [.insert [10, 20], .insert [20, 10], .insert [40, 10], .erase [10, 20], .insert [30],
        .insert [10, 20]] = [[20, 10], [30], [10, 20]] := by decide
  rw [← listed]
  exact run_refines_listing _ _

end Repack.Index
