import Repack.Proofs.Index.Reachable
import Repack.Proofs.Index.Refinement

/-! The two structures and the counter of an index stay in step. What `check` compares agrees after
any calls, each ordered set has its bucket, and a call can only fail on an element outside of the
universe. -/
namespace Repack.Index

open Repack.Action (FailsOnly)

variable {E C : Type} [DecidableEq E] [HasElements C E]
variable {p : Permutation E} {ix : Index E C} {l : List C}

theorem Holds.bucket_eq (h : Holds p ix l) {b : BitSet} {bucket : List C}
    (held : ix.buckets[b]? = some bucket) : bucket = bucketOf p l b ∧ bucket ≠ [] := by
  rw [h.buckets] at held
  split at held
  · cases held
  · next filled =>
    cases held
    exact ⟨rfl, filled⟩

theorem Holds.mem_sets_iff (h : Holds p ix l) (b : BitSet) : b ∈ ix.sets ↔ b ∈ ix.buckets := by
  rw [h.sets, Std.ExtTreeMap.mem_iff_isSome_getElem?, h.buckets]
  split
  · next empty => simp [empty]
  · next filled => simp [filled]

theorem Holds.perm_keys (h : Holds p ix l) : ix.buckets.keys.Perm ix.sets.toList := by
  rw [List.perm_ext_iff_of_nodup Std.ExtTreeMap.nodup_keys (Permutation.nodup_toList _)]
  intro b
  rw [Std.ExtTreeMap.mem_keys, Std.ExtTreeSet.mem_toList, h.mem_sets_iff]

/-- The buckets together are as long as the list. -/
theorem Holds.sum_buckets (h : Holds p ix l) :
    (ix.sets.toList.map fun b => (ix.buckets[b]?.getD []).length).sum = l.length := by
  rw [← h.perm_entries.length_eq, entries, List.length_flatMap]

theorem Holds.result_check (h : Holds p ix l) : ix.check.result = .ok () := by
  have sizes : ix.sets.size = ix.buckets.size := by
    rw [← Std.ExtTreeSet.length_toList, ← Std.ExtTreeMap.length_keys, h.perm_keys.length_eq]
  have counted : ix.sets.toList.foldl (fun n b => n + (ix.buckets[b]?.getD []).length) 0 =
      ix.total := by
    rw [h.total, ← h.sum_buckets, List.sum_eq_foldl, List.foldl_map]
  rw [check, if_neg (by simp [sizes]), Attempt.result_bind,
    Attempt.result_foldlM_ok _ (fun n b => n + (ix.buckets[b]?.getD []).length), counted]
  · simp [Except.bind]
  · intro n b member
    rw [if_neg (by simp [h.width_of_mem member, h.permutation]), h.getD_bucket, h.buckets,
      if_neg ((h.sets b).mp (Std.ExtTreeSet.mem_toList.mp member))]
    cases held : bucketOf p l b with
    | nil => exact absurd held ((h.sets b).mp (Std.ExtTreeSet.mem_toList.mp member))
    | cons e rest => rfl

theorem Holds.result_bucket (h : Holds p ix l) {b : BitSet} (member : b ∈ ix.sets) :
    (ix.bucket b).result = .ok (bucketOf p l b) := by
  rw [bucket, h.buckets, if_neg ((h.sets b).mp member)]
  rfl

variable [BEq C]

/-- The ordered sets are the keys of the buckets and as wide as the permutation; each bucket has
entries, no two of them equal, all filed by its key; and they are counted. -/
structure WellFormed (p : Permutation E) (ix : Index E C) : Prop where
  permutation : ix.permutation = p
  sets : ∀ b, b ∈ ix.sets ↔ b ∈ ix.buckets
  width : ∀ b ∈ ix.sets, b.width = p.size
  filled : ∀ (b : BitSet) (bucket : List C), ix.buckets[b]? = some bucket → bucket ≠ []
  distinct : ∀ (b : BitSet) (bucket : List C), ix.buckets[b]? = some bucket →
    bucket.Pairwise fun a b => (a == b) = false
  filed : ∀ (b : BitSet) (bucket : List C), ix.buckets[b]? = some bucket →
    ∀ e ∈ bucket, (p.bitSet (elements e)).result = .ok b
  total : ix.total = (ix.buckets.toList.map fun pair => pair.2.length).sum

theorem Files.wellFormed (h : Files p ix l) : WellFormed p ix where
  permutation := h.permutation
  sets := h.mem_sets_iff
  width := fun b member => h.width_of_mem (Std.ExtTreeSet.mem_toList.mpr member)
  filled := fun b bucket held => (h.bucket_eq held).2
  distinct := by
    intro b bucket held
    rw [(h.bucket_eq held).1]
    exact h.distinct.filter _
  filed := by
    intro b bucket held e member
    rw [(h.bucket_eq held).1, mem_bucketOf] at member
    rw [p.result_bitSet (h.admits e member.1)]
    exact congrArg Except.ok member.2
  total := by
    have lengths : ix.buckets.toList.map (fun pair => pair.2.length) =
        ix.buckets.keys.map fun b => (ix.buckets[b]?.getD []).length := by
      rw [← Std.ExtTreeMap.map_fst_toList_eq_keys, List.map_map]
      apply List.map_congr_left
      rintro ⟨b, bucket⟩ member
      simp [Std.ExtTreeMap.mem_toList_iff_getElem?_eq_some.mp member]
    rw [lengths, (h.perm_keys.map _).sum_nat, h.sum_buckets, h.total]

/-- The calls on an index that take elements, each with those it takes. -/
inductive Takes : {α : Type} → Action (Index E C) α → List E → Prop
  | insert (e : C) : Takes (Shared.insert e) (elements e)
  | erase (e : C) : Takes (Shared.erase e) (elements e)
  | contains (e : C) : Takes (Shared.contains e) (elements e)
  | find {Q : Type} [HasElements Q E] (d : Containment) (q : Q) :
    Takes (Shared.find d q) (elements q)
  | count {Q : Type} [HasElements Q E] (d : Containment) (q : Q) :
    Takes (Shared.count d q) (elements q)

theorem Holds.confined_call (h : Holds p ix l) (call : Call C) :
    call.perform.Confined ix (p.Admits call.entry) := by
  constructor
  · intro inside
    obtain ⟨changed, _, _, outcome, _⟩ := h.outcome_call inside
    exact ⟨changed, Action.result_of_outcome outcome⟩
  · exact h.outcome_call_outside

theorem Holds.confined (h : Holds p ix l) {α : Type} {x : Action (Index E C) α} {taken : List E}
    (takes : Takes x taken) : x.Confined ix (p.Spans taken) := by
  cases takes with
  | insert e => exact (h.confined_call (.insert e)).withLock .write
  | erase e => exact (h.confined_call (.erase e)).withLock .write
  | contains e =>
    refine (Action.confined_query ?_ ?_).withLock .read
    · exact fun inside => ⟨_, (h.result_contains e).trans (if_pos inside)⟩
    · exact fun outside => (h.result_contains e).trans (if_neg outside)
  | find d q =>
    refine (Action.confined_query ?_ ?_).withLock .read
    · exact fun inside => ⟨_, h.result_find d inside⟩
    · exact h.result_find_error d
  | count d q =>
    refine (Action.confined_query ?_ ?_).withLock .read
    · exact fun inside => ⟨_, h.result_count d inside⟩
    · exact h.result_count_error d

theorem failsOnly_call (call : Call C) :
    FailsOnly (Keeps p fun _ => True) (· = .unknownElement) (call.perform (E := E)) := by
  apply Action.failsOnly_of_confined
  rintro ix ⟨l, filed, _⟩
  exact ⟨_, filed.confined_call call⟩

theorem Takes.failsOnly {α : Type} {x : Action (Index E C) α} {taken : List E}
    (takes : Takes x taken) : FailsOnly (Keeps p fun _ => True) (· = .unknownElement) x := by
  apply Action.failsOnly_of_confined
  rintro ix ⟨l, filed, _⟩
  exact ⟨_, filed.confined takes⟩

section Calls

variable [LawfulElements C] [PartialEquivBEq C]

theorem Files.total_erase (h : Files p ix l) {e : C}
    (erased : (Index.erase e).result ix = .ok true) :
    ((Index.erase e).after ix).total + 1 = ix.total := by
  obtain ⟨ix', outcome, filed⟩ := h.step (.erase e)
  have answered : (Index.erase e).result ix = (Call.erase e).answer p l :=
    Action.result_of_outcome outcome
  rw [show (Index.erase e).after ix = ix' from Action.after_of_outcome outcome, filed.total,
    h.total]
  rw [erased, Call.answer] at answered
  unfold Call.onList
  split at answered
  · next inside =>
    have present : l.contains e = true := (Except.ok.inj answered).symm
    have positive : 0 < l.length := by
      cases l with
      | nil => cases present
      | cons => simp
    rw [if_pos inside]
    dsimp only
    rw [List.erase_eq_eraseP', List.length_eraseP, List.any_beq', if_pos present]
    omega
  · cases answered

/-- A call on an index fails on an element outside of the universe, and else does not fail. -/
theorem Operation.failsOnly {α : Type} {x : Action (Index E C) α} (op : Operation x) :
    FailsOnly (Keeps p fun _ => True) (· = .unknownElement) x := by
  have closed := closed_keeps (C := C) (p := p)
  cases op with
  | insert e => exact (Takes.insert e).failsOnly
  | erase e => exact (Takes.erase e).failsOnly
  | insertAll l =>
    exact FailsOnly.withLock (Action.failsOnly_mapM (fun e _ => failsOnly_call (.insert e))
      fun e _ => closed.insert e) _
  | keepFirst n =>
    refine FailsOnly.withLock (Action.failsOnly_get.bind Action.preserves_get ?_) _
    intro ix
    exact Action.failsOnly_mapM (fun e _ => failsOnly_call (.erase e)) fun e _ => closed.erase e
  | contains e => exact (Takes.contains e).failsOnly
  | entries => exact Action.failsOnly_of_ok fun _ => ⟨_, rfl⟩
  | size => exact Action.failsOnly_of_ok fun _ => ⟨_, rfl⟩
  | total => exact Action.failsOnly_of_ok fun _ => ⟨_, rfl⟩
  | find d q => exact (Takes.find d q).failsOnly
  | count d q => exact (Takes.count d q).failsOnly

/-- What holds of an index over a permutation in every state that it reaches: it is well-formed,
its count never goes below zero, each ordered set has its bucket, and no call finds it
inconsistent. -/
structure Intact (p : Permutation E) (ix : Index E C) : Prop where
  wellFormed : WellFormed p ix
  check : ix.check.result = .ok ()
  total_erase : ∀ e, (Index.erase e).result ix = .ok true →
    ((Index.erase e).after ix).total + 1 = ix.total
  bucket : ∀ b ∈ ix.sets, ∃ bucket, (ix.bucket b).result = .ok bucket
  faults : ∀ {α : Type} {x : Action (Index E C) α}, Operation x →
    ∀ f, x.result ix = .error f → f = .unknownElement

theorem Keeps.intact (kept : ix.Keeps p fun _ => True) : ix.Intact p := by
  obtain ⟨l, filed, each⟩ := kept
  exact ⟨filed.wellFormed, filed.result_check, fun e => filed.total_erase,
    fun b member => ⟨_, filed.result_bucket member⟩, fun op => op.failsOnly ix ⟨l, filed, each⟩⟩

end Calls

end Repack.Index
