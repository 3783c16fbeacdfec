import Repack.Proofs.Store.Integrity
import Repack.Proofs.Store.Locality

/-! What a record takes in. The entry that a result makes for an instance is put last in its bucket,
unless it is stored already, and nothing else changes; a result that makes none is refused before the
universe is looked at, and every refusal leaves the store as it is. -/
namespace Repack

namespace Index

/-- What an index becomes when it takes an entry: it stays as it is if the entry is stored, and else
the entry comes last in the bucket of its set, while the others stand as before. -/
structure Gains {C : Type} [HasElements C Station] [BEq C] (p : Permutation Station) (e : C)
    (ix ix' : Index Station C) : Prop where
  stored : e ∈ ix.entries → ix' = ix
  new : e ∉ ix.entries → ix'.entries.Perm (ix.entries ++ [e])
  others : e ∉ ix.entries → ix'.entries.filter (· != e) = ix.entries
  buckets : e ∉ ix.entries → ∀ b, ix'.buckets[b]? =
    if p.key e = b then some (ix.buckets[b]?.getD [] ++ [e]) else ix.buckets[b]?

variable {C : Type} [HasElements C Station] [BEq C] [LawfulBEq C] {p : Permutation Station}
  {ix : Index Station C} {l : List C} {e : C}

theorem Files.gains (h : Files p ix l) (inside : p.Admits e) : ∃ new,
    (Index.insert e).result ix = .ok new ∧ Gains p e ix ((Index.insert e).after ix) := by
  obtain ⟨ix', outcome, filed⟩ := h.outcome_insert inside
  have after : (Index.insert e).after ix = ix' := Action.after_of_outcome outcome
  refine ⟨_, Action.result_of_outcome outcome, ?_⟩
  simp only [List.contains_iff_mem, ← h.mem_entries] at filed
  constructor
  · intro known
    rw [if_pos known] at filed
    rw [after]
    exact filed.unique h
  · intro fresh
    rw [if_neg fresh] at filed
    rw [after]
    exact filed.perm_entries.trans (h.perm_entries.symm.append_right [e])
  · intro fresh
    obtain same | others := h.entries_insert e
    · rw [same, List.filter_eq_self]
      rintro a member
      rw [bne_iff_ne]
      rintro rfl
      exact fresh member
    · exact others.symm
  · intro fresh b
    rw [if_neg fresh] at filed
    rw [after, filed.buckets, bucketOf_append, h.getD_bucket, h.buckets]
    by_cases same : p.key e = b
    · simp [same]
    · simp [same]

end Index

namespace Store

variable {p : Permutation Station} {s : Store} {V : Entry → Prop} {i : Instance} {r : Finding}
  {key : String}

/-- What a store becomes when it takes an entry: the index of its kind takes it, and nothing else
changes. -/
inductive Gains (p : Permutation Station) (s : Store) : Entry → Store → Prop
  | solution {a : Solution} {solutions : Index Station Solution}
    (gained : Index.Gains p a s.solutions solutions) :
    Gains p s (.solution a) { s with solutions }
  | refutation {a : Refutation} {refutations : Index Station Refutation}
    (gained : Index.Gains p a s.refutations refutations) :
    Gains p s (.refutation a) { s with refutations }

theorem Keeps.gains (kept : s.Keeps p V) {e : Entry} (inside : p.Spans (elements e)) :
    ∃ new, (insert e).result s = .ok new ∧ s.Gains p e ((insert e).after s) := by
  cases e with
  | solution a =>
    obtain ⟨S, filed, _⟩ := kept.solutions
    obtain ⟨new, taken, gained⟩ := filed.gains inside
    have outcome := outcome_insert_solution a s
    rw [Action.result_of_outcome outcome, Action.after_of_outcome outcome]
    exact ⟨new, taken, .solution gained⟩
  | refutation a =>
    obtain ⟨R, filed, _⟩ := kept.refutations
    obtain ⟨new, taken, gained⟩ := filed.gains inside
    have outcome := outcome_insert_refutation a s
    rw [Action.result_of_outcome outcome, Action.after_of_outcome outcome]
    exact ⟨new, taken, .refutation gained⟩

/-- The entry is made before the universe is looked at, and is over the stations of the instance. -/
theorem Keeps.outcome_record_outside (kept : s.Keeps p V) {e : Entry}
    (makes : r.Makes i key (.ok e)) (outside : ¬ p.Spans (elements i)) :
    (record i r key).outcome s = (.error .unknownElement, s) := by
  have made := result_entryOf makes
  have beyond : ¬ p.Spans (elements e) := mt (spans_entryOf_iff made).mp outside
  simp only [outcome_record, made, (kept.confined_insert e).refused beyond]
  rfl

theorem Keeps.outcome_record_inside (kept : s.Keeps p V) {e : Entry}
    (makes : r.Makes i key (.ok e)) (inside : p.Spans (elements i)) :
    ∃ t, (record i r key).outcome s = (.ok e, t) ∧ s.Gains p e t := by
  have made := result_entryOf makes
  obtain ⟨new, taken, gained⟩ := kept.gains ((spans_entryOf_iff made).mpr inside)
  refine ⟨_, ?_, gained⟩
  simp only [outcome_record, made, Action.outcome_eq (insert e), taken]
  rfl

/-- All that a record answers and leaves. A result makes an entry or a fault for the instance,
whatever the universe; a fault is the answer, and an entry is refused if a station of the instance
is unknown, and else is the answer and is taken in. -/
structure Records (p : Permutation Station) (s : Store) (i : Instance) (r : Finding)
    (key : String) : Prop where
  makes : ∃! answer, r.Makes i key answer
  refused : ∀ f, r.Makes i key (.error f) → (record i r key).outcome s = (.error f, s)
  outside : ∀ e, r.Makes i key (.ok e) → (∃ st ∈ i.stations, st ∉ p.elements) →
    (record i r key).outcome s = (.error .unknownElement, s)
  taken : ∀ e, r.Makes i key (.ok e) → (∀ st ∈ i.stations, st ∈ p.elements) →
    ∃ t, (record i r key).outcome s = (.ok e, t) ∧ s.Gains p e t

/-- What is recorded in a reachable store, whatever the result, the instance and the key. -/
theorem records_of_reachable (h : Reachable p s) (i : Instance) (r : Finding) (key : String) :
    s.Records p i r key := by
  have kept := h.keeps
  constructor
  · exact ⟨_, makes_entryOf i r key, fun _ makes => (result_entryOf makes).symm⟩
  · exact fun f makes => outcome_record_of_fault makes
  · rintro e makes ⟨st, member, beyond⟩
    apply kept.outcome_record_outside makes
    exact Permutation.not_spans_iff.mpr ⟨st, Std.ExtTreeSet.mem_toList.mpr member, beyond⟩
  · intro e makes within
    apply kept.outcome_record_inside makes
    intro st member
    exact p.contains_iff.mpr (within st (Std.ExtTreeSet.mem_toList.mp member))

/-- A station without a channel is reported before one that is unknown; with both the record
succeeds. -/
theorem records_sample :
    let r : Finding := ⟨.satisfiable, some (.ofList [(1, 14), (3, 16), (9, 20)] compare), "test",
      .zero⟩
    Reachable trio sample ∧ sample.Records trio (.ofStations [2, 9]) r "key" ∧
    (record (.ofStations [2, 9]) r "key").result sample = .error (.incompleteAssignment 2) ∧
    (record (.ofStations [1, 9]) r "key").result sample = .error .unknownElement ∧
    (record (.ofStations [1, 3]) r "key").result sample =
      .ok (.solution ⟨.ofList [(1, 14), (3, 16)] compare, "key", "test"⟩) := by
  intro r
  refine ⟨reachable_sample, records_of_reachable reachable_sample _ r _, ?_, ?_, ?_⟩
  · decide +kernel
  · decide +kernel
  · decide +kernel

end Store

end Repack
