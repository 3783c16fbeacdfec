import Repack.Proofs.Index.Integrity
import Repack.Proofs.Store.Pruning
import Repack.Proofs.Store.Recording

/-! No call on a store finds its indices inconsistent. What the calls fail on is an element outside
of the universe, or a result that makes no entry. -/
namespace Repack

open Repack.Action (FailsOnly)

namespace Store

variable {p : Permutation Station} {s : Store} {V : Entry → Prop} {α : Type}

/-- The calls on a store that take elements, each with those it takes. -/
inductive Takes : {α : Type} → Action Store α → List Station → Prop
  | insert (e : Entry) : Takes (insert e) (elements e)
  | erase (e : Entry) : Takes (erase e) (elements e)
  | contains (e : Entry) : Takes (contains e) (elements e)
  | proveSat (i : Instance) (ignore : Solution → Bool) : Takes (proveSat i ignore) (elements i)
  | proveUnsat (i : Instance) : Takes (proveUnsat i) (elements i)
  | lookup (i : Instance) : Takes (lookup i) (elements i)
  | seeds (i : Instance) (k : Nat) : Takes (seeds i k) (elements i)
  | onSolutions {α : Type} {x : Action (Index Station Solution) α} {taken : List Station}
    (inner : Index.Takes x taken) : Takes (onSolutions x) taken
  | onRefutations {α : Type} {x : Action (Index Station Refutation) α} {taken : List Station}
    (inner : Index.Takes x taken) : Takes (onRefutations x) taken

theorem Keeps.confined_onSolutions (kept : s.Keeps p V) {x : Action (Index Station Solution) α}
    {taken : List Station} (takes : Index.Takes x taken) :
    (onSolutions x).Confined s (p.Spans taken) := by
  obtain ⟨S, filed, _⟩ := kept.solutions
  exact (filed.confined takes).zoom rfl

theorem Keeps.confined_onRefutations (kept : s.Keeps p V)
    {x : Action (Index Station Refutation) α} {taken : List Station}
    (takes : Index.Takes x taken) : (onRefutations x).Confined s (p.Spans taken) := by
  obtain ⟨R, filed, _⟩ := kept.refutations
  exact (filed.confined takes).zoom rfl

theorem Keeps.confined_insert (kept : s.Keeps p V) (e : Entry) :
    (insert e).Confined s (p.Spans (elements e)) := by
  cases e with
  | solution a => exact (kept.confined_onSolutions (.insert a)).log_bind _
  | refutation a => exact (kept.confined_onRefutations (.insert a)).log_bind _

theorem Keeps.confined_lookup (kept : s.Keeps p V) (i : Instance) :
    (lookup i).Confined s (p.Spans (elements i)) := by
  obtain ⟨S, filedS, _⟩ := kept.solutions
  obtain ⟨R, filedR, _⟩ := kept.refutations
  constructor
  · intro inside
    rw [result_lookup, result_solutionFor filedS inside, Except.bind]
    split
    · exact ⟨_, rfl⟩
    · rw [result_refutationFor filedR inside, Except.bind]
      split <;> exact ⟨_, rfl⟩
  · intro outside
    have refused : (lookup i).result s = .error .unknownElement := by
      rw [result_lookup, result_solutionFor_error filedS outside]
      rfl
    exact Prod.ext refused rfl

theorem Keeps.confined (kept : s.Keeps p V) {x : Action Store α} {taken : List Station}
    (takes : Takes x taken) : x.Confined s (p.Spans taken) := by
  obtain ⟨S, filedS, _⟩ := kept.solutions
  obtain ⟨R, filedR, _⟩ := kept.refutations
  cases takes with
  | insert e => exact kept.confined_insert e
  | erase e =>
    cases e with
    | solution a => exact kept.confined_onSolutions (.erase a)
    | refutation a => exact kept.confined_onRefutations (.erase a)
  | contains e =>
    cases e with
    | solution a => exact kept.confined_onSolutions (.contains a)
    | refutation a => exact kept.confined_onRefutations (.contains a)
  | proveSat i ignore =>
    refine (Action.confined_query ?_ ?_).withLock .read
    · exact fun inside => ⟨_, result_solutionFor filedS inside ignore⟩
    · exact fun outside => result_solutionFor_error filedS outside ignore
  | proveUnsat i =>
    refine (Action.confined_query ?_ ?_).withLock .read
    · exact fun inside => ⟨_, result_refutationFor filedR inside⟩
    · exact fun outside => result_refutationFor_error filedR outside
  | lookup i => exact kept.confined_lookup i
  | seeds i k =>
    constructor
    · intro inside
      rw [Action.result_of_outcome (outcome_seeds filedS i k), if_pos inside]
      exact ⟨_, rfl⟩
    · intro outside
      rw [outcome_seeds filedS i k, if_neg outside]
  | onSolutions inner => exact kept.confined_onSolutions inner
  | onRefutations inner => exact kept.confined_onRefutations inner

/-- The faults of the calls on a store. -/
def Foreign (f : Fault) : Prop := f = .unknownElement ∨ f.area = .store

theorem failsOnly_onSolutions {x : Action (Index Station Solution) α}
    (inner : FailsOnly (Index.Keeps p fun _ => True) (· = .unknownElement) x) :
    FailsOnly (Keeps p fun _ => True) Foreign (onSolutions x) :=
  Action.failsOnly_zoom (inner.mono fun _ => Or.inl) fun _ kept => kept.solutions

theorem failsOnly_onRefutations {x : Action (Index Station Refutation) α}
    (inner : FailsOnly (Index.Keeps p fun _ => True) (· = .unknownElement) x) :
    FailsOnly (Keeps p fun _ => True) Foreign (onRefutations x) :=
  Action.failsOnly_zoom (inner.mono fun _ => Or.inl) fun _ kept => kept.refutations

theorem Takes.failsOnly {x : Action Store α} {taken : List Station} (takes : Takes x taken) :
    FailsOnly (Keeps p fun _ => True) Foreign x := by
  have unknown : FailsOnly (Keeps p fun _ => True) (· = .unknownElement) x :=
    Action.failsOnly_of_confined fun _ kept => ⟨_, kept.confined takes⟩
  exact unknown.mono fun _ => Or.inl

theorem failsOnly_insertAll (l : List Entry) :
    FailsOnly (Keeps p fun _ => True) Foreign (insertAll l) :=
  Action.failsOnly_mapM (fun e _ => (Takes.insert e).failsOnly) fun _ _ => preserves_insert trivial

theorem failsOnly_record (i : Instance) (r : Finding) (key : String) :
    FailsOnly (Keeps p fun _ => True) Foreign (record i r key) := by
  have made : FailsOnly (Keeps p fun _ => True) Foreign
      (Action.query fun _ : Store => entryOf i r key) :=
    fun _ _ _ failed => Or.inr (entryOf_fault failed)
  apply made.bind (Action.preserves_query _)
  intro e
  apply ((Takes.insert e).failsOnly).bind (preserves_insert trivial)
  exact fun _ => Action.failsOnly_pure e

/-- A call on a store fails on an element outside of the universe, or on a result that makes no
entry, and else does not fail. -/
theorem Operation.failsOnly {x : Action Store α} (op : Operation x) :
    FailsOnly (Keeps p fun _ => True) Foreign x := by
  cases op with
  | insert e => exact (Takes.insert e).failsOnly
  | insertAll l => exact failsOnly_insertAll l
  | erase e => exact (Takes.erase e).failsOnly
  | contains e => exact (Takes.contains e).failsOnly
  | entries => exact Action.failsOnly_of_ok fun _ => ⟨_, rfl⟩
  | record i r key => exact failsOnly_record i r key
  | issueKey stem => exact Action.failsOnly_of_ok fun _ => ⟨_, rfl⟩
  | proveSat i ignore => exact (Takes.proveSat i ignore).failsOnly
  | proveUnsat i => exact (Takes.proveUnsat i).failsOnly
  | lookup i => exact (Takes.lookup i).failsOnly
  | seeds i k => exact (Takes.seeds i k).failsOnly
  | pruneSolutions =>
    rintro s ⟨⟨S, filed, _⟩, _⟩ f failed
    obtain ⟨removed, _, outcome, _⟩ := outcome_pruneSolutions filed
    rw [Action.result_of_outcome outcome] at failed
    cases failed
  | pruneRefutations =>
    rintro s ⟨_, ⟨R, filed, _⟩⟩ f failed
    obtain ⟨removed, _, outcome, _⟩ := outcome_pruneRefutations filed
    rw [Action.result_of_outcome outcome] at failed
    cases failed
  | saved lib => exact Action.failsOnly_of_ok fun _ => ⟨_, rfl⟩
  | restore lib text => exact failsOnly_insertAll _
  | onSolutions inner => exact failsOnly_onSolutions inner.failsOnly
  | onRefutations inner => exact failsOnly_onRefutations inner.failsOnly

/-- What holds of a store in every state that it reaches. -/
structure Intact (p : Permutation Station) (s : Store) : Prop where
  solutions : s.solutions.Intact p
  refutations : s.refutations.Intact p
  faults : ∀ {α : Type} {x : Action Store α}, Operation x →
    ∀ f, x.result s = .error f → f = .unknownElement ∨ f.area = .store
  pruneSolutions : ∃ removed, Store.pruneSolutions.result s = .ok removed
  pruneRefutations : ∃ removed, Store.pruneRefutations.result s = .ok removed

theorem Reachable.intact (h : Reachable p s) : s.Intact p := by
  obtain ⟨⟨S, filedS, _⟩, ⟨R, filedR, _⟩⟩ := h.keeps
  obtain ⟨_, _, outcomeS, _⟩ := outcome_pruneSolutions filedS
  obtain ⟨_, _, outcomeR, _⟩ := outcome_pruneRefutations filedR
  exact ⟨h.keeps.solutions.intact, h.keeps.refutations.intact,
    fun op => op.failsOnly s h.keeps,
    ⟨_, Action.result_of_outcome outcomeS⟩, ⟨_, Action.result_of_outcome outcomeR⟩⟩

/-- An index is intact after any calls, refused ones too, whatever its permutation and its entries;
and so are both indices of a reachable store. -/
theorem intact_of_reached :
    (∀ {E C : Type} [DecidableEq E] [HasElements C E] [BEq C] [LawfulElements C]
      [PartialEquivBEq C] (p : Permutation E) (calls : List (Index.Call C)),
        ((Index.empty p).run calls).Intact p) ∧
    ∀ (p : Permutation Station) (s : Store), Reachable p s → s.Intact p := by
  constructor
  · intro E C _ _ _ _ _ p calls
    exact Index.Keeps.intact ⟨_, Index.files_run p calls, fun _ _ => trivial⟩
  · exact fun p s h => h.intact

/-- Two arrangements of one set, one removed and the other added twice, and an entry outside of the
universe; and a store with entries of both kinds. -/
theorem intact_sample :
    ((Index.empty ⟨[30, 10, 20], by decide, by decide⟩).run
      [.insert [10, 20], .insert [20, 10], .insert [40, 10], .erase [10, 20], .insert [30],
        .insert [20, 10]] : Index Nat (List Nat)).Intact ⟨[30, 10, 20], by decide, by decide⟩ ∧
    Reachable trio sample ∧ sample.Intact trio :=
  ⟨intact_of_reached.1 _ _, reachable_sample, intact_of_reached.2 _ _ reachable_sample⟩

end Store

end Repack
