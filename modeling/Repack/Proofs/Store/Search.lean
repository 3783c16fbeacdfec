import Repack.Proofs.Ranking
import Repack.Proofs.Settings.Preference
import Repack.Proofs.Store.Reachable

/-! Proofs are found as an exhaustive search would find them. The entries that a query leaves out
decide nothing, so whether there is a proof, and which entry it is from, can be read off the list of
all entries. -/
namespace Repack

namespace Exhaustive

theorem satisfiable_eq_true_iff {solutions : List Solution} {i : Instance} :
    satisfiable solutions i = true ↔ ∃ a ∈ solutions, a.solves i = true := by
  rw [satisfiable, List.any_eq_true]
  apply exists_congr
  intro a
  apply and_congr_right
  intro _
  rw [Solution.solves_iff, List.all_eq_true]
  apply forall_congr'
  intro s
  rw [Std.ExtTreeSet.mem_toList]
  apply imp_congr_right
  intro _
  cases a.assignment[s]? <;> simp

theorem refutable_eq_true_iff {refutations : List Refutation} {i : Instance} :
    refutable refutations i = true ↔ ∃ a ∈ refutations, a.refutes i = true := by
  rw [refutable, List.any_eq_true]
  apply exists_congr
  intro a
  apply and_congr_right
  intro _
  rw [Refutation.refutes_iff, List.all_eq_true]
  simp only [Std.ExtTreeSet.mem_toList, Bool.and_eq_true, Std.ExtTreeSet.contains_iff_mem,
    forall_and]

end Exhaustive

namespace Store

open HasElements

variable {p : Permutation Station} {s : Store} {S : List Solution} {R : List Refutation}
variable {i : Instance}

theorem result_solutionFor (filed : Index.Files p s.solutions S)
    (inside : p.Spans (elements i)) (ignore : Solution → Bool) :
    (s.solutionFor i ignore).result =
      .ok ((s.settings.preference.value.select (·.assignment.size)
        (s.solutions.entries.filter fun a => !ignore a && a.solves i)).map
          fun a => ⟨a.assignment.restrict i.stations.toList, a.key⟩) := by
  have around : ∀ a : Solution, (!ignore a && a.solves i &&
      decide (Containment.supersets.Relates (elements i) (elements a))) =
        (!ignore a && a.solves i) := by
    intro a
    cases solved : a.solves i with
    | false => simp
    | true => simp [Solution.relates_of_solves solved]
  have measured : (cardinality : Solution → Nat) = (·.assignment.size) :=
    funext fun a => Std.ExtTreeMap.length_keys
  rw [solutionFor, Index.supersets, Attempt.result_bind, filed.result_find _ inside]
  simp only [Except.bind, List.filter_filter, around, measured]
  split
  · next a chosen => rw [chosen]; rfl
  · next none => rw [none]; rfl

theorem result_refutationFor (filed : Index.Files p s.refutations R)
    (inside : p.Spans (elements i)) : (s.refutationFor i).result =
      .ok ((s.settings.preference.value.select (·.stations.size)
        (s.refutations.entries.filter fun a => a.refutes i)).map Refutation.key) := by
  have within : ∀ a : Refutation, (a.refutes i &&
      decide (Containment.subsets.Relates (elements i) (elements a))) = a.refutes i := by
    intro a
    cases refuted : a.refutes i with
    | false => simp
    | true => simp [Refutation.relates_of_refutes refuted]
  have measured : (cardinality : Refutation → Nat) = (·.stations.size) :=
    funext fun a => Std.ExtTreeSet.length_toList
  rw [refutationFor, Index.subsets, Attempt.result_bind, filed.result_find _ inside]
  simp only [Except.bind, List.filter_filter, within, measured]
  split
  · next a chosen => rw [chosen]; rfl
  · next none => rw [none]; rfl

theorem result_solutionFor_error (filed : Index.Files p s.solutions S)
    (outside : ¬ p.Spans (elements i)) (ignore : Solution → Bool) :
    (s.solutionFor i ignore).result = .error .unknownElement := by
  rw [solutionFor, Index.supersets, Attempt.result_bind, filed.result_find_error _ outside]
  rfl

theorem result_refutationFor_error (filed : Index.Files p s.refutations R)
    (outside : ¬ p.Spans (elements i)) : (s.refutationFor i).result = .error .unknownElement := by
  rw [refutationFor, Index.subsets, Attempt.result_bind, filed.result_find_error _ outside]
  rfl

theorem proven_solutionFor (filed : Index.Files p s.solutions S) (i : Instance) :
    (s.solutionFor i fun _ => false).result.map Option.isSome =
      if p.Spans (elements i) then .ok (Exhaustive.satisfiable s.solutions.entries i)
      else .error .unknownElement := by
  by_cases inside : p.Spans (elements i)
  · rw [if_pos inside, result_solutionFor filed inside, Except.map, Except.ok.injEq,
      Bool.eq_iff_iff, Exhaustive.satisfiable_eq_true_iff, Option.isSome_map,
      Preference.isSome_select_filter_iff]
    simp
  · rw [if_neg inside, result_solutionFor_error filed inside]
    rfl

theorem proven_refutationFor (filed : Index.Files p s.refutations R) (i : Instance) :
    (s.refutationFor i).result.map Option.isSome =
      if p.Spans (elements i) then .ok (Exhaustive.refutable s.refutations.entries i)
      else .error .unknownElement := by
  by_cases inside : p.Spans (elements i)
  · rw [if_pos inside, result_refutationFor filed inside, Except.map, Except.ok.injEq,
      Bool.eq_iff_iff, Exhaustive.refutable_eq_true_iff, Option.isSome_map,
      Preference.isSome_select_filter_iff]
  · rw [if_neg inside, result_refutationFor_error filed inside]
    rfl

/-- There is a proof if there is an answer and it is one. -/
theorem exists_proof_iff {α : Type} {answer : Except Fault (Option α)} {inside : Prop}
    [Decidable inside] {held : Bool} {fault : Fault}
    (proven : answer.map Option.isSome = if inside then .ok held else .error fault) :
    (∃ proof, answer = .ok (some proof)) ↔ inside ∧ held = true := by
  by_cases within : inside
  · rw [if_pos within] at proven
    cases answer with
    | error => cases proven
    | ok answer =>
      obtain rfl : answer.isSome = held := Except.ok.inj proven
      simp [within, Option.isSome_iff_exists]
  · rw [if_neg within] at proven
    cases answer with
    | error => simp [within]
    | ok => cases proven

theorem exists_solutionFor_iff (filed : Index.Files p s.solutions S) :
    (∃ proof, (s.solutionFor i fun _ => false).result = .ok (some proof)) ↔
      p.Spans (elements i) ∧ ∃ a ∈ s.solutions.entries, a.solves i = true := by
  rw [exists_proof_iff (proven_solutionFor filed i), Exhaustive.satisfiable_eq_true_iff]

theorem exists_refutationFor_iff (filed : Index.Files p s.refutations R) :
    (∃ key, (s.refutationFor i).result = .ok (some key)) ↔
      p.Spans (elements i) ∧ ∃ a ∈ s.refutations.entries, a.refutes i = true := by
  rw [exists_proof_iff (proven_refutationFor filed i), Exhaustive.refutable_eq_true_iff]

theorem result_lookup (s : Store) (i : Instance) : (lookup i).result s =
    (s.solutionFor i fun _ => false).result.bind fun
      | some proof => .ok (.satisfiable proof.assignment proof.key)
      | none => (s.refutationFor i).result.bind fun
        | some key => .ok (.unsatisfiable key)
        | none => .ok .unknown := by
  change (s.solutionFor i (fun _ => false) >>= _).result = _
  rw [Attempt.result_bind]
  congr 1
  funext answer
  cases answer with
  | some proof => rfl
  | none =>
    rw [Attempt.result_bind]
    congr 1
    funext answer
    cases answer <;> rfl

/-- What a lookup answers, in terms of the two proofs. -/
theorem result_lookup_eq_ok_iff {v : Verdict} : (lookup i).result s = .ok v ↔
    match v with
    | .satisfiable a key => (s.solutionFor i fun _ => false).result = .ok (some ⟨a, key⟩)
    | .unsatisfiable key => (s.solutionFor i fun _ => false).result = .ok none ∧
        (s.refutationFor i).result = .ok (some key)
    | .unknown => (s.solutionFor i fun _ => false).result = .ok none ∧
        (s.refutationFor i).result = .ok none := by
  rw [result_lookup]
  rcases (s.solutionFor i fun _ => false).result with _ | _ | ⟨b, k⟩
  · cases v <;> simp [Except.bind]
  · rcases (s.refutationFor i).result with _ | _ | key <;> cases v <;> simp [Except.bind]
  · cases v <;> simp [Except.bind]

theorem outcome_seeds_eq (i : Instance) (k : Nat) (s : Store) : (seeds i k).outcome s =
    ((s.solutions.bitSet i).result.map fun _ =>
      (descending (·.agreement i) s.solutions.entries).take (min k s.settings.seedLimit.value),
      s) := by
  have spanned : (Action.query fun s : Store => s.permutation.bitSet i.stations.toList).outcome s =
      ((s.solutions.bitSet i).result, s) := rfl
  rw [seeds, Action.outcome_bind, spanned]
  cases (s.solutions.bitSet i).result <;> rfl

/-- The solutions that agree with an instance the most, out of all entries. -/
theorem outcome_seeds (filed : Index.Files p s.solutions S) (i : Instance) (k : Nat) :
    (seeds i k).outcome s = (if p.Spans (elements i) then
        .ok ((descending (·.agreement i) s.solutions.entries).take
          (min k s.settings.seedLimit.value))
      else .error .unknownElement, s) := by
  rw [outcome_seeds_eq]
  by_cases inside : p.Spans (elements i)
  · rw [if_pos inside, filed.result_bitSet inside]
    rfl
  · rw [if_neg inside, filed.result_bitSet_error inside]
    rfl

/-- The answer that an exhaustive search of some solutions gives: from the one that is preferred
among those that solve the instance and are not ignored, restricted to the instance. -/
structure SelectsSolution (t : Preference) (solutions : List Solution) (i : Instance)
    (ignore : Solution → Bool) (answer : Option SatProof) : Prop where
  proven_iff : answer.isSome = true ↔ ∃ a ∈ solutions, ignore a = false ∧ a.solves i = true
  chosen : ∀ proof ∈ answer, ∃ a,
    t.Chooses (·.assignment.size) (fun a => ignore a = false ∧ a.solves i = true) solutions a ∧
      proof.key = a.key ∧
      ∀ st, proof.assignment[st]? = if st ∈ i.stations then a.assignment[st]? else none
  stations : ∀ proof ∈ answer, ∀ st, st ∈ proof.assignment ↔ st ∈ i.stations

/-- The answer that an exhaustive search of some refutations gives. -/
structure SelectsRefutation (t : Preference) (refutations : List Refutation) (i : Instance)
    (answer : Option String) : Prop where
  proven_iff : answer.isSome = true ↔ ∃ a ∈ refutations, a.refutes i = true
  chosen : ∀ key ∈ answer, ∃ a,
    t.Chooses (·.stations.size) (fun a => a.refutes i = true) refutations a ∧ key = a.key

theorem selectsSolution_select (t : Preference) (solutions : List Solution) (i : Instance)
    (ignore : Solution → Bool) : SelectsSolution t solutions i ignore
      ((t.select (·.assignment.size) (solutions.filter fun a => !ignore a && a.solves i)).map
        fun a => ⟨a.assignment.restrict i.stations.toList, a.key⟩) := by
  have does : ∀ a : Solution, (!ignore a && a.solves i) = true ↔
      ignore a = false ∧ a.solves i = true := by
    intro a
    simp
  constructor
  · rw [Option.isSome_map, Preference.isSome_select_filter_iff]
    simp only [does]
  · intro proof answered
    obtain ⟨a, selected, rfl⟩ := Option.map_eq_some_iff.mp answered
    have chosen := Preference.chooses_of_select selected
    simp only [does] at chosen
    exact ⟨a, chosen, rfl, Assignment.getElem?_restrict_toList⟩
  · intro proof answered st
    obtain ⟨a, selected, rfl⟩ := Option.map_eq_some_iff.mp answered
    have solved := ((does a).mp (Preference.chooses_of_select selected).mem.2).2
    exact Assignment.mem_restrict_toList (Solution.mem_of_solves solved) st

theorem selectsRefutation_select (t : Preference) (refutations : List Refutation) (i : Instance) :
    SelectsRefutation t refutations i
      ((t.select (·.stations.size) (refutations.filter fun a => a.refutes i)).map
        Refutation.key) := by
  constructor
  · rw [Option.isSome_map, Preference.isSome_select_filter_iff]
  · intro key answered
    obtain ⟨a, selected, rfl⟩ := Option.map_eq_some_iff.mp answered
    exact ⟨a, Preference.chooses_of_select selected, rfl⟩

/-- All that a store answers about an instance, in terms of the entries that it lists. -/
structure Searches (s : Store) (i : Instance) (solutions : List Solution)
    (refutations : List Refutation) : Prop where
  solutions_listed : allSolutions.result s = .ok solutions
  refutations_listed : allRefutations.result s = .ok refutations
  proveSat : ∀ ignore, ∃ answer, (proveSat i ignore).result s = .ok answer ∧
    SelectsSolution s.settings.preference.value solutions i ignore answer
  proveUnsat : ∃ answer, (proveUnsat i).result s = .ok answer ∧
    SelectsRefutation s.settings.preference.value refutations i answer
  satisfiable : ((Store.proveSat i fun _ => false).result s).map Option.isSome =
    .ok (Exhaustive.satisfiable solutions i)
  refutable : ((Store.proveUnsat i).result s).map Option.isSome =
    .ok (Exhaustive.refutable refutations i)

/-- A reachable store answers about an instance within its universe as an exhaustive search of its
entries does, under either preference and whatever is ignored. -/
theorem searches_of_reachable (h : Reachable p s) (inside : p.Spans i.stations.toList) :
    Searches s i s.solutions.entries s.refutations.entries := by
  obtain ⟨⟨S, filedS, _⟩, ⟨R, filedR, _⟩⟩ := h.keeps
  have sat (ignore : Solution → Bool) := result_solutionFor filedS inside ignore
  have unsat := result_refutationFor filedR inside
  constructor
  · rfl
  · rfl
  · exact fun ignore => ⟨_, sat ignore, selectsSolution_select _ _ i ignore⟩
  · exact ⟨_, unsat, selectsRefutation_select _ _ i⟩
  · exact (proven_solutionFor filedS i).trans (if_pos inside)
  · exact (proven_refutationFor filedR i).trans (if_pos inside)

/-- Of the two solutions of the sample the smaller one is preferred. -/
theorem searches_sample :
    Reachable trio sample ∧ trio.Spans (Instance.ofStations [1]).stations.toList ∧
    Searches sample (.ofStations [1]) sample.solutions.entries sample.refutations.entries ∧
    (proveSat (.ofStations [1]) fun _ => false).result sample =
      .ok (some ⟨.ofList [(1, 14)] compare, "narrow"⟩) := by
  have inside : trio.Spans (Instance.ofStations [1]).stations.toList := by decide
  refine ⟨reachable_sample, inside, searches_of_reachable reachable_sample inside, ?_⟩
  decide +kernel

end Store

end Repack
