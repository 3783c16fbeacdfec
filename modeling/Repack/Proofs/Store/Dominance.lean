import Repack.Proofs.Store.Pruning
import Repack.Proofs.Store.Seeds

/-! Pruning and the seeds of an instance. A solution that extends another agrees with every instance
on at least as many stations, also with one that neither of them solves. So each solution that goes
is outdone by one that stays, and the best agreement is as good after pruning as before. -/
namespace Repack

/-- A solution agrees with an instance wherever one does that it extends. -/
theorem Solution.Extends.agreement_le {a b : Solution} (wider : a.Extends b) (i : Instance) :
    b.agreement i ≤ a.agreement i := by
  rw [agreement_eq_countP, agreement_eq_countP]
  apply List.countP_mono_left
  intro st _ agreed
  rw [Option.any_eq_true] at *
  obtain ⟨c, held, admitted⟩ := agreed
  exact ⟨c, wider st c held, admitted⟩

/-- If what subsumes an entry measures as much, nothing measures more than all that stays. -/
theorem Index.Spares.dominated {C : Type} {subsumes : C → C → Bool} {before after removed : List C}
    (h : Spares subsumes before after removed) {measure : C → Nat}
    (rises : ∀ u e, subsumes u e = true → measure e ≤ measure u) :
    ∀ e ∈ before, ∃ u ∈ after, measure e ≤ measure u := by
  intro e member
  by_cases gone : e ∈ removed
  · obtain ⟨u, stays, wider⟩ := h.subsumed e gone
    exact ⟨u, stays, rises u e wider⟩
  · exact ⟨e, (h.remaining e).mpr ⟨member, gone⟩, Nat.le_refl _⟩

namespace Store

open HasElements

variable {p : Permutation Station} {s t : Store} {S : List Solution} {i : Instance} {k : Nat}

/-- If any seed may be given, the first one is the first of all solutions by agreement. -/
theorem exists_head?_seeds (filed : Index.Files p s.solutions S) (inside : p.Spans (elements i))
    (limit : 1 ≤ s.settings.seedLimit.value) (positive : 1 ≤ k) :
    ∃ best, (seeds i k).result s = .ok best ∧
      best.head? = (descending (·.agreement i) s.solutions.entries).head? := by
  refine ⟨_, Action.result_of_outcome (outcome_seeds_within filed inside k), ?_⟩
  rw [List.head?_take, if_neg]
  have : 1 ≤ min k s.settings.seedLimit.value := le_min positive limit
  omega

/-- Solutions that come by descending agreement are the seeds as they stand. -/
theorem result_seeds_of_sorted
    (sorted : s.solutions.entries.Pairwise fun a b => b.agreement i ≤ a.agreement i) :
    (seeds i k).result s = (s.solutions.bitSet i).result.map fun _ =>
      s.solutions.entries.take (min k s.settings.seedLimit.value) := by
  rw [Action.result_of_outcome (outcome_seeds_eq i k s), descending_eq_self sorted]

/-- Pruning the solutions of a reachable store leaves an instance within the universe a seed if it
had one, and the best one agrees with it on as many stations as before. -/
theorem bestSeed_of_reachable (h : Reachable p s) (limit : 1 ≤ s.settings.seedLimit.value)
    (inside : p.Spans i.stations.toList) (positive : 1 ≤ k) :
    ∃ removed before after, pruneSolutions.result s = .ok removed ∧
      (seeds i k).result s = .ok before ∧
      (seeds i k).result (pruneSolutions.after s) = .ok after ∧
      (after = [] ↔ before = []) ∧
      after.head?.map (·.agreement i) = before.head?.map (·.agreement i) := by
  obtain ⟨S, filed, _⟩ := h.keeps.solutions
  obtain ⟨removed, solutions, outcome, left, spares⟩ := outcome_pruneSolutions filed
  obtain ⟨before, given, first⟩ := exists_head?_seeds filed inside limit positive
  obtain ⟨after, given', first'⟩ :=
    exists_head?_seeds (s := { s with solutions }) left inside limit positive
  have same : after.head?.map (·.agreement i) = before.head?.map (·.agreement i) := by
    rw [first, first']
    apply map_head?_descending_of_dominated
    · exact fun a stays => ((spares.remaining a).mp stays).1
    · exact spares.dominated fun u a wider => (Solution.subsumes_iff.mp wider).2.agreement_le i
  refine ⟨removed, before, after, Action.result_of_outcome outcome, given, ?_, ?_, same⟩
  · rw [Action.after_of_outcome outcome]
    exact given'
  · rw [← List.head?_eq_none_iff, ← List.head?_eq_none_iff, ← Option.map_eq_none_iff, same,
      Option.map_eq_none_iff]

/-- Of two solutions that agree alike the first in the index is the best seed. It is pruned, and the
one that extends it takes its place. -/
theorem bestSeed_sample :
    let i := Instance.ofStations [1]
    Reachable trio sample ∧ 1 ≤ sample.settings.seedLimit.value ∧ trio.Spans i.stations.toList ∧
    (∃ removed before after, pruneSolutions.result sample = .ok removed ∧
      (seeds i 1).result sample = .ok before ∧
      (seeds i 1).result (pruneSolutions.after sample) = .ok after ∧
      (after = [] ↔ before = []) ∧
      after.head?.map (·.agreement i) = before.head?.map (·.agreement i)) ∧
    (sample.solutions.entries.map fun a => (a.key, a.agreement i)) =
      [("narrow", 1), ("wide", 1)] ∧
    (pruneSolutions.result sample).map (List.map Solution.key) = .ok ["narrow"] ∧
    ((seeds i 1).result sample).map (List.map Solution.key) = .ok ["narrow"] ∧
    ((seeds i 1).result (pruneSolutions.after sample)).map (List.map Solution.key) =
      .ok ["wide"] := by
  intro i
  have limit : 1 ≤ sample.settings.seedLimit.value := by decide +kernel
  have inside : trio.Spans i.stations.toList := by decide
  refine ⟨reachable_sample, limit, inside,
    bestSeed_of_reachable reachable_sample limit inside (Nat.le_refl 1), ?_, ?_, ?_, ?_⟩
  · decide +kernel
  · decide +kernel
  · rw [result_seeds_of_sorted (by decide +kernel)]
    decide +kernel
  · rw [result_seeds_of_sorted (by decide +kernel)]
    decide +kernel

end Store

end Repack
