import Repack.Proofs.Index.Redundancy
import Repack.Proofs.Store.Search

/-! The seeds of an instance. They are the stored solutions that agree with it most, however many
are asked for. A solution agrees with an instance on all stations exactly if it solves it, so the
solutions that a query finds come first, as the query lists them. -/
namespace Repack

namespace Solution

/-- Agreement counts the stations of an instance that are on a channel it admits. -/
theorem agreement_eq_countP (a : Solution) (i : Instance) : a.agreement i =
    i.stations.toList.countP fun st => a.assignment[st]?.any fun c => i.admits st c := by
  have pairs : a.agreement i =
      ((a.assignment.toList.filter fun pair => i.admits pair.1 pair.2).map Prod.fst).length := by
    rw [List.length_map, ← List.countP_eq_length_filter]
    rfl
  rw [pairs, List.countP_eq_length_filter]
  apply List.Perm.length_eq
  apply (List.perm_ext_iff_of_nodup _ _).mpr
  · intro st
    simp only [List.mem_map, List.mem_filter, Prod.exists, exists_and_right, exists_eq_right,
      Std.ExtTreeMap.mem_toList_iff_getElem?_eq_some, Std.ExtTreeSet.mem_toList, Option.any_eq_true]
    constructor
    · rintro ⟨c, held, admitted⟩
      exact ⟨((i.admits_iff).mp admitted).1, c, held, admitted⟩
    · rintro ⟨_, c, held, admitted⟩
      exact ⟨c, held, admitted⟩
  · have keys : (a.assignment.toList.map Prod.fst).Nodup := by
      rw [Std.ExtTreeMap.map_fst_toList_eq_keys]
      exact Std.ExtTreeMap.nodup_keys
    exact keys.sublist (List.filter_sublist.map Prod.fst)
  · exact (Permutation.nodup_toList i.stations).filter _

theorem agreement_le_size (a : Solution) (i : Instance) : a.agreement i ≤ i.size := by
  rw [agreement_eq_countP, Instance.size, ← Std.ExtTreeSet.length_toList]
  exact List.countP_le_length

/-- A solution that agrees on every station solves the instance. -/
theorem agreement_eq_size_iff (a : Solution) (i : Instance) :
    a.agreement i = i.size ↔ a.solves i = true := by
  rw [agreement_eq_countP, Instance.size, ← Std.ExtTreeSet.length_toList, List.countP_eq_length,
    solves, all_set_eq, List.all_eq_true]

end Solution

namespace Store

open HasElements

variable {p : Permutation Station} {s : Store} {S : List Solution} {i : Instance} {k : Nat}

/-- The solutions that solve an instance are found around it. -/
theorem filter_supersets (filed : Index.Files p s.solutions S) (inside : p.Spans (elements i)) :
    ∃ found, (s.solutions.supersets i).result = .ok found ∧
      found.filter (·.solves i) = s.solutions.entries.filter (·.solves i) := by
  refine ⟨_, filed.result_find .supersets inside, ?_⟩
  rw [List.filter_filter]
  apply List.filter_congr
  intro a _
  cases solved : a.solves i with
  | false => rfl
  | true => simp [Solution.relates_of_solves solved]

/-- By agreement, the solutions that solve an instance come first, as they stand. -/
theorem descending_agreement (l : List Solution) (i : Instance) :
    ∃ rest, descending (·.agreement i) l = l.filter (·.solves i) ++ rest ∧
      ∀ a ∈ rest, a.solves i = false := by
  have full : (fun a : Solution => decide (a.agreement i = i.size)) = (·.solves i) := by
    funext a
    simp [Solution.agreement_eq_size_iff]
  have split := descending_eq_append fun (a : Solution) (_ : a ∈ l) => a.agreement_le_size i
  rw [full] at split
  refine ⟨_, split, ?_⟩
  intro a member
  have short := (List.mem_filter.mp member).2
  simpa [Solution.agreement_eq_size_iff] using short

theorem outcome_seeds_within (filed : Index.Files p s.solutions S) (inside : p.Spans (elements i))
    (k : Nat) : (seeds i k).outcome s = (.ok ((descending (·.agreement i) s.solutions.entries).take
      (min k s.settings.seedLimit.value)), s) := by
  rw [outcome_seeds filed, if_pos inside]

theorem exists_proveSat_iff (filed : Index.Files p s.solutions S) (inside : p.Spans (elements i)) :
    (∃ proof, (proveSat i fun _ => false).result s = .ok (some proof)) ↔
      ∃ a ∈ s.solutions.entries, a.solves i = true :=
  (exists_solutionFor_iff filed).trans (and_iff_right inside)

/-- The seeds begin with what solves the instance, and no other seed does. -/
theorem result_seeds_append (filed : Index.Files p s.solutions S) (inside : p.Spans (elements i))
    (k : Nat) : ∃ left, (∀ a ∈ left, a.solves i = false) ∧ (seeds i k).result s =
      .ok ((s.solutions.entries.filter (·.solves i)).take (min k s.settings.seedLimit.value) ++
        left) := by
  obtain ⟨rest, ranked, unfit⟩ := descending_agreement s.solutions.entries i
  have outcome := outcome_seeds_within filed inside k
  rw [ranked, List.take_append] at outcome
  refine ⟨_, ?_, Action.result_of_outcome outcome⟩
  exact fun a member => unfit a (List.mem_of_mem_take member)

/-- The seeds of an instance, for any number of them that is asked for: the best of all stored
solutions by agreement, with fewer of them at the start of more. -/
structure Ranks (s : Store) (i : Instance) : Prop where
  agreement : ∀ a : Solution, a.agreement i =
    i.stations.toList.countP fun st => a.assignment[st]?.any fun c => i.admits st c
  best : ∀ k, ∃ best, (seeds i k).outcome s = (.ok best, s) ∧
    Best (·.agreement i) (min k s.settings.seedLimit.value) s.solutions.entries best
  initial : ∀ k n, k ≤ n → ∃ fewer more, (seeds i k).result s = .ok fewer ∧
    (seeds i n).result s = .ok more ∧ fewer <+: more

/-- The seeds that a reachable store gives for an instance within its universe are ranked by
agreement, and cut by both limits. -/
theorem ranks_of_reachable (h : Reachable p s) (inside : p.Spans i.stations.toList) :
    s.Ranks i := by
  obtain ⟨S, filed, _⟩ := h.keeps.solutions
  constructor
  · exact fun a => a.agreement_eq_countP i
  · intro k
    exact ⟨_, outcome_seeds_within filed inside k, best_take_descending filed.nodup_entries _⟩
  · intro k n le
    refine ⟨_, _, Action.result_of_outcome (outcome_seeds_within filed inside k),
      Action.result_of_outcome (outcome_seeds_within filed inside n), ?_⟩
    exact List.take_prefix_take_left (min_le_min_right _ le)

/-- The second solution agrees on both stations, and the first one on one of them: the seeds are
not in the order of the index. -/
theorem ranks_sample :
    let i := (Instance.ofStations [1]).restrict 3 {16, 20}
    Reachable trio sample ∧ trio.Spans i.stations.toList ∧ sample.Ranks i ∧
    (sample.solutions.entries.map fun a => (a.key, a.agreement i)) =
      [("narrow", 1), ("wide", 2)] := by
  intro i
  have inside : trio.Spans i.stations.toList := by decide
  refine ⟨reachable_sample, inside, ranks_of_reachable reachable_sample inside, ?_⟩
  decide +kernel

/-- The seeds of an instance begin with the solutions that a query finds and that solve it, in the
order of the query and up to the limits, and no other seed solves it. So if any seed may be given,
the first one tells whether there is a proof. -/
structure Leads (s : Store) (i : Instance) : Prop where
  begins : ∀ k, ∃ found rest, (s.solutions.supersets i).result = .ok found ∧
    (seeds i k).result s =
      .ok ((found.filter (·.solves i)).take (min k s.settings.seedLimit.value) ++ rest) ∧
    ∀ a ∈ rest, a.solves i = false
  first : ∀ k, 1 ≤ k → 1 ≤ s.settings.seedLimit.value → ∃ best, (seeds i k).result s = .ok best ∧
    ((∃ a ∈ best.head?, a.solves i = true) ↔
      ∃ proof, (proveSat i fun _ => false).result s = .ok (some proof))

/-- The first of some entries, followed by others that will not do, does if there is one. -/
theorem exists_head?_take_append {α : Type} {does : α → Bool} {l rest : List α} {n : Nat}
    (fit : ∀ a ∈ l, does a = true) (unfit : ∀ a ∈ rest, does a = false) (positive : 1 ≤ n) :
    (∃ a ∈ (l.take n ++ rest).head?, does a = true) ↔ l ≠ [] := by
  obtain ⟨n, rfl⟩ := Nat.exists_eq_add_of_le' positive
  cases l with
  | nil =>
    cases rest with
    | nil => simp
    | cons b rest => simp [unfit b List.mem_cons_self]
  | cons a l => simp [fit a List.mem_cons_self]

/-- A solution agrees with an instance on all its stations exactly if it solves it; so the ranking
of all solutions of a reachable store and the query of its index single out the same ones, for
every instance within the universe. -/
theorem leads_of_reachable :
    (∀ (a : Solution) (i : Instance),
      a.agreement i ≤ i.size ∧ (a.agreement i = i.size ↔ a.solves i = true)) ∧
    ∀ (p : Permutation Station) (s : Store), Reachable p s →
      ∀ i : Instance, p.Spans i.stations.toList → s.Leads i := by
  constructor
  · exact fun a i => ⟨a.agreement_le_size i, a.agreement_eq_size_iff i⟩
  · intro p s h i inside
    obtain ⟨S, filed, _⟩ := h.keeps.solutions
    constructor
    · intro k
      obtain ⟨found, queried, solving⟩ := filter_supersets filed inside
      obtain ⟨left, unfit, result⟩ := result_seeds_append filed inside k
      exact ⟨found, left, queried, by rw [solving, result], unfit⟩
    · intro k positive limit
      obtain ⟨left, unfit, result⟩ := result_seeds_append filed inside k
      refine ⟨_, result, ?_⟩
      rw [exists_head?_take_append (fun a member => (List.mem_filter.mp member).2) unfit
        (le_min positive limit), exists_proveSat_iff filed inside, ne_eq, List.filter_eq_nil_iff]
      simp

/-- One solution solves the instance, and one agrees on a station only. -/
theorem leads_sample :
    let i := (Instance.ofStations [1]).restrict 3 {16, 20}
    Reachable trio sample ∧ trio.Spans i.stations.toList ∧ sample.Leads i ∧
    (sample.solutions.supersets i).result.map (List.map Solution.key) = .ok ["wide"] ∧
    (sample.solutions.entries.map fun a => (a.solves i, a.agreement i)) =
      [(false, 1), (true, 2)] := by
  intro i
  have inside : trio.Spans i.stations.toList := by decide
  refine ⟨reachable_sample, inside, leads_of_reachable.2 trio sample reachable_sample i inside,
    ?_, ?_⟩
  · decide +kernel
  · decide +kernel

end Store

end Repack
