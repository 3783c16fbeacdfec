import Repack.Proofs.Store.Redundancy
import Repack.Proofs.Subsumption

/-! Which solutions of a store are needed. A solution is redundant exactly when the instance that
admits its own channels only is proved without it. After pruning no solution is: each one that is
left decides an instance that no other one does. -/
namespace Repack

namespace Solution

variable {a b : Solution}

/-- The instance with the stations of a solution, each restricted to its channel, by a name or
without one. -/
def posed (name : Option String) (a : Solution) : Instance := { a.pinned with name }

theorem solves_posed_iff (name : Option String) : a.solves (b.posed name) = true ↔ a.Extends b :=
  solves_pinned_iff

theorem solves_posed (name : Option String) (a : Solution) : a.solves (a.posed name) = true :=
  (solves_posed_iff name).mpr fun _ _ held => held

/-- The stations of the instance are those of the solution. -/
theorem restrict_posed (name : Option String) (a : Solution) :
    a.assignment.restrict (a.posed name).stations.toList = a.assignment := by
  apply Std.ExtTreeMap.ext_getElem?
  intro s
  rw [Assignment.getElem?_restrict_toList]
  split
  · rfl
  · next missing =>
    rw [Std.ExtTreeMap.getElem?_eq_none (mt mem_stations_pinned.mpr missing)]

end Solution

namespace Store

open HasElements

variable {p : Permutation Station} {s : Store} {S : List Solution} {a e : Solution}

/-- What a stored solution decides is within the universe. -/
theorem spans_posed (filed : Index.Files p s.solutions S) (member : e ∈ s.solutions.entries)
    (name : Option String) : p.Spans (elements (e.posed name)) := by
  intro st inside
  have known : st ∈ e.assignment :=
    Solution.mem_stations_pinned.mp (Std.ExtTreeSet.mem_toList.mp inside)
  exact filed.admits e (filed.mem_entries.mp member) st (Std.ExtTreeMap.mem_keys.mpr known)

/-- Leaving a stored solution out leaves a proof of its own instance if another one subsumes it. -/
theorem isSome_excluding_iff (filed : Index.Files p s.solutions S)
    (member : e ∈ s.solutions.entries) (name : Option String) : ∃ answer,
      (s.solutionFor (e.posed name) fun a => a = e).result = .ok answer ∧
        (answer.isSome = true ↔ ∃ a ∈ s.solutions.entries, a.subsumes e = true) := by
  refine ⟨_, result_solutionFor filed (spans_posed filed member name) _, ?_⟩
  rw [Option.isSome_map, Preference.isSome_select_filter_iff]
  simp only [Bool.and_eq_true, Bool.not_eq_true', decide_eq_false_iff_not,
    Solution.solves_posed_iff, Solution.subsumes_iff, ne_eq]

/-- A solution that no other one subsumes is the only one that solves its own instance. -/
theorem solves_posed_iff_eq {l : List Solution}
    (unsubsumed : ∀ a ∈ l, a.subsumes e = false) (known : a ∈ l) (name : Option String) :
    a.solves (e.posed name) = true ↔ a = e := by
  constructor
  · intro solved
    by_contra differs
    have wider := Solution.subsumes_iff.mpr ⟨differs, (Solution.solves_posed_iff name).mp solved⟩
    rw [unsubsumed a known] at wider
    cases wider
  · rintro rfl
    exact a.solves_posed name

/-- The proof of an instance that one solution alone solves is from this solution. -/
theorem result_solutionFor_alone (filed : Index.Files p s.solutions S)
    (member : e ∈ s.solutions.entries) (name : Option String)
    (alone : ∀ a ∈ s.solutions.entries, a.solves (e.posed name) = true → a = e) :
    (s.solutionFor (e.posed name) fun _ => false).result =
      .ok (some ⟨e.assignment, e.key⟩) := by
  rw [result_solutionFor filed (spans_posed filed member name)]
  generalize found : Preference.select _ _ _ = chosen
  cases chosen with
  | none =>
    have present : ∃ a ∈ s.solutions.entries, (!false && a.solves (e.posed name)) = true :=
      ⟨e, member, e.solves_posed name⟩
    rw [← Preference.isSome_select_filter_iff, found] at present
    cases present
  | some a =>
    obtain ⟨known, solved⟩ := (Preference.chooses_of_select found).mem
    obtain rfl := alone a known (by simpa using solved)
    rw [Option.map_some, Solution.restrict_posed]

theorem files_pruned (filed : Index.Files p s.solutions S) :
    Index.Files p (pruneSolutions.after s).solutions
      (S.filter (· ∉ s.solutions.culled Solution.subsumes)) := by
  obtain ⟨ix, outcome, left⟩ := filed.outcome_prune_culled Solution.subsuming .sat
    s.settings.reportInterval.value
  have ended := outcome_pruneSolutions_eq s
  rw [onSolutions, Action.outcome_zoom, outcome] at ended
  rw [Action.after_of_outcome ended]
  exact left

/-- The solutions of a store are told apart by what is proved without one of them: before it is
pruned those that another one subsumes, and afterwards all that are left. -/
structure Discerning (s : Store) : Prop where
  excluding : ∀ e ∈ s.solutions.entries, ∀ name, ∃ answer,
    (proveSat (e.posed name) fun a => a = e).result s = .ok answer ∧
      (answer.isSome = true ↔ ∃ a ∈ s.solutions.entries, a.subsumes e = true)
  unproven : ∀ e ∈ (pruneSolutions.after s).solutions.entries, ∀ name,
    (proveSat (e.posed name) fun a => a = e).result (pruneSolutions.after s) = .ok none
  proven : ∀ e ∈ (pruneSolutions.after s).solutions.entries, ∀ name,
    (proveSat (e.posed name) fun _ => false).result (pruneSolutions.after s) =
      .ok (some ⟨e.assignment, e.key⟩)
  alone : ∀ e ∈ (pruneSolutions.after s).solutions.entries, ∀ name,
    ∀ a ∈ (pruneSolutions.after s).solutions.entries,
      a.solves (e.posed name) = true ↔ a = e

/-- In a reachable store a solution is redundant if its own instance is proved without it, and
after pruning each one decides an instance that no other one does. -/
theorem discerning_of_reachable (h : Reachable p s) : s.Discerning := by
  obtain ⟨S, filed, _⟩ := h.keeps.solutions
  have left := files_pruned filed
  have unsubsumed {e : Solution} (member : e ∈ (pruneSolutions.after s).solutions.entries) :
      ∀ a ∈ (pruneSolutions.after s).solutions.entries, a.subsumes e = false :=
    fun a other => filed.subsumes_eq_false_of_pruned Solution.subsuming left member other
  constructor
  · exact fun e member name => isSome_excluding_iff filed member name
  · intro e member name
    obtain ⟨answer, found, proven_iff⟩ := isSome_excluding_iff left member name
    have none : answer = none := by
      rw [← Option.not_isSome_iff_eq_none, proven_iff]
      rintro ⟨a, other, wider⟩
      rw [unsubsumed member a other] at wider
      cases wider
    exact found.trans (congrArg Except.ok none)
  · intro e member name
    exact result_solutionFor_alone left member name fun a other =>
      (solves_posed_iff_eq (unsubsumed member) other name).mp
  · exact fun e member name a other => solves_posed_iff_eq (unsubsumed member) other name

/-- The first of the twins is proved by the second, and only the second is left. -/
theorem discerning_twins : Reachable trio twins ∧ twins.Discerning ∧
    (pruneSolutions.after twins).solutions.entries.map Solution.key = ["second"] := by
  have reachable : Reachable trio twins := (Reachable.empty .standard).operation (.insertAll _)
  refine ⟨reachable, discerning_of_reachable reachable, ?_⟩
  decide +kernel

end Store

end Repack
