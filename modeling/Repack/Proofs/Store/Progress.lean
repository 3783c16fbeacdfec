import Repack.Proofs.Index.Progress
import Repack.Proofs.Store.Redundancy

/-! What pruning a store records on its way. At each multiple of the interval it tells how many of
the entries scanned so far will be removed, though the rest is still to be judged, and at its end how
many have been. -/
namespace Repack.Store

open Journal (Event Filter)

/-- The lines that a pruning leaves for a reader of informative events: one for each multiple of the
interval before the number of entries, ascending, and a last one. -/
structure ReportsProgress {C : Type} [DecidableEq C] (kind : Journal.Kind)
    (prune : Action Store (List C)) (stored : Store → List C) (interval : Nat) (s : Store)
    (removed : List C) : Prop where
  result : prune.result s = .ok removed
  kept : stored (prune.after s) = (stored s).filter (· ∉ removed)
  events : (prune.events s).filter Filter.informative.wants =
    ((List.range (stored s).length).filter fun j => 0 < j ∧ max interval 1 ∣ j).map (fun j =>
      .scanned j (stored s).length (((stored s).take j).countP (· ∈ removed))) ++
      [.pruned kind removed.length]
  lines : ((prune.events s).filter Filter.informative.wants).map Event.text =
    ((List.range (stored s).length).filter fun j => 0 < j ∧ max interval 1 ∣ j).map (fun j =>
      "Scanned " ++ toString j ++ " of " ++ toString (stored s).length ++ " entries, " ++
        toString (((stored s).take j).countP (· ∈ removed)) ++ " redundant") ++
      ["Pruned " ++ toString removed.length ++ " " ++ kind.name ++ " entries"]

variable {p : Permutation Station} {s : Store}

theorem events_pruneSolutions (s : Store) : pruneSolutions.events s =
    (Index.prune .sat .supersets Solution.subsumes
      s.settings.reportInterval.value).events s.solutions := by
  rw [pruneSolutions, Action.events_bind_ok (Action.outcome_get s), onSolutions, Action.events_zoom]
  rfl

theorem events_pruneRefutations (s : Store) : pruneRefutations.events s =
    (Index.prune .unsat .subsets Refutation.subsumes
      s.settings.reportInterval.value).events s.refutations := by
  rw [pruneRefutations, Action.events_bind_ok (Action.outcome_get s), onRefutations,
    Action.events_zoom]
  rfl

theorem PrunesExactly.reportsProgress {C : Type} [DecidableEq C] {kind : Journal.Kind}
    {prune : Action Store (List C)} {stored : Store → List C} {Redundant : List C → C → Prop}
    {interval : Nat} {removed : List C} (h : PrunesExactly prune stored Redundant s removed)
    (events : (prune.events s).filter Filter.informative.wants =
      Index.reports interval (stored s) removed ++ [.pruned kind removed.length]) :
    ReportsProgress kind prune stored interval s removed := by
  refine ⟨h.result, h.kept, events, ?_⟩
  rw [events, List.map_append, Index.reports, List.map_map]
  rfl

/-- Pruning a reachable store reports its progress accurately, however often it does. -/
theorem reportsProgress_of_reachable (h : Reachable p s) :
    (∃ removed, ∀ interval, ReportsProgress .sat pruneSolutions (·.solutions.entries) interval
      (s.withInterval interval) removed) ∧
    ∃ removed, ∀ interval, ReportsProgress .unsat pruneRefutations (·.refutations.entries) interval
      (s.withInterval interval) removed := by
  obtain ⟨⟨S, filedS, _⟩, ⟨R, filedR, _⟩⟩ := h.keeps
  constructor
  · refine ⟨s.solutions.culled Solution.subsumes, fun interval => ?_⟩
    have pruned := prunesExactly_solutions (s := s.withInterval interval) filedS
    refine pruned.reportsProgress ?_
    rw [events_pruneSolutions]
    exact filedS.events_prune Solution.subsuming .sat interval
  · refine ⟨s.refutations.culled Refutation.subsumes, fun interval => ?_⟩
    have pruned := prunesExactly_refutations (s := s.withInterval interval) filedR
    refine pruned.reportsProgress ?_
    rw [events_pruneRefutations]
    exact filedR.events_prune Refutation.subsuming .unsat interval

/-- Of the twins two go, and both are counted before the last entry is judged. -/
theorem reportsProgress_twins : Reachable trio twins ∧
    (∃ removed, ∀ interval, ReportsProgress .sat pruneSolutions (·.solutions.entries) interval
      (twins.withInterval interval) removed) ∧
    (pruneSolutions.events (twins.withInterval 0)).filter Filter.informative.wants =
      [.scanned 1 3 1, .scanned 2 3 2, .pruned .sat 2] ∧
    (pruneRefutations.events (twins.withInterval 2)).filter Filter.informative.wants =
      [.scanned 2 3 1, .pruned .unsat 2] := by
  have reachable : Reachable trio twins := (Reachable.empty .standard).operation (.insertAll _)
  refine ⟨reachable, (reportsProgress_of_reachable reachable).1, ?_, ?_⟩
  · decide +kernel
  · decide +kernel

end Repack.Store
