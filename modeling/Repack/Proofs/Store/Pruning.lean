import Repack.Proofs.Store.Search

/-! Pruning a store. Each entry that goes is subsumed by one that stays, so the same instances are
proved satisfiable, or refuted, before and after. -/
namespace Repack.Store

variable {p : Permutation Station} {s : Store} {S : List Solution} {R : List Refutation}

/-- The report of a lookup, from whether there is a proof of either kind. -/
def reported (sat unsat : Except Fault Bool) : Except Fault (Option Report) := do
  if ← sat then return some .satisfiable
  if ← unsat then return some .unsatisfiable
  return none

theorem report_lookup (s : Store) (i : Instance) :
    ((lookup i).result s).map Verdict.report =
      reported ((s.solutionFor i fun _ => false).result.map Option.isSome)
        ((s.refutationFor i).result.map Option.isSome) := by
  rw [result_lookup]
  cases (s.solutionFor i fun _ => false).result with
  | error fault => rfl
  | ok answer =>
    cases answer with
    | some proof => rfl
    | none =>
      cases (s.refutationFor i).result with
      | error fault => rfl
      | ok answer => cases answer <;> rfl

theorem outcome_pruneSolutions_eq (s : Store) : pruneSolutions.outcome s =
    (onSolutions (Index.prune .sat .supersets Solution.subsumes
      s.settings.reportInterval.value)).outcome s := by
  rw [pruneSolutions, Action.outcome_bind_ok (Action.outcome_get s)]

theorem outcome_pruneRefutations_eq (s : Store) : pruneRefutations.outcome s =
    (onRefutations (Index.prune .unsat .subsets Refutation.subsumes
      s.settings.reportInterval.value)).outcome s := by
  rw [pruneRefutations, Action.outcome_bind_ok (Action.outcome_get s)]

theorem outcome_pruneSolutions (filed : Index.Files p s.solutions S) :
    ∃ removed solutions, pruneSolutions.outcome s = (.ok removed, { s with solutions }) ∧
      Index.Files p solutions (S.filter (· ∉ removed)) ∧
      Index.Spares Solution.subsumes s.solutions.entries solutions.entries removed := by
  obtain ⟨removed, solutions, outcome, pruned⟩ :=
    filed.outcome_prune Solution.subsuming .sat s.settings.reportInterval.value
  refine ⟨removed, solutions, ?_, pruned⟩
  rw [outcome_pruneSolutions_eq, onSolutions, Action.outcome_zoom, outcome]

theorem outcome_pruneRefutations (filed : Index.Files p s.refutations R) :
    ∃ removed refutations, pruneRefutations.outcome s = (.ok removed, { s with refutations }) ∧
      Index.Files p refutations (R.filter (· ∉ removed)) ∧
      Index.Spares Refutation.subsumes s.refutations.entries refutations.entries removed := by
  obtain ⟨removed, refutations, outcome, pruned⟩ :=
    filed.outcome_prune Refutation.subsuming .unsat s.settings.reportInterval.value
  refine ⟨removed, refutations, ?_, pruned⟩
  rw [outcome_pruneRefutations_eq, onRefutations, Action.outcome_zoom, outcome]

theorem satisfiable_of_spares {before after removed : List Solution}
    (h : Index.Spares Solution.subsumes before after removed) (i : Instance) :
    Exhaustive.satisfiable after i = Exhaustive.satisfiable before i := by
  rw [Bool.eq_iff_iff, Exhaustive.satisfiable_eq_true_iff, Exhaustive.satisfiable_eq_true_iff]
  exact h.exists_iff fun wider solved => (Solution.subsumes_iff.mp wider).2.solves solved

theorem refutable_of_spares {before after removed : List Refutation}
    (h : Index.Spares Refutation.subsumes before after removed) (i : Instance) :
    Exhaustive.refutable after i = Exhaustive.refutable before i := by
  rw [Bool.eq_iff_iff, Exhaustive.refutable_eq_true_iff, Exhaustive.refutable_eq_true_iff]
  exact h.exists_iff fun wider refuted => Refutation.refutes_of_subsumes wider refuted

/-- A call that prunes a store. -/
inductive Pruning
  | solutions
  | refutations
  deriving DecidableEq, Repr

def Pruning.after : Pruning → Store → Store
  | solutions => pruneSolutions.after
  | refutations => pruneRefutations.after

def pruned (s : Store) (prunings : List Pruning) : Store :=
  prunings.foldl (fun s pruning => pruning.after s) s

/-- Two stores that prove the same instances, and fail on the same ones. -/
structure ProvesAlike (s t : Store) : Prop where
  sat : ∀ i, ((proveSat i fun _ => false).result t).map Option.isSome =
    ((proveSat i fun _ => false).result s).map Option.isSome
  unsat : ∀ i, ((proveUnsat i).result t).map Option.isSome =
    ((proveUnsat i).result s).map Option.isSome

theorem ProvesAlike.trans {t u : Store} (first : ProvesAlike s t) (second : ProvesAlike t u) :
    ProvesAlike s u := by
  constructor
  · exact fun i => (second.sat i).trans (first.sat i)
  · exact fun i => (second.unsat i).trans (first.unsat i)

theorem ProvesAlike.report {t : Store} (h : ProvesAlike s t) (i : Instance) :
    ((lookup i).result t).map Verdict.report = ((lookup i).result s).map Verdict.report := by
  rw [report_lookup, report_lookup]
  exact congrArg₂ reported (h.sat i) (h.unsat i)

theorem Keeps.provesAlike {V : Entry → Prop} (h : s.Keeps p V) (pruning : Pruning) :
    ProvesAlike s (pruning.after s) := by
  obtain ⟨⟨S, filedS, _⟩, ⟨R, filedR, _⟩⟩ := h
  cases pruning with
  | solutions =>
    obtain ⟨removed, solutions, outcome, filed, spares⟩ := outcome_pruneSolutions filedS
    rw [Pruning.after, Action.after_of_outcome outcome]
    constructor
    · intro i
      refine (proven_solutionFor (s := { s with solutions }) filed i).trans ?_
      rw [satisfiable_of_spares spares, ← proven_solutionFor filedS]
      rfl
    · exact fun i => rfl
  | refutations =>
    obtain ⟨removed, refutations, outcome, filed, spares⟩ := outcome_pruneRefutations filedR
    rw [Pruning.after, Action.after_of_outcome outcome]
    constructor
    · exact fun i => rfl
    · intro i
      refine (proven_refutationFor (s := { s with refutations }) filed i).trans ?_
      rw [refutable_of_spares spares, ← proven_refutationFor filedR]
      rfl

theorem Keeps.after {V : Entry → Prop} (h : s.Keeps p V) (pruning : Pruning) :
    (pruning.after s).Keeps p V := by
  cases pruning with
  | solutions => exact preserves_pruneSolutions s h
  | refutations => exact preserves_pruneRefutations s h

theorem Keeps.provesAlike_pruned {V : Entry → Prop} (h : s.Keeps p V) (prunings : List Pruning) :
    ProvesAlike s (s.pruned prunings) := by
  induction prunings generalizing s with
  | nil => exact ⟨fun i => rfl, fun i => rfl⟩
  | cons pruning rest ih => exact (h.provesAlike pruning).trans (ih (h.after pruning))

/-- What pruning leaves as it is, and what it removes. -/
structure KeepsProofs (s : Store) : Prop where
  sat : ∀ i, ((proveSat i fun _ => false).result (pruneSolutions.after s)).map Option.isSome =
    ((proveSat i fun _ => false).result s).map Option.isSome
  unsat : ∀ i, ((proveUnsat i).result (pruneRefutations.after s)).map Option.isSome =
    ((proveUnsat i).result s).map Option.isSome
  report : ∀ prunings i, ((lookup i).result (s.pruned prunings)).map Verdict.report =
    ((lookup i).result s).map Verdict.report
  solutions : ∃ removed, pruneSolutions.result s = .ok removed ∧
    Index.Spares Solution.subsumes s.solutions.entries
      (pruneSolutions.after s).solutions.entries removed
  refutations : ∃ removed, pruneRefutations.result s = .ok removed ∧
    Index.Spares Refutation.subsumes s.refutations.entries
      (pruneRefutations.after s).refutations.entries removed

/-- Pruning a reachable store loses no proof, under either preference: what goes is subsumed by
what stays. -/
theorem keepsProofs_of_reachable (h : Reachable p s) : KeepsProofs s := by
  have kept := h.keeps
  obtain ⟨⟨S, filedS, _⟩, ⟨R, filedR, _⟩⟩ := h.keeps
  refine ⟨(kept.provesAlike .solutions).sat, (kept.provesAlike .refutations).unsat, ?_, ?_, ?_⟩
  · exact fun prunings i => (kept.provesAlike_pruned prunings).report i
  · obtain ⟨removed, solutions, outcome, _, spares⟩ := outcome_pruneSolutions filedS
    refine ⟨removed, Action.result_of_outcome outcome, ?_⟩
    rw [Action.after_of_outcome outcome]
    exact spares
  · obtain ⟨removed, refutations, outcome, _, spares⟩ := outcome_pruneRefutations filedR
    refine ⟨removed, Action.result_of_outcome outcome, ?_⟩
    rw [Action.after_of_outcome outcome]
    exact spares

/-- Of the two solutions of the sample only the one that the other extends goes. -/
theorem keepsProofs_sample : Reachable trio sample ∧ KeepsProofs sample ∧
    pruneSolutions.result sample =
      .ok [⟨.ofList [(1, 14), (2, 15)] compare, "narrow", "test"⟩] := by
  refine ⟨reachable_sample, keepsProofs_of_reachable reachable_sample, ?_⟩
  decide +kernel

end Repack.Store
