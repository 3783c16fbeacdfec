import Repack.Proofs.Index.Rearrangement
import Repack.Proofs.Store.Pruning

/-! Stores over two permutations of one universe, with preferences of their own, that hold the same
entries. Which entry is found first may differ, and which of several is preferred; what is decided
does not. -/
namespace Repack

open Repack.Action (Agrees)

namespace Exhaustive

theorem satisfiable_of_perm {l m : List Solution} (perm : l.Perm m) (i : Instance) :
    satisfiable l i = satisfiable m i := by
  rw [Bool.eq_iff_iff, satisfiable_eq_true_iff, satisfiable_eq_true_iff]
  simp only [perm.mem_iff]

theorem refutable_of_perm {l m : List Refutation} (perm : l.Perm m) (i : Instance) :
    refutable l i = refutable m i := by
  rw [Bool.eq_iff_iff, refutable_eq_true_iff, refutable_eq_true_iff]
  simp only [perm.mem_iff]

end Exhaustive

namespace Store

variable {p q : Permutation Station} {s t : Store} {α γ : Type} {see : α → γ}

/-- Two stores that hold the same entries, have issued as many keys, and have the same settings but
for their preferences. -/
structure Alike (p q : Permutation Station) (s t : Store) : Prop where
  solutions : s.solutions.Alike p q t.solutions
  refutations : s.refutations.Alike p q t.refutations
  issued : s.issued = t.issued
  settings : t.settings = { s.settings with preference := t.settings.preference }

theorem alike_empty (p q : Permutation Station) (settings : Settings) (preference : Preference) :
    Alike p q (empty settings p) (empty { settings with preference.value := preference } q) :=
  ⟨Index.alike_empty p q, Index.alike_empty p q, rfl, rfl⟩

theorem agrees_onSolutions {x : Action (Index Station Solution) α}
    (inner : Agrees (Index.Alike p q) see x) : Agrees (Alike p q) see (onSolutions x) :=
  Action.agrees_zoom inner (fun _ _ h => h.solutions)
    fun _ _ _ _ h part => ⟨part, h.refutations, h.issued, h.settings⟩

theorem agrees_onRefutations {x : Action (Index Station Refutation) α}
    (inner : Agrees (Index.Alike p q) see x) : Agrees (Alike p q) see (onRefutations x) :=
  Action.agrees_zoom inner (fun _ _ h => h.refutations)
    fun _ _ _ _ h part => ⟨h.solutions, part, h.issued, h.settings⟩

theorem agrees_issueKey (stem : String) : Agrees (Alike p q) id (issueKey stem) := by
  intro s t h
  have issued (s : Store) : (issueKey stem).outcome s =
      (.ok (stem ++ "#" ++ toString s.issued.toNat), { s with issued := s.issued + 1 }) := rfl
  rw [Action.result_of_outcome (issued s), Action.result_of_outcome (issued t),
    Action.after_of_outcome (issued s), Action.after_of_outcome (issued t), h.issued]
  exact ⟨rfl, h.solutions, h.refutations, rfl, h.settings⟩

section Entries

variable (same : p.elements.Perm q.elements)
include same

theorem agrees_insert (e : Entry) : Agrees (Alike p q) id (insert e) := by
  cases e with
  | solution a =>
    exact (Action.agrees_log _).bind fun _ =>
      agrees_onSolutions ((Index.agrees_call same (.insert a)).withLock .write)
  | refutation a =>
    exact (Action.agrees_log _).bind fun _ =>
      agrees_onRefutations ((Index.agrees_call same (.insert a)).withLock .write)

theorem agrees_erase (e : Entry) : Agrees (Alike p q) id (erase e) := by
  cases e with
  | solution a =>
    exact agrees_onSolutions ((Index.agrees_call same (.erase a)).withLock .write)
  | refutation a =>
    exact agrees_onRefutations ((Index.agrees_call same (.erase a)).withLock .write)

theorem agrees_contains (e : Entry) : Agrees (Alike p q) id (contains e) := by
  cases e with
  | solution a =>
    refine agrees_onSolutions (Agrees.withLock (Action.agrees_query ?_) .read)
    exact fun ix ix' h => congrArg _ (h.contains same a)
  | refutation a =>
    refine agrees_onRefutations (Agrees.withLock (Action.agrees_query ?_) .read)
    exact fun ix ix' h => congrArg _ (h.contains same a)

theorem agrees_record (i : Instance) (r : Finding) (key : String) :
    Agrees (Alike p q) id (record i r key) := by
  refine (Action.agrees_query fun _ _ _ => rfl).bind fun e => ?_
  exact (agrees_insert same e).bind fun _ => Action.agrees_pure e

theorem agrees_find {C : Type} [HasElements C Station] [BEq C] (d : Containment)
    (query : List Station) :
    Agrees (Index.Alike (C := C) p q) Multiset.ofList (Index.Shared.find d query) :=
  Agrees.withLock (Action.agrees_query fun _ _ h => h.find same d query) .read

theorem agrees_count {C : Type} [HasElements C Station] [BEq C] (d : Containment)
    (query : List Station) : Agrees (Index.Alike (C := C) p q) id (Index.Shared.count d query) :=
  Agrees.withLock (Action.agrees_query fun _ _ h => congrArg _ (h.count same d query)) .read

end Entries

theorem agrees_size {C : Type} [HasElements C Station] [BEq C] :
    Agrees (Index.Alike (C := C) p q) id Index.Shared.size :=
  fun _ _ h => ⟨congrArg Except.ok h.size_eq, h⟩

theorem agrees_total {C : Type} [HasElements C Station] [BEq C] :
    Agrees (Index.Alike (C := C) p q) id Index.Shared.total :=
  fun _ _ h => ⟨congrArg Except.ok h.total_eq, h⟩

theorem agrees_pruneSolutions : Agrees (Alike p q) Multiset.ofList pruneSolutions := by
  intro s t h
  have interval : t.settings.reportInterval.value = s.settings.reportInterval.value := by
    rw [h.settings]
  have outcome := outcome_pruneSolutions_eq t
  rw [interval] at outcome
  obtain ⟨same, left⟩ := agrees_onSolutions (Index.agrees_prune Solution.subsuming .sat _) s t h
  rw [Action.result_of_outcome (outcome_pruneSolutions_eq s), Action.result_of_outcome outcome,
    Action.after_of_outcome (outcome_pruneSolutions_eq s), Action.after_of_outcome outcome]
  exact ⟨same, left⟩

theorem agrees_pruneRefutations : Agrees (Alike p q) Multiset.ofList pruneRefutations := by
  intro s t h
  have interval : t.settings.reportInterval.value = s.settings.reportInterval.value := by
    rw [h.settings]
  have outcome := outcome_pruneRefutations_eq t
  rw [interval] at outcome
  obtain ⟨same, left⟩ :=
    agrees_onRefutations (Index.agrees_prune Refutation.subsuming .unsat _) s t h
  rw [Action.result_of_outcome (outcome_pruneRefutations_eq s), Action.result_of_outcome outcome,
    Action.after_of_outcome (outcome_pruneRefutations_eq s), Action.after_of_outcome outcome]
  exact ⟨same, left⟩

theorem agrees_lookup (same : p.elements.Perm q.elements) (i : Instance) :
    Agrees (Alike p q) Verdict.report (lookup i) := by
  intro s t h
  refine ⟨?_, h⟩
  have solvable := Exhaustive.satisfiable_of_perm h.solutions.perm_entries i
  have refuted := Exhaustive.refutable_of_perm h.refutations.perm_entries i
  obtain ⟨S, filedS, filedS'⟩ := h.solutions
  obtain ⟨R, filedR, filedR'⟩ := h.refutations
  rw [report_lookup, report_lookup, proven_solutionFor filedS, proven_solutionFor filedS',
    proven_refutationFor filedR, proven_refutationFor filedR', solvable, refuted]
  simp only [Permutation.spans_iff_of_perm same]

theorem agrees_seeds (same : p.elements.Perm q.elements) (i : Instance) (k : Nat) :
    Agrees (Alike p q) (List.map (·.agreement i)) (seeds i k) := by
  intro s t h
  have limit : t.settings.seedLimit.value = s.settings.seedLimit.value := by rw [h.settings]
  obtain ⟨S, filed, filed'⟩ := h.solutions
  rw [Action.result_of_outcome (outcome_seeds filed i k),
    Action.result_of_outcome (outcome_seeds filed' i k),
    Action.after_of_outcome (outcome_seeds filed i k),
    Action.after_of_outcome (outcome_seeds filed' i k), limit]
  refine ⟨?_, h⟩
  by_cases inside : p.Spans (elements i)
  · rw [if_pos inside, if_pos ((Permutation.spans_iff_of_perm same _).mp inside)]
    exact congrArg Except.ok (map_take_descending_of_perm _ h.solutions.perm_entries _)
  · rw [if_neg inside, if_neg (mt (Permutation.spans_iff_of_perm same _).mpr inside)]

end Store

end Repack
