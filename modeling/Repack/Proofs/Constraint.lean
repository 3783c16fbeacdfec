import Repack.Proofs.Store.Recording

/-! What stored entries are worth. A constraint tells which assignments are sound, and stations may
be left out of a sound assignment. Then an entry that is right about its own stations is right about
every instance it decides. -/
namespace Repack

/-- A condition on assignments that leaving stations out cannot break. -/
structure Constraint where
  Holds : Assignment → Prop
  restrict : ∀ (a : Assignment) (stations : List Station), Holds a → Holds (a.restrict stations)

/-- Whether an assignment puts exactly the stations of an instance on admitted channels. -/
structure Assignment.Answers (a : Assignment) (i : Instance) : Prop where
  stations : ∀ s, s ∈ a ↔ s ∈ i.stations
  admitted : ∀ (s : Station) (c : Channel), a[s]? = some c → i.admits s c = true

namespace Constraint

variable (K : Constraint)

/-- Whether a sound assignment answers an instance. -/
def Feasible (i : Instance) : Prop := ∃ a, K.Holds a ∧ a.Answers i

/-- Whether an entry is right about its own stations. -/
def Valid : Entry → Prop
  | .solution a => K.Holds a.assignment
  | .refutation a => ¬ K.Feasible ⟨a.stations, a.domains, none⟩

/-- Whether what a solver found of an instance is right: the assignment it offers is sound and
admitted on the stations of the instance, or there is no such assignment. -/
def Sound (i : Instance) (r : Finding) : Prop :=
  match r.report with
  | .satisfiable => ∃ a, r.assignment = some a ∧ K.Holds (a.restrict i.stations.toList) ∧
    ∀ (s : Station) (c : Channel),
      (a.restrict i.stations.toList)[s]? = some c → i.admits s c = true
  | .unsatisfiable => ¬ K.Feasible i
  | .timeout | .unknown => True

variable {K} {i : Instance}

/-- The time spent does not matter. -/
theorem sound_of_delayed {r later : Finding} {elapsed : Duration} (sound : K.Sound i r)
    (added : r.delayed elapsed = .ok later) : K.Sound i later := by
  obtain ⟨runtime, rfl⟩ := Finding.eq_of_delayed added
  exact sound

/-- The name of an instance does not matter. -/
theorem feasible_of_unnamed (feasible : K.Feasible ⟨i.stations, i.domains, none⟩) :
    K.Feasible i := by
  obtain ⟨a, holds, stations, admitted⟩ := feasible
  exact ⟨a, holds, stations, admitted⟩

/-- A solution that is valid answers the instances that it solves. -/
theorem answers_of_solves {a : Solution} (valid : K.Valid (.solution a))
    (solved : a.solves i = true) {w : Assignment}
    (read : w = a.assignment.restrict i.stations.toList) : K.Holds w ∧ w.Answers i := by
  subst read
  refine ⟨K.restrict _ _ valid, ?_, ?_⟩
  · exact Assignment.mem_restrict_toList (Solution.mem_of_solves solved)
  · intro s c held
    rw [Assignment.getElem?_restrict_toList] at held
    split at held
    · next member =>
      obtain ⟨d, held', admitted⟩ := Solution.solves_iff.mp solved s member
      rw [held, Option.some.injEq] at held'
      exact held' ▸ admitted
    · cases held

/-- An assignment for an instance can be cut down to the stations of a refutation, so a refutation
that is valid is right about the instances that it refutes. -/
theorem infeasible_of_refutes {a : Refutation} (valid : K.Valid (.refutation a))
    (refuted : a.refutes i = true) : ¬ K.Feasible i := by
  rintro ⟨w, holds, stations, admitted⟩
  obtain ⟨within, covered⟩ := Refutation.refutes_iff.mp refuted
  refine valid ⟨w.restrict a.stations.toList, K.restrict _ _ holds, ?_, ?_⟩
  · exact Assignment.mem_restrict_toList fun s member => (stations s).mpr (within s member)
  · intro s c held
    rw [Assignment.getElem?_restrict_toList] at held
    split at held
    · next member =>
      refine (Instance.admits_iff _).mpr ⟨member, ?_⟩
      intro d domain
      obtain ⟨e, inner, sub⟩ := Domain.covers_iff.mp (covered s member) d domain
      exact sub c (((Instance.admits_iff i).mp (admitted s c held)).2 e inner)
    · cases held

/-- What is recorded of a sound result is valid. -/
theorem valid_of_entryOf {r : Finding} (sound : K.Sound i r) {key : String} {e : Entry}
    (made : (Store.entryOf i r key).result = .ok e) : K.Valid e := by
  rw [Sound] at sound
  obtain ⟨a, report, offered, rfl⟩ | ⟨report, rfl⟩ := Store.entryOf_cases made
  · simp only [report] at sound
    obtain ⟨b, offered', holds, _⟩ := sound
    cases offered.symm.trans offered'
    exact holds
  · simp only [report] at sound
    exact fun feasible => sound (feasible_of_unnamed feasible)

/-- Whether an answer is right: the assignment is sound and answers the instance, or there is no
such assignment. -/
def Proves (K : Constraint) (i : Instance) (r : Finding) : Prop :=
  match r.report with
  | .satisfiable => ∃ a, r.assignment = some a ∧ K.Holds a ∧ a.Answers i
  | .unsatisfiable => ¬ K.Feasible i
  | .timeout | .unknown => True

section Stored

variable {p : Permutation Station} {s : Store}

theorem answers_of_solutionFor (kept : s.Keeps p K.Valid) {ignore : Solution → Bool}
    {proof : SatProof} (found : (s.solutionFor i ignore).result = .ok (some proof)) :
    K.Holds proof.assignment ∧ proof.assignment.Answers i := by
  obtain ⟨S, filed, valid⟩ := kept.solutions
  by_cases inside : p.Spans (elements i)
  · rw [Store.result_solutionFor filed inside, Except.ok.injEq] at found
    obtain ⟨a, selected, rfl⟩ := Option.map_eq_some_iff.mp found
    obtain ⟨member, solved⟩ := (Preference.chooses_of_select selected).mem
    rw [Bool.and_eq_true] at solved
    exact answers_of_solves (valid a (filed.mem_entries.mp member)) solved.2 rfl
  · rw [Store.result_solutionFor_error filed inside] at found
    cases found

theorem infeasible_of_refutationFor (kept : s.Keeps p K.Valid) {key : String}
    (found : (s.refutationFor i).result = .ok (some key)) : ¬ K.Feasible i := by
  obtain ⟨R, filed, valid⟩ := kept.refutations
  by_cases inside : p.Spans (elements i)
  · rw [Store.result_refutationFor filed inside, Except.ok.injEq] at found
    obtain ⟨a, selected, rfl⟩ := Option.map_eq_some_iff.mp found
    obtain ⟨member, refuted⟩ := (Preference.chooses_of_select selected).mem
    exact infeasible_of_refutes (valid a (filed.mem_entries.mp member)) refuted
  · rw [Store.result_refutationFor_error filed inside] at found
    cases found

def Supports (K : Constraint) (i : Instance) : Verdict → Prop
  | .satisfiable a _ => K.Holds a ∧ a.Answers i
  | .unsatisfiable _ => ¬ K.Feasible i
  | .unknown => True

theorem supports_lookup (kept : s.Keeps p K.Valid) {v : Verdict}
    (found : (Store.lookup i).result s = .ok v) : K.Supports i v := by
  have answer := Store.result_lookup_eq_ok_iff.mp found
  cases v with
  | satisfiable a key => exact answers_of_solutionFor kept answer
  | unsatisfiable key => exact infeasible_of_refutationFor kept answer.2
  | unknown => trivial

theorem proves_of_consult (kept : s.Keeps p K.Valid) {r : Finding} {elapsed : Duration}
    (answered : (Client.consult s i elapsed).value = some r) : K.Proves i r := by
  rw [Client.value_consult] at answered
  cases found : (Store.lookup i).result s with
  | error fault => rw [found] at answered; cases answered
  | ok v =>
    rw [found] at answered
    have right := supports_lookup kept found
    cases v with
    | satisfiable a key => cases answered; exact ⟨a, rfl, right⟩
    | unsatisfiable key => cases answered; exact right
    | unknown => cases answered

end Stored

end Constraint

end Repack
