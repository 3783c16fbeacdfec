import Repack.Proofs.Index.Redundancy
import Repack.Proofs.Store.Recording

/-! Adding or removing one entry changes only the answers that involve it. The index lists the other
entries as before, and what is chosen among more entries is either the new one or what was chosen
without it, whatever the preference. -/
namespace Repack

namespace Index

variable {C : Type} [HasElements C Station] [BEq C] [LawfulBEq C] {p : Permutation Station}
  {ix : Index Station C} {l : List C}

omit [LawfulBEq C] in
theorem Call.onList_insert_cases (p : Permutation Station) (l : List C) (e : C) :
    (Call.insert e).onList p l = l ∨
      l.contains e = false ∧ (Call.insert e).onList p l = l ++ [e] := by
  rw [Call.onList]
  split
  · cases present : l.contains e with
    | true => exact Or.inl rfl
    | false => exact Or.inr ⟨rfl, rfl⟩
  · exact Or.inl rfl

/-- Adding an entry leaves the others as they stand. -/
theorem Files.entries_insert (h : Files p ix l) (e : C) : (Index.insert e).after ix = ix ∨
    ix.entries = ((Index.insert e).after ix).entries.filter (· != e) := by
  obtain ⟨ix', outcome, filed⟩ := h.step (.insert e)
  rw [show (Index.insert e).after ix = ix' from Action.after_of_outcome outcome]
  obtain same | ⟨fresh, longer⟩ := Call.onList_insert_cases p l e
  · rw [same] at filed
    exact Or.inl (filed.unique h)
  · rw [longer] at filed
    have rest : (l ++ [e]).filter (· != e) = l := by
      have apart : l.filter (· != e) = l := by
        rw [List.filter_eq_self]
        rintro a member
        rw [bne_iff_ne]
        rintro rfl
        simp [member] at fresh
      simp [apart]
    right
    apply filed.entries_filter
    rwa [rest]

/-- Removing an entry leaves the others as they stand. -/
theorem Files.entries_erase (h : Files p ix l) (e : C) :
    ((Index.erase e).after ix).entries = ix.entries.filter (· != e) := by
  obtain ⟨ix', outcome, filed⟩ := h.step (.erase e)
  rw [show (Index.erase e).after ix = ix' from Action.after_of_outcome outcome]
  apply h.entries_filter
  have rest : (Call.erase e).onList p l = l.filter (· != e) := by
    rw [Call.onList]
    split
    · exact h.nodup.erase_eq_filter e
    · next outside =>
      symm
      rw [List.filter_eq_self]
      rintro a member
      rw [bne_iff_ne]
      rintro rfl
      exact outside (h.admits a member)
  rwa [rest] at filed

end Index

namespace Store

open HasElements

variable {p : Permutation Station} {s : Store} {V : Entry → Prop} {i : Instance} {e : Entry}

/-- Whether an entry proves an instance satisfiable: it is the solution that is chosen out of all
entries, and the proof is read off it. -/
def ProvesSat (s : Store) (e : Entry) (i : Instance) : Prop :=
  ∃ a, e = .solution a ∧
    s.settings.preference.value.Chooses (·.assignment.size) (fun a => a.solves i = true)
      s.solutions.entries a ∧
    (proveSat i fun _ => false).result s =
      .ok (some ⟨a.assignment.restrict i.stations.toList, a.key⟩)

/-- Whether an entry proves an instance unsatisfiable. -/
def ProvesUnsat (s : Store) (e : Entry) (i : Instance) : Prop :=
  ∃ a, e = .refutation a ∧
    s.settings.preference.value.Chooses (·.stations.size) (fun a => a.refutes i = true)
      s.refutations.entries a ∧
    (proveUnsat i).result s = .ok (some a.key)

/-- Leaving one solution out of a store changes what is proved satisfiable only where the proof is
from this one. -/
theorem proveSat_of_filter (s : Store) {ix ix' : Index Station Solution} {S T : List Solution}
    (filed : Index.Files p ix S) (filed' : Index.Files p ix' T) {a : Solution}
    (others : ix.entries = ix'.entries.filter (· != a)) (i : Instance) :
    (proveSat i fun _ => false).result { s with solutions := ix } =
        (proveSat i fun _ => false).result { s with solutions := ix' } ∨
      ProvesSat { s with solutions := ix' } (.solution a) i := by
  let fewer : Store := { s with solutions := ix }
  let more : Store := { s with solutions := ix' }
  by_cases inside : p.Spans (elements i)
  · have small := result_solutionFor (s := fewer) filed inside fun _ => false
    have large := result_solutionFor (s := more) filed' inside fun _ => false
    rw [show fewer.solutions.entries = _ from others] at small
    obtain selected | same := Preference.select_filter_ne s.settings.preference.value
      (·.assignment.size) ix'.entries (fun a => !false && a.solves i) a
    · rw [selected] at large
      exact Or.inr ⟨a, rfl, Preference.chooses_of_select selected, large⟩
    · rw [same] at small
      exact Or.inl (small.trans large.symm)
  · exact Or.inl ((result_solutionFor_error (s := fewer) filed inside _).trans
      (result_solutionFor_error (s := more) filed' inside _).symm)

theorem proveUnsat_of_filter (s : Store) {ix ix' : Index Station Refutation}
    {R T : List Refutation} (filed : Index.Files p ix R) (filed' : Index.Files p ix' T)
    {a : Refutation} (others : ix.entries = ix'.entries.filter (· != a)) (i : Instance) :
    (proveUnsat i).result { s with refutations := ix } =
        (proveUnsat i).result { s with refutations := ix' } ∨
      ProvesUnsat { s with refutations := ix' } (.refutation a) i := by
  let fewer : Store := { s with refutations := ix }
  let more : Store := { s with refutations := ix' }
  by_cases inside : p.Spans (elements i)
  · have small := result_refutationFor (s := fewer) filed inside
    have large := result_refutationFor (s := more) filed' inside
    rw [show fewer.refutations.entries = _ from others] at small
    obtain selected | same := Preference.select_filter_ne s.settings.preference.value
      (·.stations.size) ix'.entries (fun a => a.refutes i) a
    · rw [selected] at large
      exact Or.inr ⟨a, rfl, Preference.chooses_of_select selected, large⟩
    · rw [same] at small
      exact Or.inl (small.trans large.symm)
  · exact Or.inl ((result_refutationFor_error (s := fewer) filed inside).trans
      (result_refutationFor_error (s := more) filed' inside).symm)

theorem Keeps.proveSat_insert (kept : s.Keeps p V) (e : Entry) (i : Instance) :
    (proveSat i fun _ => false).result ((insert e).after s) =
        (proveSat i fun _ => false).result s ∨
      ((insert e).after s).ProvesSat e i := by
  cases e with
  | solution a =>
    obtain ⟨S, filed, _⟩ := kept.solutions
    obtain ⟨T, filed', _⟩ := Index.preserves_insert (e := a) trivial _ kept.solutions.weaken
    have after : (insert (.solution a)).after s =
        { s with solutions := (Index.insert a).after s.solutions } :=
      Action.after_of_outcome (outcome_insert_solution a s)
    rw [after]
    obtain same | others := filed.entries_insert a
    · exact Or.inl (by rw [same])
    · exact (proveSat_of_filter s filed filed' others i).imp_left Eq.symm
  | refutation a =>
    rw [Action.after_of_outcome (outcome_insert_refutation a s)]
    exact Or.inl rfl

theorem Keeps.proveUnsat_insert (kept : s.Keeps p V) (e : Entry) (i : Instance) :
    (proveUnsat i).result ((insert e).after s) = (proveUnsat i).result s ∨
      ((insert e).after s).ProvesUnsat e i := by
  cases e with
  | solution a =>
    rw [Action.after_of_outcome (outcome_insert_solution a s)]
    exact Or.inl rfl
  | refutation a =>
    obtain ⟨R, filed, _⟩ := kept.refutations
    obtain ⟨T, filed', _⟩ := Index.preserves_insert (e := a) trivial _ kept.refutations.weaken
    have after : (insert (.refutation a)).after s =
        { s with refutations := (Index.insert a).after s.refutations } :=
      Action.after_of_outcome (outcome_insert_refutation a s)
    rw [after]
    obtain same | others := filed.entries_insert a
    · exact Or.inl (by rw [same])
    · exact (proveUnsat_of_filter s filed filed' others i).imp_left Eq.symm

theorem Keeps.proveSat_erase (kept : s.Keeps p V) (e : Entry) (i : Instance) :
    (proveSat i fun _ => false).result ((erase e).after s) =
        (proveSat i fun _ => false).result s ∨ s.ProvesSat e i := by
  cases e with
  | solution a =>
    obtain ⟨S, filed, _⟩ := kept.solutions
    obtain ⟨T, filed', _⟩ := Index.preserves_erase a _ kept.solutions
    have after : (erase (.solution a)).after s =
        { s with solutions := (Index.erase a).after s.solutions } := rfl
    rw [after]
    exact proveSat_of_filter s filed' filed (filed.entries_erase a) i
  | refutation a => exact Or.inl rfl

theorem Keeps.proveUnsat_erase (kept : s.Keeps p V) (e : Entry) (i : Instance) :
    (proveUnsat i).result ((erase e).after s) = (proveUnsat i).result s ∨ s.ProvesUnsat e i := by
  cases e with
  | solution a => exact Or.inl rfl
  | refutation a =>
    obtain ⟨R, filed, _⟩ := kept.refutations
    obtain ⟨T, filed', _⟩ := Index.preserves_erase a _ kept.refutations
    have after : (erase (.refutation a)).after s =
        { s with refutations := (Index.erase a).after s.refutations } := rfl
    rw [after]
    exact proveUnsat_of_filter s filed' filed (filed.entries_erase a) i

/-- What has an answer is asked within the universe. -/
theorem Keeps.spans_of_proveSat (kept : s.Keeps p V) {answer : Option SatProof}
    (answered : (proveSat i fun _ => false).result s = .ok answer) : p.Spans (elements i) := by
  obtain ⟨S, filed, _⟩ := kept.solutions
  by_contra outside
  cases answered.symm.trans (result_solutionFor_error filed outside fun _ => false)

theorem Keeps.spans_of_proveUnsat (kept : s.Keeps p V) {answer : Option String}
    (answered : (proveUnsat i).result s = .ok answer) : p.Spans (elements i) := by
  obtain ⟨R, filed, _⟩ := kept.refutations
  by_contra outside
  cases answered.symm.trans (result_refutationFor_error filed outside)

/-- An assignment that is restricted already stays as it is. -/
theorem restrict_restrict (a : Assignment) (stations : Std.ExtTreeSet Station) :
    (a.restrict stations.toList).restrict stations.toList = a.restrict stations.toList := by
  apply Std.ExtTreeMap.ext_getElem?
  intro st
  rw [Assignment.getElem?_restrict_toList]
  split
  · rfl
  · next missing => rw [Assignment.getElem?_restrict_toList, if_neg missing]

theorem Keeps.proveSat_record (kept : s.Keeps p V) {r : Finding} {key : String} {a : Assignment}
    (unproven : (proveSat i fun _ => false).result s = .ok none) (report : r.report = .satisfiable)
    (offered : r.assignment = some a)
    (admitted : ∀ st ∈ i.stations, ∀ c, a[st]? = some c → i.admits st c = true)
    (recorded : (record i r key).result s = .ok e) :
    (proveSat i fun _ => false).result ((record i r key).after s) =
      .ok (some ⟨a.restrict i.stations.toList, key⟩) := by
  obtain ⟨made, new, added⟩ := record_cases recorded
  have decides : r.Decides i i := by
    simp only [Finding.Decides, report]
    refine ⟨fun _ member => member, a, offered, ?_⟩
    intro st member
    have known : st ∈ a := by
      cases entryOf_eq_iff.mp made with
      | solution _ offered' covered _ =>
        cases offered.symm.trans offered'
        exact covered st member
      | refutation report' => cases report.symm.trans report'
    rw [Std.ExtTreeMap.mem_iff_isSome_getElem?, Option.isSome_iff_exists] at known
    obtain ⟨c, held⟩ := known
    exact ⟨c, held, admitted st member c held⟩
  have decided := decided_of_record kept recorded decides
  rw [report] at decided
  obtain ⟨proof, found⟩ :=
    solutionFor_of_offers decided.solutions (kept.spans_of_proveSat unproven)
  replace found : (proveSat i fun _ => false).result ((record i r key).after s) =
    .ok (some proof) := found
  rw [← Action.after_of_outcome added] at found ⊢
  obtain ⟨b, _, offered', rfl⟩ | ⟨report', _⟩ := entryOf_cases made
  · cases offered.symm.trans offered'
    obtain same | ⟨b, new, _, proven⟩ := kept.proveSat_insert _ i
    · rw [same, unproven] at found
      cases found
    · cases new
      rw [proven, restrict_restrict]
  · cases report.symm.trans report'

theorem Keeps.proveUnsat_record (kept : s.Keeps p V) {r : Finding} {key : String}
    (unproven : (proveUnsat i).result s = .ok none) (report : r.report = .unsatisfiable)
    (recorded : (record i r key).result s = .ok e) :
    (proveUnsat i).result ((record i r key).after s) = .ok (some key) := by
  obtain ⟨made, new, added⟩ := record_cases recorded
  have decides : r.Decides i i := by
    simp only [Finding.Decides, report]
    exact ⟨fun _ member => member, fun st _ d held => ⟨d, held, fun _ member => member⟩⟩
  have decided := decided_of_record kept recorded decides
  rw [report] at decided
  obtain ⟨key', found⟩ :=
    refutationFor_of_offers decided.refutations (kept.spans_of_proveUnsat unproven)
  replace found : (proveUnsat i).result ((record i r key).after s) = .ok (some key') := found
  rw [← Action.after_of_outcome added] at found ⊢
  obtain ⟨_, report', _⟩ | ⟨_, rfl⟩ := entryOf_cases made
  · cases report.symm.trans report'
  · obtain same | ⟨b, new, _, proven⟩ := kept.proveUnsat_insert _ i
    · rw [same, unproven] at found
      cases found
    · cases new
      exact proven

/-- One entry that is added or removed changes the proof of an instance only if this proof is, or
was, from it; and a result that is recorded for want of a proof is the proof from then on. -/
structure Local (s : Store) : Prop where
  sat_insert : ∀ e i, (proveSat i fun _ => false).result ((insert e).after s) =
      (proveSat i fun _ => false).result s ∨ ((insert e).after s).ProvesSat e i
  unsat_insert : ∀ e i, (proveUnsat i).result ((insert e).after s) = (proveUnsat i).result s ∨
    ((insert e).after s).ProvesUnsat e i
  sat_erase : ∀ e i, (proveSat i fun _ => false).result ((erase e).after s) =
      (proveSat i fun _ => false).result s ∨ s.ProvesSat e i
  unsat_erase : ∀ e i, (proveUnsat i).result ((erase e).after s) = (proveUnsat i).result s ∨
    s.ProvesUnsat e i
  sat_record : ∀ i r key e a, (proveSat i fun _ => false).result s = .ok none →
    r.report = .satisfiable → r.assignment = some a →
    (∀ st ∈ i.stations, ∀ c, a[st]? = some c → i.admits st c = true) →
    (record i r key).result s = .ok e →
      (proveSat i fun _ => false).result ((record i r key).after s) =
        .ok (some ⟨a.restrict i.stations.toList, key⟩)
  unsat_record : ∀ i r key e, (proveUnsat i).result s = .ok none → r.report = .unsatisfiable →
    (record i r key).result s = .ok e →
      (proveUnsat i).result ((record i r key).after s) = .ok (some key)

/-- Proofs are found in a reachable store one entry at a time, under either preference. -/
theorem local_of_reachable (h : Reachable p s) : s.Local where
  sat_insert := h.keeps.proveSat_insert
  unsat_insert := h.keeps.proveUnsat_insert
  sat_erase := h.keeps.proveSat_erase
  unsat_erase := h.keeps.proveUnsat_erase
  sat_record := fun _ _ _ _ _ => h.keeps.proveSat_record
  unsat_record := fun _ _ _ _ => h.keeps.proveUnsat_record

/-- A smaller solution takes the place of the one that was chosen, and gives it back. -/
theorem local_sample :
    let lone : Entry := .solution ⟨.ofList [(1, 16)] compare, "lone", "test"⟩
    let found (s : Store) := (proveSat (.ofStations [1]) fun _ => false).result s
    Reachable trio sample ∧ sample.Local ∧
    found sample = .ok (some ⟨.ofList [(1, 14)] compare, "narrow"⟩) ∧
    found ((insert lone).after sample) = .ok (some ⟨.ofList [(1, 16)] compare, "lone"⟩) ∧
    found ((erase lone).after ((insert lone).after sample)) = found sample := by
  refine ⟨reachable_sample, local_of_reachable reachable_sample, ?_, ?_, ?_⟩
  · decide +kernel
  · decide +kernel
  · decide +kernel

end Store

end Repack
