import Repack.Proofs.Index.Redundancy
import Repack.Proofs.Store.Pruning

/-! Exactly which entries pruning a store removes: those that another one supersedes, whatever the
order of the scan and the number of entries between two reports. Of solutions with one assignment
only the last one added can stay. -/
namespace Repack

namespace Solution

variable {a b : Solution} {l : List Solution}

/-- Whether another solution of a list puts the stations of one on the same channels, and either
has more stations or comes later. -/
def Superseded (l : List Solution) (a : Solution) : Prop :=
  ∃ b ∈ l, b ≠ a ∧ b.Extends a ∧ (a.assignment.size < b.assignment.size ∨ Precedes l a b)

theorem Extends.subperm_keys (wider : b.Extends a) :
    List.Subperm a.assignment.keys b.assignment.keys :=
  List.subperm_of_subset Std.ExtTreeMap.nodup_keys fun _ => wider.mem

/-- Of two solutions of one size neither extends the other alone. -/
theorem Extends.symm_of_size_le (wider : b.Extends a)
    (size : b.assignment.size ≤ a.assignment.size) : a.Extends b := by
  rw [← Std.ExtTreeMap.length_keys, ← Std.ExtTreeMap.length_keys] at size
  have keys := wider.subperm_keys.perm_of_length_le size
  intro s c held
  have known : s ∈ a.assignment.keys := by
    rw [keys.mem_iff, Std.ExtTreeMap.mem_keys, Std.ExtTreeMap.mem_iff_isSome_getElem?, held]
    rfl
  rw [Std.ExtTreeMap.mem_keys, Std.ExtTreeMap.mem_iff_isSome_getElem?,
    Option.isSome_iff_exists] at known
  obtain ⟨d, known⟩ := known
  rw [wider s d known] at held
  exact known.trans held

theorem Extends.size_lt_iff (wider : b.Extends a) :
    a.assignment.size < b.assignment.size ↔ ¬ a.Extends b := by
  constructor
  · intro smaller back
    have larger := back.subperm_keys.length_le
    rw [Std.ExtTreeMap.length_keys, Std.ExtTreeMap.length_keys] at larger
    omega
  · intro oneWay
    by_contra larger
    exact oneWay (wider.symm_of_size_le (Nat.le_of_not_lt larger))

theorem Extends.antisymm (wider : b.Extends a) (back : a.Extends b) :
    b.assignment = a.assignment := by
  apply Std.ExtTreeMap.ext_getElem?
  intro s
  cases held : b.assignment[s]? with
  | some c => exact (back s c held).symm
  | none =>
    cases known : a.assignment[s]? with
    | none => rfl
    | some c =>
      rw [wider s c known] at held
      cases held

theorem superseded_iff : Index.Superseded Solution.subsumes l a ↔ Superseded l a := by
  apply exists_congr
  intro b
  apply and_congr_right
  intro _
  rw [subsumes_iff, and_assoc]
  apply and_congr_right
  intro differs
  apply and_congr_right
  intro wider
  have back : a.subsumes b = false ↔ a.assignment.size < b.assignment.size := by
    rw [wider.size_lt_iff, Bool.eq_false_iff, ne_eq, subsumes_iff]
    simp [differs.symm]
  rw [back]

/-- A solution stays if those that extend it have the same stations and come before it. -/
theorem not_superseded_iff (nodup : l.Nodup) (member : a ∈ l) : ¬ Superseded l a ↔
    (∀ b ∈ l, b.Extends a → b.assignment = a.assignment) ∧
      (l.filter fun b => b.assignment = a.assignment).getLast? = some a := by
  have among (b : Solution) : b ∈ l.filter (fun b => b.assignment = a.assignment) ↔
      b ∈ l ∧ b.assignment = a.assignment := by simp
  rw [getLast?_eq_some_iff_precedes (nodup.filter _)]
  simp only [among, member, true_and]
  constructor
  · intro stays
    constructor
    · intro b known wider
      by_contra differs
      have oneWay : ¬ a.Extends b := fun back => differs (wider.antisymm back)
      have other : b ≠ a := fun same => differs (congrArg Solution.assignment same)
      exact stays ⟨b, known, other, wider, Or.inl (wider.size_lt_iff.mpr oneWay)⟩
    · rintro b ⟨known, same⟩ earlier
      have later := earlier.of_sublist List.filter_sublist
      have other : b ≠ a := by
        rintro rfl
        exact later.asymm nodup later
      exact stays ⟨b, known, other, fun s c held => same ▸ held, Or.inr later⟩
  · rintro ⟨widest, last⟩ ⟨b, known, other, wider, larger | later⟩
    · rw [widest b known wider] at larger
      exact lt_irrefl _ larger
    · have same := widest b known wider
      exact last b ⟨known, same⟩ (later.filter (by simp) (by simpa using same))

end Solution

namespace Store

variable {p : Permutation Station} {s : Store}

/-- A store with another number of entries between two reports of pruning. -/
def withInterval (interval : Nat) (s : Store) : Store :=
  { s with settings.reportInterval.value := interval }

/-- Pruning removes exactly the redundant entries of one kind, and gives them in index order,
whatever the number of entries between two reports. -/
structure PrunesExactly {C : Type} [DecidableEq C] (prune : Action Store (List C))
    (stored : Store → List C) (Redundant : List C → C → Prop) (s : Store) (removed : List C) :
    Prop where
  result : prune.result s = .ok removed
  distinct : (stored s).Nodup
  order : removed.Sublist (stored s)
  mem_iff : ∀ e, e ∈ removed ↔ e ∈ stored s ∧ Redundant (stored s) e
  kept : stored (prune.after s) = (stored s).filter (· ∉ removed)
  again : prune.outcome (prune.after s) = (.ok [], prune.after s)
  interval : ∀ n, prune.outcome (s.withInterval n) =
    (.ok removed, (prune.after s).withInterval n)

section Part

variable {C : Type} [DecidableEq C] [HasElements C Station] {kind : Journal.Kind} {d : Containment}
  {subsumes : C → C → Bool} {l : List C}

/-- Pruning the index of one kind. -/
theorem prunesExactly (prune : Action Store (List C)) (part : Store → Index Station C)
    (put : Index Station C → Store → Store)
    (runs : ∀ s, prune.outcome s = (Action.zoom part put
      (Index.prune kind d subsumes s.settings.reportInterval.value)).outcome s)
    (part_put : ∀ ix s, part (put ix s) = ix) (put_put : ∀ ix s, put ix (put ix s) = put ix s)
    (part_interval : ∀ n s, part (s.withInterval n) = part s)
    (put_interval : ∀ ix n s, put ix (s.withInterval n) = (put ix s).withInterval n)
    (sub : Index.Subsuming d subsumes) (filed : Index.Files p (part s) l) :
    PrunesExactly prune (fun s => (part s).entries) (Index.Superseded subsumes) s
      ((part s).culled subsumes) := by
  obtain ⟨ix, once, again, kept⟩ := filed.outcome_prune_again sub kind
  have outcome : prune.outcome s = (.ok ((part s).culled subsumes), put ix s) := by
    rw [runs, Action.outcome_zoom, once]
  have after := Action.after_of_outcome outcome
  refine ⟨Action.result_of_outcome outcome, filed.nodup_entries, List.filter_sublist,
    fun e => filed.mem_culled_iff sub, ?_, ?_, ?_⟩
  · rw [after, part_put, kept]
  · rw [after, runs, Action.outcome_zoom, part_put, again, put_put]
  · intro n
    rw [after, runs, Action.outcome_zoom, part_interval, once, put_interval]

end Part

/-- What pruning of either kind does to a store over a permutation. -/
structure PruningExact (p : Permutation Station) (s : Store) : Prop where
  solutions : ∃ removed,
    PrunesExactly pruneSolutions (·.solutions.entries) Solution.Superseded s removed
  solutions_frame : ∃ solutions, pruneSolutions.after s = { s with solutions }
  refutations : ∃ removed, PrunesExactly pruneRefutations (·.refutations.entries)
    (Index.Superseded Refutation.subsumes) s removed
  refutations_frame : ∃ refutations, pruneRefutations.after s = { s with refutations }
  made : ∃ calls, s.solutions = (Index.empty p).run calls
  /-- Of the solutions with one assignment only the last that was added stays, and it goes too if a
  solution with more stations extends it. -/
  latest : ∀ calls, s.solutions = (Index.empty p).run calls → ∀ a,
    a ∈ (pruneSolutions.after s).solutions.entries ↔
      (∀ b ∈ Index.listing p calls, b.Extends a → b.assignment = a.assignment) ∧
        ((Index.listing p calls).filter fun b => b.assignment = a.assignment).getLast? = some a

theorem PrunesExactly.latest {removed : List Solution}
    (h : PrunesExactly pruneSolutions (·.solutions.entries) Solution.Superseded s removed)
    {l : List Solution} (filed : Index.Files p s.solutions l) (a : Solution) :
    a ∈ (pruneSolutions.after s).solutions.entries ↔
      (∀ b ∈ l, b.Extends a → b.assignment = a.assignment) ∧
        (l.filter fun b => b.assignment = a.assignment).getLast? = some a := by
  have stays : a ∈ (pruneSolutions.after s).solutions.entries ↔
      a ∈ l ∧ ¬ Solution.Superseded s.solutions.entries a := by
    rw [h.kept, List.mem_filter, decide_eq_true_iff, h.mem_iff, ← filed.mem_entries]
    tauto
  rw [stays]
  by_cases member : a ∈ l
  · have alike := filed.superseded_iff Solution.subsuming member
    rw [Solution.superseded_iff, Solution.superseded_iff] at alike
    rw [alike, ← Solution.not_superseded_iff filed.nodup member, and_iff_right member]
  · constructor
    · exact fun stays => absurd stays.1 member
    · rintro ⟨_, last⟩
      exact absurd (List.mem_of_mem_filter (List.mem_of_getLast? last)) member

theorem prunesExactly_solutions {S : List Solution} (filed : Index.Files p s.solutions S) :
    PrunesExactly pruneSolutions (·.solutions.entries) Solution.Superseded s
      (s.solutions.culled Solution.subsumes) := by
  have superseded : Index.Superseded Solution.subsumes = Solution.Superseded := by
    funext l a
    exact propext Solution.superseded_iff
  rw [← superseded]
  exact prunesExactly pruneSolutions Store.solutions
    (fun solutions s => { s with solutions }) outcome_pruneSolutions_eq (fun _ _ => rfl)
    (fun _ _ => rfl) (fun _ _ => rfl) (fun _ _ _ => rfl) Solution.subsuming filed

theorem prunesExactly_refutations {R : List Refutation} (filed : Index.Files p s.refutations R) :
    PrunesExactly pruneRefutations (·.refutations.entries)
      (Index.Superseded Refutation.subsumes) s (s.refutations.culled Refutation.subsumes) :=
  prunesExactly pruneRefutations Store.refutations
    (fun refutations s => { s with refutations }) outcome_pruneRefutations_eq (fun _ _ => rfl)
    (fun _ _ => rfl) (fun _ _ => rfl) (fun _ _ _ => rfl) Refutation.subsuming filed

/-- Pruning a reachable store never fails, and removes what another entry supersedes. -/
theorem pruningExact_of_reachable (h : Reachable p s) : PruningExact p s := by
  obtain ⟨⟨S, filedS, _⟩, ⟨R, filedR, _⟩⟩ := h.keeps
  have solutions := prunesExactly_solutions filedS
  obtain ⟨_, _, outcomeS, _⟩ := outcome_pruneSolutions filedS
  obtain ⟨_, _, outcomeR, _⟩ := outcome_pruneRefutations filedR
  refine ⟨⟨_, solutions⟩, ⟨_, Action.after_of_outcome outcomeS⟩,
    ⟨_, prunesExactly_refutations filedR⟩, ⟨_, Action.after_of_outcome outcomeR⟩,
    h.made.solutions, ?_⟩
  intro calls made
  exact solutions.latest (made ▸ Index.files_run p calls)

/-- A store with two solutions that put the same stations on the same channels, one that they
extend, and three refutations, two of them alike. -/
def twins : Store :=
  (insertAll [.solution ⟨.ofList [(1, 14), (2, 15)] compare, "first", "test"⟩,
    .solution ⟨.ofList [(1, 14), (2, 15)] compare, "second", "test"⟩,
    .solution ⟨.ofList [(1, 14)] compare, "narrow", "test"⟩,
    .refutation (.ofStations [2, 3] "pair"), .refutation (.ofStations [2] "first"),
    .refutation (.ofStations [2] "second")]).after (empty .standard trio)

/-- Of the twins the first goes. -/
theorem pruningExact_twins : Reachable trio twins ∧ PruningExact trio twins ∧
    pruneSolutions.result twins = .ok [⟨.ofList [(1, 14)] compare, "narrow", "test"⟩,
      ⟨.ofList [(1, 14), (2, 15)] compare, "first", "test"⟩] ∧
    pruneRefutations.result twins =
      .ok [.ofStations [2] "first", .ofStations [2, 3] "pair"] := by
  have reachable : Reachable trio twins := (Reachable.empty .standard).operation (.insertAll _)
  refine ⟨reachable, pruningExact_of_reachable reachable, ?_, ?_⟩
  · decide +kernel
  · decide +kernel

end Store

end Repack
