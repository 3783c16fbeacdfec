import Repack.Proofs.Store.Search
import Repack.Store.Record

/-! What a record leaves in a store. The entry it makes decides all instances that the recorded
result decides, and what decides an instance is only ever replaced, by pruning, by what decides that
instance too. -/
namespace Repack

open Repack.Action (Preserves)

namespace Index

variable {C : Type} [HasElements C Station] [BEq C] {p : Permutation Station}
  {d : Containment} {subsumes : C → C → Bool} {A D : C → Prop} {ix : Index Station C}

/-- A property of indices that adding an entry cannot break, nor pruning. -/
structure Lasting (d : Containment) (subsumes : C → C → Bool) (A : Index Station C → Prop) :
    Prop where
  insert : ∀ e, Preserves A (Index.insert e)
  prune : ∀ kind interval, Preserves A (Index.prune kind d subsumes interval)

/-- An index over a permutation files an entry with a property. -/
def Offers (p : Permutation Station) (D : C → Prop) (ix : Index Station C) : Prop :=
  ∃ l, Files p ix l ∧ ∃ e ∈ l, D e

variable [LawfulBEq C]

theorem lasting_keeps : Lasting d subsumes (Keeps p fun _ : C => True) where
  insert := fun _ => preserves_insert trivial
  prune := fun kind interval => preserves_prune preserves_erase kind d subsumes interval

omit [LawfulBEq C] in
theorem Offers.exists_mem_entries (h : ix.Offers p D) : ∃ e ∈ ix.entries, D e := by
  obtain ⟨l, filed, e, member, does⟩ := h
  exact ⟨e, filed.mem_entries.mpr member, does⟩

omit [LawfulBEq C] in
theorem mem_onList_insert {l : List C} {e a : C} (member : a ∈ l) :
    a ∈ (Call.insert e).onList p l := by
  unfold Call.onList
  split
  · dsimp only
    split
    · exact member
    · exact List.mem_append_left _ member
  · exact member

/-- Whoever has the property is removed for one that has it too. -/
theorem lasting_offers (sub : Subsuming d subsumes)
    (inherited : ∀ {u e : C}, subsumes u e = true → D e → D u) :
    Lasting d subsumes (Offers p D) where
  insert := by
    rintro e ix ⟨l, filed, a, member, does⟩
    obtain ⟨ix', outcome, filed'⟩ := filed.step (.insert e)
    rw [show (Index.insert e).after ix = ix' from Action.after_of_outcome outcome]
    exact ⟨_, filed', a, mem_onList_insert member, does⟩
  prune := by
    rintro kind interval ix ⟨l, filed, a, member, does⟩
    obtain ⟨removed, ix', outcome, filed', spares⟩ := filed.outcome_prune sub kind interval
    obtain ⟨u, left, does'⟩ :=
      (spares.exists_iff inherited).mpr ⟨a, filed.mem_entries.mpr member, does⟩
    rw [Action.after_of_outcome outcome]
    exact ⟨_, filed', u, filed'.mem_entries.mp left, does'⟩

omit [LawfulBEq C] in
theorem Keeps.weaken {V : C → Prop} (kept : ix.Keeps p V) : ix.Keeps p fun _ => True := by
  obtain ⟨l, filed, _⟩ := kept
  exact ⟨l, filed, fun _ _ => trivial⟩

/-- An entry that was taken is filed. -/
theorem offers_of_insert {V : C → Prop} (kept : ix.Keeps p V) {e : C} (does : D e) {new : Bool}
    (taken : (Index.insert e).result ix = .ok new) : ((Index.insert e).after ix).Offers p D := by
  obtain ⟨l, filed, _⟩ := kept
  obtain ⟨ix', outcome, filed'⟩ := filed.step (.insert e)
  have answered : (Index.insert e).result ix = (Call.insert e).answer p l :=
    Action.result_of_outcome outcome
  rw [show (Index.insert e).after ix = ix' from Action.after_of_outcome outcome]
  refine ⟨_, filed', e, ?_, does⟩
  unfold Call.onList
  split
  · dsimp only
    split
    · next present => simpa using present
    · simp
  · next outside =>
    rw [answered, Call.answer, if_neg outside] at taken
    cases taken

end Index

/-- Whether a result for one instance decides another: it assigns channels that the other admits,
or it refutes stations and domains that the other narrows. -/
def Finding.Decides (r : Finding) (i j : Instance) : Prop :=
  match r.report with
  | .satisfiable => (∀ s ∈ j.stations, s ∈ i.stations) ∧ ∃ a, r.assignment = some a ∧
    ∀ s ∈ j.stations, ∃ c, a[s]? = some c ∧ j.admits s c = true
  | .unsatisfiable => (∀ s ∈ i.stations, s ∈ j.stations) ∧
    ∀ s ∈ i.stations, ∀ d, i.domains[s]? = some d →
      ∃ e, j.domains[s]? = some e ∧ ∀ c ∈ e, c ∈ d
  | .timeout | .unknown => False

/-- What a result makes when it is recorded for an instance: a fault if it decides nothing, or is
satisfiable without a channel for each station, and then the least station is named; or else the
entry over the stations of the instance. -/
inductive Finding.Makes (r : Finding) (i : Instance) (key : String) : Except Fault Entry → Prop
  | inconclusive (report : r.report = .timeout ∨ r.report = .unknown) :
    Makes r i key (.error (.inconclusive r.report))
  | missingAssignment (report : r.report = .satisfiable) (offered : r.assignment = none) :
    Makes r i key (.error .missingAssignment)
  | incompleteAssignment {a : Assignment} {st : Station} (report : r.report = .satisfiable)
    (offered : r.assignment = some a) (member : st ∈ i.stations) (missing : st ∉ a)
    (least : ∀ t ∈ i.stations, t < st → t ∈ a) :
    Makes r i key (.error (.incompleteAssignment st))
  | solution {a w : Assignment} (report : r.report = .satisfiable)
    (offered : r.assignment = some a) (covered : ∀ st ∈ i.stations, st ∈ a)
    (restricted : ∀ st, w[st]? = if st ∈ i.stations then a[st]? else none) :
    Makes r i key (.ok (.solution ⟨w, key, r.solver⟩))
  | refutation (report : r.report = .unsatisfiable) :
    Makes r i key (.ok (.refutation ⟨i.stations, i.domains, key⟩))

namespace Store

variable {p : Permutation Station} {s : Store} {i j : Instance} {r : Finding} {key : String}
  {e : Entry}

/-- The channel of one station, refused if it has none. -/
def seat (a : Assignment) (st : Station) : Attempt (Station × Channel) :=
  match a[st]? with
  | some c => pure (st, c)
  | none => do
    Attempt.log (.missingChannel st)
    throw (.incompleteAssignment st)

theorem seat_of_mem {a : Assignment} {st : Station} (known : st ∈ a) :
    ∃ c, a[st]? = some c ∧ (seat a st).result = .ok (st, c) := by
  rw [Std.ExtTreeMap.mem_iff_isSome_getElem?, Option.isSome_iff_exists] at known
  obtain ⟨c, held⟩ := known
  exact ⟨c, held, by rw [seat, held]; rfl⟩

theorem seat_of_notMem {a : Assignment} {st : Station} (missing : st ∉ a) :
    (seat a st).result = .error (.incompleteAssignment st) := by
  rw [seat, Std.ExtTreeMap.getElem?_eq_none missing]
  rfl

/-- An assignment that leaves out stations of an instance is refused with the least of them. -/
theorem witness_cases (i : Instance) (a : Assignment) :
    ((∀ st ∈ i.stations, st ∈ a) ∧ (witness i a).result = .ok (a.restrict i.stations.toList)) ∨
      ∃ st ∈ i.stations, st ∉ a ∧ (∀ t ∈ i.stations, t < st → t ∈ a) ∧
        (witness i a).result = .error (.incompleteAssignment st) := by
  have steps : (witness i a).result =
      (i.stations.toList.mapM (seat a)).result.bind fun pairs => .ok (.ofList pairs compare) := by
    rw [witness, Attempt.result_bind]
    rfl
  have known {st : Station} {pair : Station × Channel} (seated : (seat a st).result = .ok pair) :
      st ∈ a := by
    by_contra missing
    cases seated.symm.trans (seat_of_notMem missing)
  rw [steps]
  cases mapped : (i.stations.toList.mapM (seat a)).result with
  | ok pairs =>
    left
    constructor
    · intro st member
      obtain ⟨pair, seated⟩ :=
        Attempt.exists_ok_of_mapM mapped st (Std.ExtTreeSet.mem_toList.mpr member)
      exact known seated
    · have listed : pairs = i.stations.toList.filterMap fun st => a[st]?.map fun c => (st, c) := by
        refine Attempt.eq_filterMap_of_result_mapM ?_ mapped
        intro st pair seated
        obtain ⟨c, held, seated'⟩ := seat_of_mem (known seated)
        cases seated.symm.trans seated'
        simp [held]
      rw [listed]
      rfl
  | error fault =>
    right
    obtain ⟨before, st, after, split, each, failed⟩ := Attempt.exists_split_of_mapM_error mapped
    have missing : st ∉ a := by
      intro held
      obtain ⟨c, _, seated⟩ := seat_of_mem held
      cases failed.symm.trans seated
    cases failed.symm.trans (seat_of_notMem missing)
    have ascending : i.stations.toList.Pairwise (· < ·) :=
      i.stations.ordered_toList.imp Std.compare_eq_lt.mp
    rw [split] at ascending
    have listed (t : Station) : t ∈ i.stations ↔ t ∈ before ++ st :: after := by
      rw [← split, Std.ExtTreeSet.mem_toList]
    refine ⟨st, (listed st).mpr (by simp), missing, ?_, rfl⟩
    intro t member less
    rcases List.mem_append.mp ((listed t).mp member) with earlier | later
    · obtain ⟨pair, seated⟩ := each t earlier
      exact known seated
    · exfalso
      rcases List.mem_cons.mp later with rfl | later
      · exact absurd less (by simp)
      · have greater : st < t :=
          List.rel_of_pairwise_cons (List.pairwise_append.mp ascending).2.1 later
        exact absurd less (by simpa using Std.le_of_lt greater)

theorem makes_entryOf (i : Instance) (r : Finding) (key : String) :
    r.Makes i key (entryOf i r key).result := by
  rw [entryOf]
  cases report : r.report with
  | satisfiable =>
    cases offered : r.assignment with
    | none => exact .missingAssignment report offered
    | some a =>
      obtain ⟨covered, made⟩ | ⟨st, member, missing, least, refused⟩ := witness_cases i a
      · rw [Attempt.result_bind, made]
        exact .solution report offered covered Assignment.getElem?_restrict_toList
      · rw [Attempt.result_bind, refused]
        exact .incompleteAssignment report offered member missing least
  | unsatisfiable => exact .refutation report
  | timeout =>
    have makes : r.Makes i key _ := .inconclusive (Or.inl report)
    rwa [report] at makes
  | unknown =>
    have makes : r.Makes i key _ := .inconclusive (Or.inr report)
    rwa [report] at makes

theorem result_entryOf {answer : Except Fault Entry} (makes : r.Makes i key answer) :
    (entryOf i r key).result = answer := by
  rw [entryOf]
  cases makes with
  | inconclusive report =>
    rcases report with report | report
    · simp only [report]
      rfl
    · simp only [report]
      rfl
  | missingAssignment report offered =>
    simp only [report, offered]
    rfl
  | @incompleteAssignment a st report offered member missing least =>
    simp only [report, offered, Attempt.result_bind]
    obtain ⟨covered, _⟩ | ⟨t, member', missing', least', refused⟩ := witness_cases i a
    · exact absurd (covered st member) missing
    · have same : t = st := by
        by_contra differs
        rcases UInt32.lt_or_lt_of_ne differs with less | greater
        · exact missing' (least t member' less)
        · exact missing (least' st member greater)
      rw [refused, same]
      rfl
  | @solution a w report offered covered restricted =>
    simp only [report, offered, Attempt.result_bind]
    obtain ⟨_, made⟩ | ⟨st, member, missing, _⟩ := witness_cases i a
    · rw [made, Assignment.eq_restrict_toList restricted]
      rfl
    · exact absurd (covered st member) missing
  | refutation report =>
    simp only [report]
    rfl

/-- A result makes what it is said to make, and nothing else. -/
theorem entryOf_eq_iff {answer : Except Fault Entry} :
    (entryOf i r key).result = answer ↔ r.Makes i key answer :=
  ⟨fun made => made ▸ makes_entryOf i r key, result_entryOf⟩

theorem entryOf_cases (made : (entryOf i r key).result = .ok e) :
    (∃ a, r.report = .satisfiable ∧ r.assignment = some a ∧
      e = .solution ⟨a.restrict i.stations.toList, key, r.solver⟩) ∨
    (r.report = .unsatisfiable ∧ e = .refutation (.ofInstance i key)) := by
  cases entryOf_eq_iff.mp made with
  | solution report offered covered restricted =>
    exact Or.inl ⟨_, report, offered, by rw [Assignment.eq_restrict_toList restricted]⟩
  | refutation report => exact Or.inr ⟨report, rfl⟩

theorem entryOf_fault {f : Fault} (failed : (entryOf i r key).result = .error f) :
    f.area = .store := by
  cases entryOf_eq_iff.mp failed <;> rfl

/-- An entry that a result makes is over the stations of the instance. -/
theorem mem_elements_entryOf (made : (entryOf i r key).result = .ok e) (st : Station) :
    st ∈ elements e ↔ st ∈ i.stations := by
  cases entryOf_eq_iff.mp made with
  | solution report offered covered restricted =>
    obtain rfl := Assignment.eq_restrict_toList restricted
    exact Std.ExtTreeMap.mem_keys.trans (Assignment.mem_restrict_toList covered st)
  | refutation report => exact Std.ExtTreeSet.mem_toList

theorem spans_entryOf_iff (made : (entryOf i r key).result = .ok e) :
    p.Spans (elements e) ↔ p.Spans (elements i) :=
  p.spans_congr fun st => (mem_elements_entryOf made st).trans Std.ExtTreeSet.mem_toList.symm

/-- A property of stores that no call can break but those that remove an entry. -/
structure Lasting (P : Store → Prop) : Prop where
  insert : ∀ e, Preserves P (Store.insert e)
  issueKey : ∀ stem, Preserves P (Store.issueKey stem)
  pruneSolutions : Preserves P Store.pruneSolutions
  pruneRefutations : Preserves P Store.pruneRefutations

theorem lasting_both {A : Index Station Solution → Prop} {B : Index Station Refutation → Prop}
    (solutions : Index.Lasting .supersets Solution.subsumes A)
    (refutations : Index.Lasting .subsets Refutation.subsumes B) : Lasting (Both A B) where
  insert := fun _ => both_insert (fun a _ => solutions.insert a) fun a _ => refutations.insert a
  issueKey := both_issueKey
  pruneSolutions := both_pruneSolutions (solutions.prune .sat)
  pruneRefutations := both_pruneRefutations (refutations.prune .unsat)

/-- A store with a solution of an instance, if the report is that there is one, or else with a
refutation. -/
def Decided (p : Permutation Station) (report : Report) (j : Instance) : Store → Prop :=
  match report with
  | .satisfiable => Both (Index.Offers p fun a => a.solves j = true) (Index.Keeps p fun _ => True)
  | _ => Both (Index.Keeps p fun _ => True) (Index.Offers p fun a => a.refutes j = true)

theorem lasting_decided (p : Permutation Station) (report : Report) (j : Instance) :
    Lasting (Decided p report j) := by
  have solutions : Index.Lasting .supersets Solution.subsumes
      (Index.Offers p fun a => a.solves j = true) :=
    Index.lasting_offers Solution.subsuming fun wider solved =>
      (Solution.subsumes_iff.mp wider).2.solves solved
  have refutations : Index.Lasting .subsets Refutation.subsumes
      (Index.Offers p fun a => a.refutes j = true) :=
    Index.lasting_offers Refutation.subsuming Refutation.refutes_of_subsumes
  cases report with
  | satisfiable => exact lasting_both solutions Index.lasting_keeps
  | unsatisfiable => exact lasting_both Index.lasting_keeps refutations
  | timeout => exact lasting_both Index.lasting_keeps refutations
  | unknown => exact lasting_both Index.lasting_keeps refutations

theorem outcome_insert_solution (a : Solution) (s : Store) : (insert (.solution a)).outcome s =
    (((Index.insert a).outcome s.solutions).1,
      { s with solutions := ((Index.insert a).outcome s.solutions).2 }) := by
  rw [insert, insertSolution, Action.outcome_bind_ok (Action.outcome_log _ s)]
  rfl

theorem outcome_insert_refutation (a : Refutation) (s : Store) :
    (insert (.refutation a)).outcome s = (((Index.insert a).outcome s.refutations).1,
      { s with refutations := ((Index.insert a).outcome s.refutations).2 }) := by
  rw [insert, insertRefutation, Action.outcome_bind_ok (Action.outcome_log _ s)]
  rfl

theorem outcome_record (i : Instance) (r : Finding) (key : String) (s : Store) :
    (record i r key).outcome s = match (entryOf i r key).result with
      | .ok a => (((insert a).outcome s).1.map fun _ => a, ((insert a).outcome s).2)
      | .error fault => (.error fault, s) := by
  rw [record, Action.outcome_bind, Action.outcome_query]
  cases (entryOf i r key).result with
  | error fault => rfl
  | ok a =>
    dsimp only
    rw [Action.outcome_bind]
    rcases (insert a).outcome s with ⟨_ | _, t⟩ <;> rfl

theorem outcome_record_of_fault {f : Fault} (makes : r.Makes i key (.error f)) :
    (record i r key).outcome s = (.error f, s) := by
  rw [outcome_record, result_entryOf makes]

/-- A record that succeeds adds the entry that the result makes. -/
theorem record_cases (recorded : (record i r key).result s = .ok e) :
    (entryOf i r key).result = .ok e ∧
      ∃ new, (insert e).outcome s = (.ok new, (record i r key).after s) := by
  have outcome : (record i r key).outcome s = (.ok e, (record i r key).after s) :=
    Prod.ext recorded rfl
  generalize (record i r key).after s = t at outcome
  rw [outcome_record] at outcome
  cases made : (entryOf i r key).result with
  | error fault => rw [made] at outcome; cases outcome
  | ok a =>
    simp only [made] at outcome
    rcases added : (insert a).outcome s with ⟨fault | new, t⟩
    · rw [added] at outcome
      cases outcome
    · rw [added] at outcome
      cases outcome
      exact ⟨rfl, new, added⟩

/-- What a record that succeeds leaves decides all that the result decides. -/
theorem decided_of_record {V : Entry → Prop} (kept : s.Keeps p V)
    (recorded : (record i r key).result s = .ok e) (decides : r.Decides i j) :
    Decided p r.report j ((record i r key).after s) := by
  obtain ⟨made, new, added⟩ := record_cases recorded
  rw [Finding.Decides] at decides
  obtain ⟨a, report, offered, rfl⟩ | ⟨report, rfl⟩ := entryOf_cases made
  · simp only [report] at decides ⊢
    obtain ⟨within, b, offered', admitted⟩ := decides
    cases offered.symm.trans offered'
    rw [outcome_insert_solution] at added
    obtain ⟨taken, after⟩ := Prod.mk.inj added
    rw [← after]
    refine ⟨Index.offers_of_insert kept.solutions (Solution.solves_iff.mpr ?_) taken,
      kept.refutations.weaken⟩
    intro station member
    rw [Assignment.getElem?_restrict_toList, if_pos (within station member)]
    exact admitted station member
  · simp only [report] at decides ⊢
    obtain ⟨within, narrowed⟩ := decides
    rw [outcome_insert_refutation] at added
    obtain ⟨taken, after⟩ := Prod.mk.inj added
    rw [← after]
    refine ⟨kept.solutions.weaken, Index.offers_of_insert kept.refutations ?_ taken⟩
    refine Refutation.refutes_iff.mpr ⟨within, ?_⟩
    intro station member
    exact Domain.covers_iff.mpr (narrowed station member)

theorem solutionFor_of_offers (offered : s.solutions.Offers p fun a => a.solves j = true)
    (inside : p.Spans (elements j)) :
    ∃ proof, (s.solutionFor j fun _ => false).result = .ok (some proof) := by
  have held := offered.exists_mem_entries
  obtain ⟨S, filed, _⟩ := offered
  exact (exists_solutionFor_iff filed).mpr ⟨inside, held⟩

theorem refutationFor_of_offers (offered : s.refutations.Offers p fun a => a.refutes j = true)
    (inside : p.Spans (elements j)) : ∃ key, (s.refutationFor j).result = .ok (some key) := by
  have held := offered.exists_mem_entries
  obtain ⟨R, filed, _⟩ := offered
  exact (exists_refutationFor_iff filed).mpr ⟨inside, held⟩

/-- A lookup finds what decides an instance; a solution is looked for first. -/
theorem lookup_of_decided {report : Report} (decided : s.Decided p report j)
    (inside : p.Spans (elements j)) :
    (∃ a key, (lookup j).result s = .ok (.satisfiable a key)) ∨
      report ≠ .satisfiable ∧ ∃ key, (lookup j).result s = .ok (.unsatisfiable key) := by
  have refuted (h : s.Both (Index.Keeps p fun _ => True)
      (Index.Offers p fun a => a.refutes j = true)) :
      (∃ a key, (lookup j).result s = .ok (.satisfiable a key)) ∨
        ∃ key, (lookup j).result s = .ok (.unsatisfiable key) := by
    obtain ⟨S, filed, _⟩ := h.solutions
    obtain ⟨key, found⟩ := refutationFor_of_offers h.refutations inside
    have sat := result_solutionFor filed inside fun _ => false
    generalize Option.map _ _ = answer at sat
    cases answer with
    | some proof => exact Or.inl ⟨proof.assignment, proof.key, result_lookup_eq_ok_iff.mpr sat⟩
    | none => exact Or.inr ⟨key, result_lookup_eq_ok_iff.mpr ⟨sat, found⟩⟩
  cases report with
  | satisfiable =>
    obtain ⟨proof, found⟩ := solutionFor_of_offers decided.solutions inside
    exact Or.inl ⟨proof.assignment, proof.key, result_lookup_eq_ok_iff.mpr found⟩
  | unsatisfiable => exact (refuted decided).imp_right fun found => ⟨nofun, found⟩
  | timeout => exact (refuted decided).imp_right fun found => ⟨nofun, found⟩
  | unknown => exact (refuted decided).imp_right fun found => ⟨nofun, found⟩

end Store

end Repack
