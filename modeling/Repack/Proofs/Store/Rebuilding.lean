import Repack.Proofs.Index.Redundancy
import Repack.Proofs.Store.Pruning
import Repack.Proofs.Store.Recording

/-! A store built anew from the entries of another, in the order in which they are listed. Every
entry is new when its turn comes and goes to the end of its bucket, so both indices are built as
they were, whatever history had led to them; only the number of issued keys is lost. -/
namespace Repack

open Repack.Action (Agrees)

namespace Index

variable {C : Type} [HasElements C Station] [BEq C] [PartialEquivBEq C]
variable {p : Permutation Station} {ix : Index Station C} {l m : List C}

/-- An index files its entries in index order too. -/
theorem Files.of_entries (h : Files p ix l) : Files p ix ix.entries where
  permutation := h.permutation
  admits := fun e member => h.admits e (h.mem_entries.mp member)
  distinct := by
    have symm {a b : C} (differ : (a == b) = false) : (b == a) = false := BEq.comm.trans differ
    exact (h.perm_entries.pairwise_iff symm).mpr h.distinct
  buckets := by
    intro b
    rw [bucketOf, h.filter_entries, h.buckets]
  sets := by
    intro b
    rw [bucketOf, h.filter_entries, h.sets]
  total := by rw [h.total, h.perm_entries.length_eq]

variable [LawfulElements C]

/-- New entries are all taken, and filed as they come. -/
theorem Files.outcome_insertAll (h : Files p ix l) (admits : ∀ e ∈ m, p.Admits e)
    (distinct : (l ++ m).Pairwise fun a b => (a == b) = false) :
    ∃ ix' : Index Station C, (m.mapM Index.insert).outcome ix = (.ok (m.map fun _ => true), ix') ∧
      Files p ix' (l ++ m) := by
  induction m generalizing ix l with
  | nil => exact ⟨ix, rfl, (List.append_nil l).symm ▸ h⟩
  | cons e rest ih =>
    -- What is filed so far and what is still to come are one list without equal entries.
    have fresh : l.contains e = false := by
      rw [Bool.eq_false_iff, ne_eq, List.contains_iff_exists_mem_beq]
      rintro ⟨a, member, same⟩
      have differ := (List.pairwise_append.mp distinct).2.2 a member e List.mem_cons_self
      rw [BEq.comm, differ] at same
      cases same
    obtain ⟨next, outcome, filed⟩ := h.outcome_insert (admits e List.mem_cons_self)
    simp only [fresh, Bool.not_false, Bool.false_eq_true, if_false] at outcome filed
    have regrouped : l ++ e :: rest = l ++ [e] ++ rest := by simp
    rw [regrouped] at distinct ⊢
    obtain ⟨ix', others, filed'⟩ :=
      ih filed (fun a member => admits a (List.mem_cons_of_mem _ member)) distinct
    refine ⟨ix', ?_, filed'⟩
    rw [List.mapM_cons, Action.outcome_bind_ok outcome, Action.outcome_bind_ok others]
    rfl

/-- Adding the entries of an index to an empty one builds it again. -/
theorem Files.outcome_rebuild (h : Files p ix l) :
    (ix.entries.mapM Index.insert).outcome (Index.empty p) =
      (.ok (ix.entries.map fun _ => true), ix) := by
  have listed := h.of_entries
  obtain ⟨ix', outcome, filed⟩ :=
    (files_empty p).outcome_insertAll listed.admits listed.distinct
  rw [outcome, listed.unique filed]

end Index

namespace Store

variable {p : Permutation Station} {s t : Store}

theorem outcome_insert_solutions (l : List Solution) (s : Store) :
    (insertAll (l.map .solution)).outcome s = (onSolutions (l.mapM Index.insert)).outcome s := by
  rw [insertAll, List.mapM_map]
  refine Action.outcome_mapM_zoom ?_ ?_ ?_ outcome_insert_solution l s
  · exact fun _ _ => rfl
  · exact fun _ => rfl
  · exact fun _ _ _ => rfl

theorem outcome_insert_refutations (l : List Refutation) (s : Store) :
    (insertAll (l.map .refutation)).outcome s = (onRefutations (l.mapM Index.insert)).outcome s := by
  rw [insertAll, List.mapM_map]
  refine Action.outcome_mapM_zoom ?_ ?_ ?_ outcome_insert_refutation l s
  · exact fun _ _ => rfl
  · exact fun _ => rfl
  · exact fun _ _ _ => rfl

/-- What is built from the entries of a store is the store, but for the keys issued. -/
theorem outcome_rebuild (h : Reachable p s) :
    (insertAll (s.solutions.entries.map .solution ++ s.refutations.entries.map .refutation)).outcome
        s.cleared =
      (.ok ((s.solutions.entries.map fun _ => true) ++ s.refutations.entries.map fun _ => true),
        { s with issued := 0 }) := by
  obtain ⟨⟨S, filedS, _⟩, ⟨R, filedR, _⟩⟩ := h.keeps
  have start : s.cleared = empty s.settings p := congrArg (empty s.settings) filedS.permutation
  let half : Store := ⟨s.settings, s.solutions, .empty p, 0⟩
  have solutions : (insertAll (s.solutions.entries.map .solution)).outcome s.cleared =
      (.ok (s.solutions.entries.map fun _ => true), half) := by
    have built : (s.solutions.entries.mapM Index.insert).outcome (empty s.settings p).solutions =
        _ := filedS.outcome_rebuild
    rw [start, outcome_insert_solutions, onSolutions, Action.outcome_zoom, built]
    rfl
  have refutations : (insertAll (s.refutations.entries.map .refutation)).outcome half =
      (.ok (s.refutations.entries.map fun _ => true), { s with issued := 0 }) := by
    have built : (s.refutations.entries.mapM Index.insert).outcome half.refutations = _ :=
      filedR.outcome_rebuild
    rw [outcome_insert_refutations, onRefutations, Action.outcome_zoom, built]
  rw [insertAll, List.mapM_append, ← insertAll, ← insertAll, Action.outcome_bind_ok solutions,
    Action.outcome_bind_ok refutations]
  rfl

section Peers

/-- Two stores that are the same but for the keys issued. -/
def Peers (s t : Store) : Prop := ∃ n, t = { s with issued := n }

variable {α : Type}

theorem agrees_peers_query {f : Store → Attempt α} (keyless : ∀ s n, f { s with issued := n } = f s) :
    Agrees Peers id (Action.query f) := by
  apply Action.agrees_query
  rintro s _ ⟨n, rfl⟩
  rw [keyless s n]

theorem agrees_peers_onSolutions (x : Action (Index Station Solution) α) :
    Agrees Peers id (onSolutions x) := by
  rintro s _ ⟨n, rfl⟩
  exact ⟨rfl, n, rfl⟩

theorem agrees_peers_onRefutations (x : Action (Index Station Refutation) α) :
    Agrees Peers id (onRefutations x) := by
  rintro s _ ⟨n, rfl⟩
  exact ⟨rfl, n, rfl⟩

theorem agrees_peers_insert (e : Entry) : Agrees Peers id (insert e) := by
  cases e with
  | solution a => exact (Action.agrees_log _).bind fun _ => agrees_peers_onSolutions _
  | refutation a => exact (Action.agrees_log _).bind fun _ => agrees_peers_onRefutations _

theorem agrees_peers_record (i : Instance) (r : Finding) (key : String) :
    Agrees Peers id (record i r key) := by
  refine (agrees_peers_query fun _ _ => rfl).bind fun e => ?_
  exact (agrees_peers_insert e).bind fun _ => Action.agrees_pure e

theorem agrees_peers_pruneSolutions : Agrees Peers id pruneSolutions := by
  rintro s _ ⟨n, rfl⟩
  exact ⟨rfl, n, rfl⟩

theorem agrees_peers_pruneRefutations : Agrees Peers id pruneRefutations := by
  rintro s _ ⟨n, rfl⟩
  exact ⟨rfl, n, rfl⟩

theorem agrees_peers_seeds (i : Instance) (k : Nat) : Agrees Peers id (seeds i k) := by
  rintro s _ ⟨n, rfl⟩
  have outcome := outcome_seeds_eq i k
  rw [Action.result_of_outcome (outcome s), Action.after_of_outcome (outcome s),
    Action.result_of_outcome (outcome _), Action.after_of_outcome (outcome _)]
  exact ⟨rfl, n, rfl⟩

/-- No call depends on the keys issued. -/
theorem Call.agrees_peers (call : Call) : Agrees Peers id call.perform := by
  cases call with
  | insert e => exact agrees_peers_insert e
  | erase e =>
    cases e with
    | solution a => exact agrees_peers_onSolutions _
    | refutation a => exact agrees_peers_onRefutations _
  | contains e =>
    cases e with
    | solution a => exact agrees_peers_onSolutions _
    | refutation a => exact agrees_peers_onRefutations _
  | entries =>
    refine (agrees_peers_onSolutions _).bind fun solutions => ?_
    exact (agrees_peers_onRefutations _).bind fun refutations => Action.agrees_pure _
  | record i r key => exact agrees_peers_record i r key
  | proveSat i ignore => exact (agrees_peers_query fun _ _ => rfl).withLock .read
  | proveUnsat i => exact (agrees_peers_query fun _ _ => rfl).withLock .read
  | lookup i => exact ((agrees_peers_query fun _ _ => rfl).withLock .read).withLock .read
  | seeds i k => exact agrees_peers_seeds i k
  | pruneSolutions => exact agrees_peers_pruneSolutions
  | pruneRefutations => exact agrees_peers_pruneRefutations

end Peers

/-- What calls in turn are answered. -/
def answers (s : Store) : List Call → List ((call : Call) × Except Fault call.Answer)
  | [] => []
  | call :: rest => ⟨call, call.perform.result s⟩ :: answers (call.perform.after s) rest

theorem Peers.answers (h : Peers s t) (calls : List Call) : s.answers calls = t.answers calls := by
  induction calls generalizing s t with
  | nil => rfl
  | cons call rest ih =>
    obtain ⟨same, left⟩ := call.agrees_peers s t h
    simp only [Except.map_id, id_eq] at same
    rw [Store.answers, Store.answers, same, ih left]

/-- A store that is to be used in place of another: it lists and counts the same entries, and
answers any calls as the other does. -/
structure Replaces (t s : Store) : Prop where
  allSolutions : Store.allSolutions.result t = Store.allSolutions.result s
  allRefutations : Store.allRefutations.result t = Store.allRefutations.result s
  solutions_size : t.solutions.size = s.solutions.size
  refutations_size : t.refutations.size = s.refutations.size
  solutions_total : t.solutions.total = s.solutions.total
  refutations_total : t.refutations.total = s.refutations.total
  answers : ∀ calls, t.answers calls = s.answers calls

theorem Peers.replaces (h : Peers s t) : t.Replaces s := by
  have answers := h.answers
  obtain ⟨n, rfl⟩ := h
  exact ⟨rfl, rfl, rfl, rfl, rfl, rfl, fun calls => (answers calls).symm⟩

/-- The entries of a reachable store, added in turn to an empty one with the same permutation and
settings, are all new to it, and leave a store that replaces the first. -/
theorem replaces_of_rebuilt (h : Reachable p s) : ∃ l, entries.result s = .ok l ∧
    (insertAll l).result s.cleared = .ok (l.map fun _ => true) ∧
    ((insertAll l).after s.cleared).Replaces s := by
  have outcome := outcome_rebuild h
  refine ⟨_, rfl, ?_, ?_⟩
  · rw [Action.result_of_outcome outcome, List.map_append, List.map_map, List.map_map]
    rfl
  · rw [Action.after_of_outcome outcome]
    exact Peers.replaces ⟨0, rfl⟩

/-- A store in which the older of two solutions over one set was removed and added again. -/
def revised : Store :=
  let first : Solution := ⟨.ofList [(1, 14), (2, 15)] compare, "first", "test"⟩
  let second : Solution := ⟨.ofList [(1, 14), (2, 16)] compare, "second", "test"⟩
  (insert (.solution first)).after ((erase (.solution first)).after
    ((insert (.solution second)).after ((insert (.solution first)).after sample)))

theorem reachable_revised : Reachable trio revised :=
  (((reachable_sample.operation (.insert _)).operation (.insert _)).operation (.erase _)).operation
    (.insert _)

theorem replaces_revised : Reachable trio revised ∧
    (∃ l, entries.result revised = .ok l ∧
      (insertAll l).result revised.cleared = .ok (l.map fun _ => true) ∧
      ((insertAll l).after revised.cleared).Replaces revised) ∧
    revised.solutions.entries.map Solution.key = ["narrow", "second", "first", "wide"] := by
  refine ⟨reachable_revised, replaces_of_rebuilt reachable_revised, ?_⟩
  decide +kernel

end Store

end Repack
