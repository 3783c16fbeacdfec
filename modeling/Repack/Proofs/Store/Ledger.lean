import Repack.Proofs.Session.Refusal
import Repack.Proofs.Store.Keys
import Repack.Proofs.Store.Rebuilding
import Repack.Proofs.Store.Redundancy

/-! The dealings with a store, written down as they are made: the keys that it issues, the entries
that are recorded and those that are pruned. What was recorded is what is stored and what was
pruned, as long as each record is made under a key of its own. -/
namespace Repack

namespace Index

variable {C : Type} [HasElements C Station] [BEq C] [LawfulBEq C] {p : Permutation Station}
  {ix : Index Station C} {l : List C}

/-- A new entry that is taken is listed with those before. -/
theorem Files.perm_insert (h : Files p ix l) {e : C} {new : Bool}
    (taken : (Index.insert e).result ix = .ok new) (fresh : e ∉ ix.entries) :
    ((Index.insert e).after ix).entries.Perm (ix.entries ++ [e]) := by
  obtain ⟨ix', outcome, filed⟩ := h.of_entries.step (.insert e)
  have answer : (Index.insert e).result ix = (Call.insert e).answer p ix.entries :=
    Action.result_of_outcome outcome
  rw [show (Index.insert e).after ix = ix' from Action.after_of_outcome outcome]
  by_cases inside : p.Admits (Call.insert e).entry
  · have longer : (Call.insert e).onList p ix.entries = ix.entries ++ [e] := by
      rw [Call.onList, if_pos inside]
      exact if_neg (by simpa using fresh)
    rw [longer] at filed
    exact filed.perm_entries
  · rw [answer, Call.answer, if_neg inside] at taken
    cases taken

end Index

namespace Store

variable {p : Permutation Station} {s : Store} {V : Entry → Prop} {i : Instance} {r : Finding}
  {key : String} {e : Entry}

/-- All entries, the solutions before the refutations. -/
def held (s : Store) : List Entry :=
  s.solutions.entries.map .solution ++ s.refutations.entries.map .refutation

theorem result_entries (s : Store) : entries.result s = .ok s.held := rfl

theorem Keeps.length_held (kept : s.Keeps p V) :
    s.held.length = s.solutions.total + s.refutations.total := by
  obtain ⟨⟨S, filedS, _⟩, ⟨R, filedR, _⟩⟩ := kept
  rw [held, List.length_append, List.length_map, List.length_map, filedS.perm_entries.length_eq,
    filedR.perm_entries.length_eq, filedS.total, filedR.total]

theorem key_of_entryOf (made : (entryOf i r key).result = .ok e) : e.key = key := by
  obtain ⟨_, _, _, rfl⟩ | ⟨_, rfl⟩ := entryOf_cases made
  · rfl
  · rfl

theorem key_of_record (recorded : (record i r key).result s = .ok e) : e.key = key :=
  key_of_entryOf (record_cases recorded).1

theorem issued_insert (e : Entry) (s : Store) : ((insert e).after s).issued = s.issued := by
  cases e with
  | solution a => rw [Action.after_of_outcome (outcome_insert_solution a s)]
  | refutation a => rw [Action.after_of_outcome (outcome_insert_refutation a s)]

theorem issued_record (recorded : (record i r key).result s = .ok e) :
    ((record i r key).after s).issued = s.issued := by
  obtain ⟨_, _, added⟩ := record_cases recorded
  rw [← Action.after_of_outcome added, issued_insert]

/-- A new entry that is recorded is held with those before. -/
theorem Keeps.perm_held_record (kept : s.Keeps p V)
    (recorded : (record i r key).result s = .ok e) (fresh : e ∉ s.held) :
    ((record i r key).after s).held.Perm (s.held ++ [e]) := by
  obtain ⟨_, new, added⟩ := record_cases recorded
  obtain ⟨⟨S, filedS, _⟩, ⟨R, filedR, _⟩⟩ := kept
  rw [← Action.after_of_outcome added]
  replace added := Action.result_of_outcome added
  cases e with
  | solution a =>
    rw [Action.result_of_outcome (outcome_insert_solution a s)] at added
    rw [Action.after_of_outcome (outcome_insert_solution a s)]
    have absent : a ∉ s.solutions.entries := by simpa [held] using fresh
    have longer := (filedS.perm_insert added absent).map Entry.solution
    rw [List.map_append] at longer
    simp only [held, List.append_assoc]
    refine (longer.append_right _).trans ?_
    rw [List.append_assoc]
    exact List.perm_append_comm.append_left _
  | refutation a =>
    rw [Action.result_of_outcome (outcome_insert_refutation a s)] at added
    rw [Action.after_of_outcome (outcome_insert_refutation a s)]
    have absent : a ∉ s.refutations.entries := by simpa [held] using fresh
    have longer := (filedR.perm_insert added absent).map Entry.refutation
    rw [List.map_append] at longer
    simp only [held, List.append_assoc]
    exact longer.append_left _

/-- What is left and what was removed are what was there. -/
theorem PrunesExactly.perm {C : Type} [DecidableEq C] {prune : Action Store (List C)}
    {stored : Store → List C} {Redundant : List C → C → Prop} {removed : List C}
    (h : PrunesExactly prune stored Redundant s removed) :
    (stored (prune.after s) ++ removed).Perm (stored s) := by
  have gone : removed.Perm ((stored s).filter (· ∈ removed)) := by
    apply (List.perm_ext_iff_of_nodup (h.distinct.sublist h.order) (h.distinct.filter _)).mpr
    intro e
    simpa using fun member => h.order.subset member
  rw [h.kept]
  refine (gone.append_left _).trans ?_
  have parts := List.filter_append_perm (· ∈ removed) (stored s)
  simp only [decide_not]
  exact List.perm_append_comm.trans parts

theorem Keeps.perm_held_pruneSolutions (kept : s.Keeps p V) : ∃ removed solutions,
    pruneSolutions.outcome s = (.ok removed, { s with solutions }) ∧
      ({ s with solutions }.held ++ removed.map .solution).Perm s.held := by
  obtain ⟨S, filed, _⟩ := kept.solutions
  obtain ⟨removed, solutions, outcome, _⟩ := outcome_pruneSolutions filed
  refine ⟨removed, solutions, outcome, ?_⟩
  have exactly := prunesExactly_solutions filed
  have parts := exactly.perm
  obtain rfl : removed = _ :=
    Except.ok.inj ((Action.result_of_outcome outcome).symm.trans exactly.result)
  rw [Action.after_of_outcome outcome] at parts
  have moved := (parts.map Entry.solution).append_right (s.refutations.entries.map .refutation)
  rw [List.map_append, List.append_assoc] at moved
  rw [held, held, List.append_assoc]
  exact (List.perm_append_comm.append_left _).trans moved

theorem Keeps.perm_held_pruneRefutations (kept : s.Keeps p V) : ∃ removed refutations,
    pruneRefutations.outcome s = (.ok removed, { s with refutations }) ∧
      ({ s with refutations }.held ++ removed.map .refutation).Perm s.held := by
  obtain ⟨R, filed, _⟩ := kept.refutations
  obtain ⟨removed, refutations, outcome, _⟩ := outcome_pruneRefutations filed
  refine ⟨removed, refutations, outcome, ?_⟩
  have exactly := prunesExactly_refutations filed
  have parts := exactly.perm
  obtain rfl : removed = _ :=
    Except.ok.inj ((Action.result_of_outcome outcome).symm.trans exactly.result)
  rw [Action.after_of_outcome outcome] at parts
  rw [held, held, List.append_assoc, ← List.map_append]
  exact (parts.map Entry.refutation).append_left _

/-- A dealing with a store that adds entries or removes them, or takes a key. -/
inductive Deal
  | issueKey (stem : String)
  | record (i : Instance) (r : Finding) (key : String)
  | pruneSolutions
  | pruneRefutations

def Deal.after : Deal → Store → Store
  | issueKey stem => (Store.issueKey stem).after
  | record i r key => (Store.record i r key).after
  | pruneSolutions => Store.pruneSolutions.after
  | pruneRefutations => Store.pruneRefutations.after

end Store

/-- What a store gave in answer to some dealings, the latest last. -/
structure Ledger where
  issued : List String := []
  recorded : List Entry := []
  pruned : List Entry := []

namespace Ledger

open Store (Deal Numbered)

/-- Writes down what a store gives; a refusal is not written down. -/
def enter (s : Store) (l : Ledger) : Deal → Ledger
  | .issueKey stem =>
    { l with issued := l.issued ++ ((Store.issueKey stem).result s).toOption.toList }
  | .record i r key =>
    { l with recorded := l.recorded ++ ((Store.record i r key).result s).toOption.toList }
  | .pruneSolutions =>
    { l with pruned := l.pruned ++
        ((Store.pruneSolutions.result s).toOption.getD []).map .solution }
  | .pruneRefutations =>
    { l with pruned := l.pruned ++
        ((Store.pruneRefutations.result s).toOption.getD []).map .refutation }

/-- The ledger of a store that is as the dealings left it. -/
structure Balances (p : Permutation Station) (s : Store) (l : Ledger) : Prop where
  kept : s.Keeps p fun _ => True
  counter : s.issued = UInt64.ofNat l.issued.length
  numbered : Numbered 0 l.issued
  known : ∀ e ∈ l.recorded, e.key ∈ l.issued
  distinct : (l.recorded.map Entry.key).Nodup
  stock : (s.held ++ l.pruned).Perm l.recorded

/-- Whether a record is under a key that was issued, and not recorded under. -/
def Ready (l : Ledger) : Deal → Prop
  | .record _ _ key => key ∈ l.issued ∧ key ∉ l.recorded.map Entry.key
  | .issueKey _ | .pruneSolutions | .pruneRefutations => True

variable {p : Permutation Station} {s : Store} {l : Ledger}

theorem balances_empty (settings : Settings) : Balances p (.empty settings p) {} where
  kept := Store.keeps_empty settings
  counter := rfl
  numbered := Store.numbered_nil
  known := nofun
  distinct := .nil
  stock := .refl _

theorem enter_issueKey (s : Store) (l : Ledger) (stem : String) : l.enter s (.issueKey stem) =
    { l with issued := l.issued ++ [Store.keyed stem s.issued] } := rfl

theorem Balances.issueKey (h : Balances p s l) (stem : String) :
    Balances p ((Store.issueKey stem).after s) (l.enter s (.issueKey stem)) := by
  rw [enter_issueKey, Action.after_of_outcome (Store.outcome_issueKey stem s)]
  refine ⟨⟨h.kept.solutions, h.kept.refutations⟩, ?_, ?_, ?_, h.distinct, h.stock⟩
  · simp [h.counter]
  · rw [h.counter]
    simpa using h.numbered.append stem
  · exact fun e member => List.mem_append_left _ (h.known e member)

theorem Balances.record (h : Balances p s l) {i : Instance} {r : Finding} {key : String}
    (ready : l.Ready (.record i r key)) :
    Balances p ((Store.record i r key).after s) (l.enter s (.record i r key)) := by
  obtain ⟨issued, unused⟩ := ready
  rw [enter]
  cases recorded : (Store.record i r key).result s with
  | error f =>
    rw [h.kept.after_record recorded]
    simpa [Except.toOption] using h
  | ok e =>
    have own := Store.key_of_record recorded
    -- An entry that is held is on record, and its key with it.
    have fresh : e ∉ s.held := by
      intro present
      apply unused
      rw [← own]
      exact List.mem_map_of_mem (h.stock.subset (List.mem_append_left _ present))
    simp only [Except.toOption, Option.toList]
    refine ⟨?_, ?_, h.numbered, ?_, ?_, ?_⟩
    · exact Store.preserves_record (fun e _ => Store.preserves_insert trivial) s h.kept
    · rw [Store.issued_record recorded, h.counter]
    · simp only [List.mem_append, List.mem_singleton]
      rintro a (before | rfl)
      · exact h.known a before
      · rwa [own]
    · rw [List.map_append, List.map_singleton, own, List.nodup_append_comm]
      exact List.nodup_cons.mpr ⟨unused, h.distinct⟩
    · refine ((h.kept.perm_held_record recorded fresh).append_right _).trans ?_
      rw [List.append_assoc]
      refine (List.perm_append_comm.append_left _).trans ?_
      rw [← List.append_assoc]
      exact h.stock.append_right _

/-- Entries that are moved from the store to those pruned. -/
theorem Balances.move (h : Balances p s l) {t : Store} {removed : List Entry}
    (kept : t.Keeps p fun _ => True) (issued : t.issued = s.issued)
    (moved : (t.held ++ removed).Perm s.held) :
    Balances p t { l with pruned := l.pruned ++ removed } where
  kept := kept
  counter := issued.trans h.counter
  numbered := h.numbered
  known := h.known
  distinct := h.distinct
  stock := by
    refine (List.perm_append_comm.append_left _).trans ?_
    rw [← List.append_assoc]
    exact (moved.append_right _).trans h.stock

/-- The books balance after every dealing that was ready to be made. -/
theorem Balances.enter (h : Balances p s l) {deal : Deal} (ready : l.Ready deal) :
    Balances p (deal.after s) (l.enter s deal) := by
  cases deal with
  | issueKey stem => exact h.issueKey stem
  | record i r key => exact h.record ready
  | pruneSolutions =>
    have kept := Store.preserves_pruneSolutions s h.kept
    obtain ⟨removed, solutions, outcome, moved⟩ := h.kept.perm_held_pruneSolutions
    rw [Action.after_of_outcome outcome] at kept
    rw [Ledger.enter, Action.result_of_outcome outcome, Deal.after, Action.after_of_outcome outcome]
    exact h.move kept rfl moved
  | pruneRefutations =>
    have kept := Store.preserves_pruneRefutations s h.kept
    obtain ⟨removed, refutations, outcome, moved⟩ := h.kept.perm_held_pruneRefutations
    rw [Action.after_of_outcome outcome] at kept
    rw [Ledger.enter, Action.result_of_outcome outcome, Deal.after, Action.after_of_outcome outcome]
    exact h.move kept rfl moved

end Ledger

end Repack
