import Repack.Proofs.Session.Accounting
import Repack.Proofs.Session.Persistence

/-! The keys that a store gives out while clients and others use it. Nothing but taking a key moves
the counter of the store, and it moves by one, so the keys of any run carry the numbers from that of
the counter on, and differ, whatever their stems are. -/
namespace Repack

open Repack.Action (Preserves)

namespace Store

variable {n : UInt64} {α : Type}

/-- Whether the counter of a store is at a number. -/
def Counts (n : UInt64) (s : Store) : Prop := s.issued = n

theorem counts_onSolutions (x : Action (Index Station Solution) α) :
    Preserves (Counts n) (onSolutions x) := fun _ counted => counted

theorem counts_onRefutations (x : Action (Index Station Refutation) α) :
    Preserves (Counts n) (onRefutations x) := fun _ counted => counted

theorem counts_insert (e : Entry) : Preserves (Counts n) (insert e) :=
  fun s counted => (issued_insert e s).trans counted

theorem counts_erase (e : Entry) : Preserves (Counts n) (erase e) := by
  cases e with
  | solution a => exact counts_onSolutions _
  | refutation a => exact counts_onRefutations _

theorem counts_record (i : Instance) (r : Finding) (key : String) :
    Preserves (Counts n) (record i r key) :=
  preserves_record fun e _ => counts_insert e

theorem counts_pruneSolutions : Preserves (Counts n) pruneSolutions :=
  Action.preserves_get.bind fun _ => counts_onSolutions _

theorem counts_pruneRefutations : Preserves (Counts n) pruneRefutations :=
  Action.preserves_get.bind fun _ => counts_onRefutations _

theorem counts_call (call : Call) : Preserves (Counts n) call.perform := by
  cases call with
  | insert e => exact counts_insert e
  | erase e => exact counts_erase e
  | contains e => cases e <;> exact fun _ counted => counted
  | entries => exact preserves_entries
  | record i r key => exact counts_record i r key
  | proveSat i ignore => exact fun _ counted => counted
  | proveUnsat i => exact fun _ counted => counted
  | lookup i => exact fun _ counted => counted
  | seeds i k =>
    refine (Action.preserves_query _).bind fun _ => Action.preserves_get.bind fun s => ?_
    exact (counts_onSolutions _).bind fun _ => Action.preserves_pure _
  | pruneSolutions => exact counts_pruneSolutions
  | pruneRefutations => exact counts_pruneRefutations

end Store

namespace System

/-- One use of a store that clients share: a move of those that take turns at it, any other call, or
anything that is done to one of its indices. -/
inductive Use (ι : Type) : Type 1
  | move (move : Move ι)
  | call (call : Store.Call)
  | onSolutions {α : Type} (x : Action (Index Station Solution) α)
  | onRefutations {α : Type} (x : Action (Index Station Refutation) α)

variable {ι : Type} {σ : ι → Type} [DecidableEq ι]

def use (oracle : (n : ι) → Oracle (σ n)) (s : System ι σ) : Use ι → System ι σ
  | .move move => s.step oracle move
  | .call call => s.onStore call.perform
  | .onSolutions x => s.onStore (Store.onSolutions x)
  | .onRefutations x => s.onStore (Store.onRefutations x)

/-- The key that is given out in one use: to whoever asks for it, or to a client with a result that
decides, which has it in hand then. -/
def key? (oracle : (n : ι) → Oracle (σ n)) (s : System ι σ) : Use ι → Option String
  | .move (.issueKey stem) => ((Store.issueKey stem).result s.store).toOption
  | .move (.proceed n) =>
    match s.phases n with
    | .decided _ _ => ((s.proceed oracle n).phases n).key?
    | .idle | .missed _ _ | .named _ _ _ => none
  | _ => none

/-- The keys that are given out in a run, the first one first. -/
def keys (oracle : (n : ι) → Oracle (σ n)) (s : System ι σ) : List (Use ι) → List String
  | [] => []
  | use :: rest => (s.key? oracle use).toList ++ keys oracle (s.use oracle use) rest

variable {oracle : (n : ι) → Oracle (σ n)} {s : System ι σ}

/-- Either no key is given out and the counter stays, or one is, with the number of the counter. -/
theorem use_cases (oracle : (n : ι) → Oracle (σ n)) (s : System ι σ) (use : Use ι) :
    (s.key? oracle use = none ∧ (s.use oracle use).store.issued = s.store.issued) ∨
      ∃ stem, s.key? oracle use = some (Store.keyed stem s.store.issued) ∧
        (s.use oracle use).store.issued = s.store.issued + 1 := by
  cases use with
  | move move =>
    cases move with
    | ask n i elapsed => exact .inl ⟨rfl, congrArg Store.issued store_ask⟩
    | proceed n =>
      rw [System.use, step, key?]
      cases phase : s.phases n with
      | idle => exact .inl ⟨rfl, by rw [proceed_idle phase]⟩
      | missed i elapsed =>
        refine .inl ⟨rfl, ?_⟩
        rw [proceed, phase]
        exact congrArg Store.issued store_work
      | decided i r =>
        refine .inr ⟨i.name.getD "instance", ?_, ?_⟩
        · rw [proceed, phase]
          dsimp only
          rw [takeKey_eq, phases_enter]
          rfl
        · rw [proceed, phase]
          rfl
      | named i r key =>
        refine .inl ⟨rfl, ?_⟩
        rw [proceed, phase]
        exact (congrArg Store.issued store_record).trans (Store.counts_record i r key _ rfl)
    | insert e => exact .inl ⟨rfl, Store.counts_insert e _ rfl⟩
    | erase e => exact .inl ⟨rfl, Store.counts_erase e _ rfl⟩
    | issueKey stem => exact .inr ⟨stem, rfl, rfl⟩
    | pruneSolutions => exact .inl ⟨rfl, Store.counts_pruneSolutions _ rfl⟩
    | pruneRefutations => exact .inl ⟨rfl, Store.counts_pruneRefutations _ rfl⟩
  | call call => exact .inl ⟨rfl, Store.counts_call call _ rfl⟩
  | onSolutions x => exact .inl ⟨rfl, Store.counts_onSolutions x _ rfl⟩
  | onRefutations x => exact .inl ⟨rfl, Store.counts_onRefutations x _ rfl⟩

/-- The keys of a run go on where those before it ended. -/
theorem numbered_keys {first : UInt64} {issued : List String}
    (numbered : Store.Numbered first issued)
    (counter : s.store.issued = first + UInt64.ofNat issued.length) (uses : List (Use ι)) :
    Store.Numbered first (issued ++ s.keys oracle uses) := by
  induction uses generalizing s issued with
  | nil => rwa [keys, List.append_nil]
  | cons use rest ih =>
    rw [keys]
    obtain ⟨none, stays⟩ | ⟨stem, given, moves⟩ := use_cases oracle s use
    · rw [none]
      exact ih numbered (stays.trans counter)
    · rw [given, Option.toList_some, ← List.append_assoc]
      apply ih
      · rw [counter]
        exact numbered.append stem
      · rw [moves, counter, List.length_append, List.length_singleton, UInt64.ofNat_add,
          UInt64.add_assoc]
        rfl

/-- Keys are not given out twice, however the store is used, until the counter comes round. -/
theorem nodup_keys (oracle : (n : ι) → Oracle (σ n)) (s : System ι σ) (uses : List (Use ι))
    (few : (s.keys oracle uses).length ≤ 2 ^ 64) : (s.keys oracle uses).Nodup := by
  have numbered : Store.Numbered s.store.issued ([] ++ s.keys oracle uses) :=
    numbered_keys Store.numbered_nil (UInt64.add_zero _).symm uses
  rw [List.nil_append] at numbered
  exact numbered.nodup few

section Sample

open Account (careless refuting)

/-- Stems that look like keys, taken directly and by two clients that solve at the same time, while
others remove what was stored. -/
def contested : List (Use Bool) :=
  [.move (.issueKey "pair"), .move (.issueKey "pair#0"),
    .move (.ask true { Instance.ofStations [1, 2] with name := some "pair#" } .zero),
    .move (.ask false { Instance.ofStations [2, 3] with name := some "" } .zero),
    .move (.proceed false), .move (.proceed true), .move (.proceed false), .move (.proceed true),
    .move (.proceed true), .call (.lookup (.ofStations [1])), .move .pruneSolutions,
    .onSolutions (Index.Shared.keepFirst 0), .move (.proceed false), .move (.issueKey "pair#0")]

theorem nodup_keys_contested :
    let start : System Bool fun _ => Nat := .start .standard Store.trio fun _ => .fresh 0
    let solvers (n : Bool) : Oracle Nat := bif n then careless else refuting
    let given := start.keys solvers contested
    given = ["pair#0", "pair#0#1", "#2", "pair##3", "pair#0#4"] ∧ given.length ≤ 2 ^ 64 ∧
      given.Nodup := by
  intro start solvers given
  have known : given = ["pair#0", "pair#0#1", "#2", "pair##3", "pair#0#4"] := by decide +kernel
  have few : given.length ≤ 2 ^ 64 := by
    rw [known]
    decide
  exact ⟨known, few, nodup_keys solvers start contested few⟩

end Sample

end System

end Repack
