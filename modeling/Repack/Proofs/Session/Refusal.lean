import Repack.Proofs.Store.Intake

/-! What is refused, and at what cost. A call that takes elements is refused exactly when one of
them is outside of the universe, before it touches an index. A client that is refused by the store
asks its own solver, and cannot record what it is told. -/
namespace Repack

namespace Index

variable {E C : Type} [DecidableEq E] [HasElements C E] [BEq C]

/-- The faults of an index: each call that takes elements fails if one of them is outside of the
universe, and in no other way, and then changes nothing. -/
structure Strict (p : Permutation E) (ix : Index E C) : Prop where
  error_iff : ∀ {α : Type} {x : Action (Index E C) α} {taken : List E}, Takes x taken →
    ∀ f, x.result ix = .error f ↔ f = .unknownElement ∧ ∃ e ∈ taken, e ∉ p.elements
  unchanged : ∀ {α : Type} {x : Action (Index E C) α} {taken : List E}, Takes x taken →
    ∀ f, x.result ix = .error f → x.after ix = ix

variable {p : Permutation E} {ix : Index E C} {l : List C}

theorem Holds.strict (h : Holds p ix l) : ix.Strict p where
  error_iff := fun takes f => by rw [(h.confined takes).error_iff, Permutation.not_spans_iff]
  unchanged := fun takes _ failed => (h.confined takes).after_eq failed

end Index

namespace Store

/-- The faults of a store: each call that takes elements fails if one of them is outside of the
universe, and in no other way; and no call that fails changes anything. -/
structure Strict (p : Permutation Station) (s : Store) : Prop where
  error_iff : ∀ {α : Type} {x : Action Store α} {taken : List Station}, Takes x taken →
    ∀ f, x.result s = .error f ↔ f = .unknownElement ∧ ∃ e ∈ taken, e ∉ p.elements
  unchanged : ∀ {α : Type} {x : Action Store α} {taken : List Station}, Takes x taken →
    ∀ f, x.result s = .error f → x.after s = s
  call_unchanged : ∀ (call : Call) f, call.perform.result s = .error f → call.perform.after s = s

variable {p : Permutation Station} {s : Store} {i : Instance} {r : Finding} {key : String}
  {V : Entry → Prop} {α : Type}

/-- A result is not recorded for an instance outside of the universe, whatever it is. -/
theorem Keeps.record_outside (kept : s.Keeps p V) (outside : ¬ p.Spans (elements i)) :
    ∃ f, (record i r key).outcome s = (.error f, s) := by
  cases made : (entryOf i r key).result with
  | error f => exact ⟨f, outcome_record_of_fault (entryOf_eq_iff.mp made)⟩
  | ok e => exact ⟨_, kept.outcome_record_outside (entryOf_eq_iff.mp made) outside⟩

theorem Keeps.after_record (kept : s.Keeps p V) {f : Fault}
    (failed : (record i r key).result s = .error f) : (record i r key).after s = s := by
  cases made : (entryOf i r key).result with
  | error f => exact Action.after_of_outcome (outcome_record_of_fault (entryOf_eq_iff.mp made))
  | ok e =>
    by_cases inside : p.Spans (elements i)
    · obtain ⟨t, taken, _⟩ := kept.outcome_record_inside (entryOf_eq_iff.mp made) inside
      cases (Action.result_of_outcome taken).symm.trans failed
    · exact Action.after_of_outcome
        (kept.outcome_record_outside (entryOf_eq_iff.mp made) inside)

theorem Keeps.call_unchanged (kept : s.Keeps p V) (call : Call) {f : Fault}
    (failed : call.perform.result s = .error f) : call.perform.after s = s := by
  cases call with
  | insert e => exact (kept.confined (.insert e)).after_eq failed
  | erase e => exact (kept.confined (.erase e)).after_eq failed
  | contains e => exact (kept.confined (.contains e)).after_eq failed
  | entries => rfl
  | record i r key => exact kept.after_record failed
  | proveSat i ignore => rfl
  | proveUnsat i => rfl
  | lookup i => rfl
  | seeds i k => exact (kept.confined (.seeds i k)).after_eq failed
  | pruneSolutions =>
    obtain ⟨S, filed, _⟩ := kept.solutions
    obtain ⟨_, _, outcome, _⟩ := outcome_pruneSolutions filed
    replace failed : pruneSolutions.result s = .error f := failed
    rw [Action.result_of_outcome outcome] at failed
    cases failed
  | pruneRefutations =>
    obtain ⟨R, filed, _⟩ := kept.refutations
    obtain ⟨_, _, outcome, _⟩ := outcome_pruneRefutations filed
    replace failed : pruneRefutations.result s = .error f := failed
    rw [Action.result_of_outcome outcome] at failed
    cases failed

theorem Keeps.strict (kept : s.Keeps p V) : s.Strict p where
  error_iff := fun takes f => by rw [(kept.confined takes).error_iff, Permutation.not_spans_iff]
  unchanged := fun takes _ failed => (kept.confined takes).after_eq failed
  call_unchanged := fun call _ failed => kept.call_unchanged call failed

end Store

namespace Client

variable {p : Permutation Station} {s : Store} {σ : Type} {V : Entry → Prop}

theorem settle_outside (kept : s.Keeps p V) {i : Instance} (outside : ¬ p.Spans (elements i))
    (c : Client σ) (r : Finding) : (c.settle s i r).value =
      (c, if r.report.decides = true then { s with issued := s.issued + 1 } else s) := by
  rw [value_settle]
  split
  · -- The key is issued before the record is refused, and is not taken back.
    let keyed : Store := { s with issued := s.issued + 1 }
    have keptToo : keyed.Keeps p V := ⟨kept.solutions, kept.refutations⟩
    let key := i.name.getD "instance" ++ "#" ++ toString s.issued.toNat
    obtain ⟨f, refused⟩ : ∃ f, (Store.record i r key).outcome keyed = (.error f, keyed) :=
      keptToo.record_outside outside
    have recorded : (recording i r).outcome s = (.error f, keyed) :=
      (Action.outcome_bind_ok rfl).trans refused
    rw [recorded]
  · rfl

/-- A client is told by its own solver, which it calls once. The store is left as it is but for a
key, which goes to a result that decides. If the time that the store took does not fit in, the
client has no answer, and no key is taken. -/
structure Unaided (oracle : Oracle σ) (c : Client σ) (s : Store) (i : Instance)
    (elapsed : Duration) : Prop where
  told : ∀ fits : (oracle i c.inner).1.runtime.Fits elapsed,
    (c.solve oracle s i elapsed).value =
      (.ok { (oracle i c.inner).1 with
          runtime := (oracle i c.inner).1.runtime.sum elapsed fits },
        { c with inner := (oracle i c.inner).2 },
        if (oracle i c.inner).1.report.decides = true then { s with issued := s.issued + 1 } else s)
  untold : ¬ (oracle i c.inner).1.runtime.Fits elapsed → (c.solve oracle s i elapsed).value =
    (.error ⟨(oracle i c.inner).1.runtime, elapsed⟩, { c with inner := (oracle i c.inner).2 }, s)

/-- A client that is asked an instance outside of the universe is on its own. -/
theorem unaided_outside (kept : s.Keeps p V) {i : Instance} (outside : ¬ p.Spans (elements i))
    (oracle : Oracle σ) (c : Client σ) (elapsed : Duration) :
    Unaided oracle c s i elapsed := by
  have missed : (consult s i elapsed).value = none := by
    rw [value_consult, Action.result_of_outcome ((kept.confined_lookup i).refused outside)]
  constructor
  · intro fits
    rw [value_solve, missed]
    simp only [Finding.delayed_of_fits fits]
    rw [settle_outside kept outside]
  · intro long
    rw [value_solve, missed]
    simp only [Finding.delayed_of_not_fits long]

/-- The faults of every index and every store that is reached are exact and change nothing; and a
client of such a store that is asked an instance outside of the universe is told by its own solver,
leaves the entries as they are, and takes a key only for a result that decides. -/
theorem strict_of_reached :
    (∀ {E C : Type} [DecidableEq E] [HasElements C E] [BEq C] (p : Permutation E)
      (ix : Index E C), ix.Made p → ix.Strict p) ∧
    ∀ (p : Permutation Station) (s : Store), Store.Reachable p s → s.Strict p ∧
      ∀ {σ : Type} (oracle : Oracle σ) (c : Client σ) (i : Instance) (elapsed : Duration),
        (∃ st ∈ i.stations, st ∉ p.elements) → Unaided oracle c s i elapsed := by
  constructor
  · rintro E C _ _ _ p _ ⟨calls, rfl⟩
    obtain ⟨_, holds⟩ := Index.holds_run p calls
    exact holds.strict
  · intro p s reachable
    refine ⟨reachable.keeps.strict, ?_⟩
    rintro σ oracle c i elapsed ⟨st, member, beyond⟩
    have outside : ¬ p.Spans (elements i) :=
      Permutation.not_spans_iff.mpr ⟨st, Std.ExtTreeSet.mem_toList.mpr member, beyond⟩
    exact unaided_outside reachable.keeps outside oracle c elapsed

/-- An index that has refused an entry; and a solver that assigns a station that the store does not
know, so that a key is taken in vain, unless it has been at work for as long as can be told. -/
theorem strict_sample :
    let p : Permutation Nat := ⟨[30, 10, 20], by decide, by decide⟩
    let ix := (Index.empty p).run
      [.insert [10, 20], .insert [20, 40], .insert [30], .erase [10, 40], .erase [10, 20]]
    let busy (runtime : Duration) : Oracle Nat := fun _ calls =>
      (⟨.satisfiable, some (.ofList [(2, 15), (9, 14)] compare), "test", runtime⟩, calls + 1)
    let tick : Duration := ⟨1, by decide⟩
    (ix.Made p ∧ ix.Strict p ∧ ix.entries = [[30]] ∧
      (Index.Shared.insert [20, 40]).result ix = .error .unknownElement ∧
      (Index.Shared.insert [20, 40]).after ix = ix) ∧
    Store.Reachable Store.trio Store.sample ∧ Store.sample.Strict Store.trio ∧
    9 ∈ (Instance.ofStations [2, 9]).stations ∧ 9 ∉ Store.trio.elements ∧
    ((fresh 0).solve (busy ⟨30, by decide⟩) Store.sample (.ofStations [2, 9]) tick).value =
      (.ok ⟨.satisfiable, some (.ofList [(2, 15), (9, 14)] compare), "test", ⟨31, by decide⟩⟩,
        ⟨1, 0⟩, { Store.sample with issued := 1 }) ∧
    ((fresh 0).solve (busy .longest) Store.sample (.ofStations [2, 9]) tick).value =
      (.error ⟨.longest, tick⟩, ⟨1, 0⟩, Store.sample) := by
  intro p ix busy tick
  have made : ix.Made p := ⟨_, rfl⟩
  have strictIx : ix.Strict p := strict_of_reached.1 p ix made
  have listed : ix.entries = [[30]] := by decide
  have refused : (Index.Shared.insert [20, 40]).result ix = .error .unknownElement :=
    (strictIx.error_iff (.insert [20, 40]) _).mpr ⟨rfl, 40, by decide, by decide⟩
  have kept := strictIx.unchanged (.insert [20, 40]) _ refused
  have reachable := Store.reachable_sample
  have member : 9 ∈ (Instance.ofStations [2, 9]).stations := by decide
  have beyond : 9 ∉ Store.trio.elements := by decide
  obtain ⟨strict, alone⟩ := strict_of_reached.2 Store.trio Store.sample reachable
  exact ⟨⟨made, strictIx, listed, refused, kept⟩, reachable, strict, member, beyond,
    (alone (busy ⟨30, by decide⟩) (fresh 0) _ tick ⟨9, member, beyond⟩).told (by decide),
    (alone (busy .longest) (fresh 0) _ tick ⟨9, member, beyond⟩).untold (by decide)⟩

end Client

end Repack
