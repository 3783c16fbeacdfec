import Repack.Proofs.Store.Integrity
import Repack.Proofs.Subsumption

/-! What is proved of one instance and carries over to another. An instance that asks for less than
another is solved by every solution of it, and whatever refutes the weaker instance refutes the
stronger one. A refutation is itself about an instance, and refutes those that this one is weaker
than. -/
namespace Repack

namespace Instance

variable {i j k : Instance} {st : Station} {c : Channel}

/-- Whether an instance asks for less than another: it has only stations of the other, each of them
without a domain, or both with one and with more channels here. -/
structure Weaker (j i : Instance) : Prop where
  stations : ∀ st ∈ j.stations, st ∈ i.stations
  domains : ∀ st ∈ j.stations, j.domains[st]? = none ∨
    ∃ d e, j.domains[st]? = some d ∧ i.domains[st]? = some e ∧ ∀ c ∈ e, c ∈ d

theorem weaker_iff_covers : j.Weaker i ↔ (∀ st ∈ j.stations, st ∈ i.stations) ∧
    ∀ st ∈ j.stations, Domain.covers j.domains[st]? i.domains[st]? = true := by
  have domain (outer inner : Option Domain) : Domain.covers outer inner = true ↔
      outer = none ∨ ∃ d e, outer = some d ∧ inner = some e ∧ ∀ c ∈ e, c ∈ d := by
    cases outer <;> simp [Domain.covers_iff]
  simp only [domain]
  exact ⟨fun weaker => ⟨weaker.stations, weaker.domains⟩, fun ⟨within, each⟩ => ⟨within, each⟩⟩

theorem Weaker.trans (first : k.Weaker j) (second : j.Weaker i) : k.Weaker i := by
  simp only [weaker_iff_covers] at *
  constructor
  · exact fun st member => second.1 st (first.1 st member)
  · exact fun st member => Domain.covers_trans (first.2 st member) (second.2 st (first.1 st member))

/-- A weaker instance admits more, on the stations that it has. -/
theorem Weaker.admits (weaker : j.Weaker i) (member : st ∈ j.stations)
    (admitted : i.admits st c = true) : j.admits st c = true := by
  simp only [admits_iff] at *
  refine ⟨member, ?_⟩
  intro d held
  rcases weaker.domains st member with free | ⟨d', e, held', inner, within⟩
  · cases free.symm.trans held
  · cases held'.symm.trans held
    exact within c (admitted.2 e inner)

theorem Weaker.spans (weaker : j.Weaker i) {p : Permutation Station}
    (inside : p.Spans (elements i)) : p.Spans (elements j) := by
  intro st member
  apply inside st
  apply Std.ExtTreeSet.mem_toList.mpr
  exact weaker.stations st (Std.ExtTreeSet.mem_toList.mp member)

theorem Weaker.solves (weaker : j.Weaker i) {a : Solution} (solved : a.solves i = true) :
    a.solves j = true := by
  simp only [Solution.solves_iff] at *
  intro st member
  obtain ⟨c, held, admitted⟩ := solved st (weaker.stations st member)
  exact ⟨c, held, weaker.admits member admitted⟩

end Instance

namespace Refutation

variable {a : Refutation} {i j : Instance}

/-- A refutation refutes the instances that ask for all that it is about. -/
theorem refutes_iff_weaker : a.refutes i = true ↔ a.subject.Weaker i := by
  rw [refutes_iff, Instance.weaker_iff_covers]
  rfl

/-- Whether an instance is weaker than another can be computed, as the refutation of it does. -/
theorem refutes_ofInstance (key : String) :
    (ofInstance j key).refutes i = true ↔ j.Weaker i := by
  rw [refutes_iff, Instance.weaker_iff_covers]
  rfl

theorem refutes_of_weaker (weaker : j.Weaker i) (refuted : a.refutes j = true) :
    a.refutes i = true :=
  refutes_iff_weaker.mpr ((refutes_iff_weaker.mp refuted).trans weaker)

end Refutation

namespace Store

variable {p : Permutation Station} {s : Store} {i j : Instance} {V : Entry → Prop}

theorem Keeps.proveSat_of_weaker (kept : s.Keeps p V) (weaker : j.Weaker i)
    (proven : ∃ proof, (proveSat i fun _ => false).result s = .ok (some proof)) :
    ∃ proof, (proveSat j fun _ => false).result s = .ok (some proof) := by
  obtain ⟨S, filed, _⟩ := kept.solutions
  obtain ⟨inside, a, member, solved⟩ := (exists_solutionFor_iff filed).mp proven
  exact (exists_solutionFor_iff filed).mpr
    ⟨weaker.spans inside, a, member, weaker.solves solved⟩

theorem Keeps.proveUnsat_of_weaker (kept : s.Keeps p V) (weaker : j.Weaker i)
    (inside : p.Spans (elements i)) (proven : ∃ key, (proveUnsat j).result s = .ok (some key)) :
    ∃ key, (proveUnsat i).result s = .ok (some key) := by
  obtain ⟨R, filed, _⟩ := kept.refutations
  obtain ⟨_, a, member, refuted⟩ := (exists_refutationFor_iff filed).mp proven
  exact (exists_refutationFor_iff filed).mpr
    ⟨inside, a, member, Refutation.refutes_of_weaker weaker refuted⟩

/-- What a store answers of two instances, of which the first is weaker: it is satisfiable if the
second is, and the second is unsatisfiable if it is. -/
structure Monotone (s : Store) (j i : Instance) : Prop where
  proveSat : (∃ proof, (proveSat i fun _ => false).result s = .ok (some proof)) →
    ∃ proof, (Store.proveSat j fun _ => false).result s = .ok (some proof)
  proveUnsat : (∃ key, (proveUnsat j).result s = .ok (some key)) →
    ∃ key, (Store.proveUnsat i).result s = .ok (some key)
  satisfiable : (∃ a key, (lookup i).result s = .ok (.satisfiable a key)) →
    ∃ a key, (lookup j).result s = .ok (.satisfiable a key)
  unknown : (lookup i).result s = .ok .unknown →
    ∃ v, (lookup j).result s = .ok v ∧ ∀ key, v ≠ .unsatisfiable key

/-- The answers of a reachable store are monotone in the instance, for any instance within its
universe. -/
theorem monotone_of_reachable (h : Reachable p s) (weaker : j.Weaker i)
    (inside : p.Spans i.stations.toList) : s.Monotone j i := by
  have sat := h.keeps.proveSat_of_weaker weaker
  have unsat := h.keeps.proveUnsat_of_weaker weaker inside
  constructor
  · exact sat
  · exact unsat
  · rintro ⟨a, key, found⟩
    obtain ⟨⟨b, k⟩, proven⟩ := sat ⟨⟨a, key⟩, result_lookup_eq_ok_iff.mp found⟩
    exact ⟨b, k, result_lookup_eq_ok_iff.mpr proven⟩
  · intro missed
    obtain ⟨v, found⟩ := (h.keeps.confined_lookup j).answers (weaker.spans inside)
    refine ⟨v, found, ?_⟩
    rintro key rfl
    obtain ⟨_, refuted⟩ := result_lookup_eq_ok_iff.mp found
    obtain ⟨_, none⟩ := result_lookup_eq_ok_iff.mp missed
    obtain ⟨k, proven⟩ := unsat ⟨key, refuted⟩
    cases none.symm.trans proven

/-- One station less, and one channel more for another; the third may be put on any. Two stations
that cannot be packed together, on fewer channels; and two instances that nothing decides. -/
theorem monotone_sample :
    let strong := (Instance.ofStations [1, 2]).restrict 3 {16}
    let weak := (Instance.ofStations [2]).restrict 3 {16, 20}
    let packed := (((Instance.ofStations [1]).restrict 2 {20}).restrict 3 {20})
    let loose := (Instance.ofStations [2]).restrict 3 {20, 21}
    let off := (Instance.ofStations [2]).restrict 1 {30}
    let wide := (Instance.ofStations []).restrict 1 {30, 31}
    Reachable trio sample ∧ weak.Weaker strong ∧ trio.Spans strong.stations.toList ∧
    sample.Monotone weak strong ∧
    (proveSat strong fun _ => false).result sample =
      .ok (some ⟨.ofList [(1, 14), (2, 15), (3, 16)] compare, "wide"⟩) ∧
    (proveSat weak fun _ => false).result sample =
      .ok (some ⟨.ofList [(2, 15), (3, 16)] compare, "wide"⟩) ∧
    loose.Weaker packed ∧ trio.Spans packed.stations.toList ∧ sample.Monotone loose packed ∧
    (proveUnsat loose).result sample = .ok (some "pair") ∧
    (proveUnsat packed).result sample = .ok (some "pair") ∧
    wide.Weaker off ∧ trio.Spans off.stations.toList ∧ sample.Monotone wide off ∧
    (lookup off).result sample = .ok .unknown ∧ (lookup wide).result sample = .ok .unknown := by
  intro strong weak packed loose off wide
  have weaker : weak.Weaker strong :=
    (Refutation.refutes_ofInstance "").mp (by decide +kernel)
  have inside : trio.Spans strong.stations.toList := by decide
  have looser : loose.Weaker packed :=
    (Refutation.refutes_ofInstance "").mp (by decide +kernel)
  have within : trio.Spans packed.stations.toList := by decide
  have wider : wide.Weaker off :=
    (Refutation.refutes_ofInstance "").mp (by decide +kernel)
  have known : trio.Spans off.stations.toList := by decide
  refine ⟨reachable_sample, weaker, inside, monotone_of_reachable reachable_sample weaker inside,
    ?_, ?_, looser, within, monotone_of_reachable reachable_sample looser within, ?_, ?_, wider,
    known, monotone_of_reachable reachable_sample wider known, ?_, ?_⟩
  all_goals decide +kernel

end Store

end Repack
