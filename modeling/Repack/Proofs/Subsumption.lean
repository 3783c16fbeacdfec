import Repack.Proofs.Entry

/-! Subsumption is exactly what it stands for: one entry subsumes another when it is a different one
and decides every instance that the other decides. Each entry decides an instance that tells whether
another entry falls short of it: a solution the one that admits its own channels only, a refutation
the one with its own stations and domains. -/
namespace Repack

theorem Domain.covers_refl (d : Option Domain) : covers d d = true :=
  covers_iff.mpr fun e held => ⟨e, held, fun _ member => member⟩

namespace Solution

variable {a b : Solution}

/-- Each station of a solution, with its channel as a domain. -/
def channels (a : Solution) : List (Station × Domain) :=
  a.assignment.toList.map fun (s, c) => (s, {c})

/-- The instance with the stations of a solution, each restricted to its channel. -/
def pinned (a : Solution) : Instance := .ofDomains a.channels

theorem map_fst_channels (a : Solution) : a.channels.map Prod.fst = a.assignment.keys := by
  rw [channels, List.map_map, ← Std.ExtTreeMap.map_fst_toList_eq_keys]
  rfl

theorem mem_stations_pinned {s : Station} : s ∈ a.pinned.stations ↔ s ∈ a.assignment := by
  rw [pinned, Instance.ofDomains, map_fst_channels, Std.ExtTreeSet.mem_ofList,
    List.contains_iff_mem, Std.ExtTreeMap.mem_keys]

theorem getElem?_domains_pinned (a : Solution) (s : Station) :
    a.pinned.domains[s]? = a.assignment[s]?.map fun c => {c} := by
  have read : ∀ pair ∈ a.channels, a.assignment[pair.1]?.map (fun c => {c}) = some pair.2 := by
    intro pair member
    obtain ⟨⟨t, c⟩, held, rfl⟩ := List.mem_map.mp member
    rw [Std.ExtTreeMap.mem_toList_iff_getElem?_eq_some.mp held]
    rfl
  rw [pinned, Instance.ofDomains,
    getElem?_ofList (f := fun s => a.assignment[s]?.map fun c => {c}) read, map_fst_channels]
  split
  · rfl
  · next missing =>
    rw [Std.ExtTreeMap.mem_keys] at missing
    rw [Std.ExtTreeMap.getElem?_eq_none missing]
    rfl

theorem admits_pinned {s : Station} {c : Channel} :
    a.pinned.admits s c = true ↔ a.assignment[s]? = some c := by
  rw [Instance.admits_iff, mem_stations_pinned, getElem?_domains_pinned,
    Std.ExtTreeMap.mem_iff_isSome_getElem?]
  cases a.assignment[s]? with
  | none => simp
  | some d => simp [Std.LawfulEqCmp.compare_eq_iff_eq]

/-- What is restricted to the channels of a solution is solved by those that extend it. -/
theorem solves_pinned_iff : a.solves b.pinned = true ↔ a.Extends b := by
  rw [solves_iff]
  constructor
  · intro solved s c held
    have member : s ∈ b.pinned.stations := by
      rw [mem_stations_pinned, Std.ExtTreeMap.mem_iff_isSome_getElem?, held]
      rfl
    obtain ⟨d, assigned, admitted⟩ := solved s member
    rw [admits_pinned, held] at admitted
    rw [assigned, admitted]
  · intro wider s member
    rw [mem_stations_pinned, Std.ExtTreeMap.mem_iff_isSome_getElem?] at member
    obtain ⟨c, held⟩ := Option.isSome_iff_exists.mp member
    exact ⟨c, wider s c held, admits_pinned.mpr held⟩

theorem subsumes_iff_solves : a.subsumes b = true ↔
    a ≠ b ∧ ∀ i : Instance, b.solves i = true → a.solves i = true := by
  rw [subsumes_iff]
  apply and_congr_right
  intro _
  constructor
  · exact fun wider i solved => wider.solves solved
  · intro decides
    exact solves_pinned_iff.mp (decides b.pinned (solves_pinned_iff.mpr fun _ _ held => held))

end Solution

namespace Refutation

variable {a b : Refutation}

/-- The instance that a refutation is about. -/
def subject (a : Refutation) : Instance := ⟨a.stations, a.domains, none⟩

theorem refutes_subject (a : Refutation) : a.refutes a.subject = true :=
  refutes_iff.mpr ⟨fun _ member => member, fun _ _ => Domain.covers_refl _⟩

theorem subsumes_iff_refutes : a.subsumes b = true ↔
    a ≠ b ∧ ∀ i : Instance, b.refutes i = true → a.refutes i = true := by
  constructor
  · intro wider
    exact ⟨(subsumes_iff.mp wider).1, fun i refuted => refutes_of_subsumes wider refuted⟩
  · rintro ⟨differs, decides⟩
    exact subsumes_iff.mpr ⟨differs, refutes_iff.mp (decides b.subject b.refutes_subject)⟩

end Refutation

/-- The tests for redundancy are exact, whatever domains entries and instances have. -/
theorem subsumes_exact :
    (∀ a b : Solution, a.subsumes b = true ↔
      a ≠ b ∧ ∀ i : Instance, b.solves i = true → a.solves i = true) ∧
    ∀ a b : Refutation, a.subsumes b = true ↔
      a ≠ b ∧ ∀ i : Instance, b.refutes i = true → a.refutes i = true :=
  ⟨fun _ _ => Solution.subsumes_iff_solves, fun _ _ => Refutation.subsumes_iff_refutes⟩

end Repack
