import Repack.Instance

/-!
Refutations: stations and domains known to admit no assignment, under a key. A refutation refutes
every instance that asks for at least its stations, within its domains.
-/
namespace Repack

structure Refutation where
  stations : Std.ExtTreeSet Station
  domains : Domains
  key : String
  deriving DecidableEq

namespace Refutation

/-- Some stations that cannot be put on any channels together. -/
def ofStations (stations : List Station) (key : String) : Refutation :=
  ⟨.ofList stations compare, ∅, key⟩

/-- An instance that has no assignment; its domains are kept whole. -/
def ofInstance (i : Instance) (key : String) : Refutation := ⟨i.stations, i.domains, key⟩

/-- Whether an instance has all the stations, each within its domain here. -/
def refutes (a : Refutation) (i : Instance) : Bool :=
  a.stations.all (fun s => i.stations.contains s) &&
    a.stations.all fun s => Domain.covers a.domains[s]? i.domains[s]?

/-- Whether a refutation asks for no more than a different one, and so refutes all that the other
refutes. -/
def subsumes (a b : Refutation) : Bool :=
  a != b && a.stations.all (fun s => b.stations.contains s) &&
    a.stations.all fun s => Domain.covers a.domains[s]? b.domains[s]?

instance : HasElements Refutation Station := ⟨fun a => a.stations.toList⟩

end Repack.Refutation
