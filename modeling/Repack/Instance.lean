import Repack.Elements
import Repack.Station

/-!
Instances ask for a channel for each of some stations. A station without a domain may be put on any
channel. A domain may be kept for a station that is not (yet) part of the instance.
-/
namespace Repack

structure Instance where
  stations : Std.ExtTreeSet Station
  domains : Domains
  name : Option String
  deriving DecidableEq

/-- Whether every channel of the inner domain is in the outer one; no domain means every channel. -/
def Domain.covers : Option Domain → Option Domain → Bool
  | none, _ => true
  | some _, none => false
  | some outer, some inner => inner.all fun c => outer.contains c

namespace Instance

def empty : Instance := ⟨∅, ∅, none⟩

/-- Some stations, each on any channel. -/
def ofStations (stations : List Station) : Instance := ⟨.ofList stations compare, ∅, none⟩

/-- The stations of some domains, each restricted to its domain; a later domain of a station
replaces an earlier one. -/
def ofDomains (domains : List (Station × Domain)) : Instance :=
  ⟨.ofList (domains.map Prod.fst) compare, .ofList domains compare, none⟩

/-- Adds a station, and leaves its domain as it is. -/
def addStation (i : Instance) (s : Station) : Instance := { i with stations := i.stations.insert s }

/-- Adds a station, restricted to a domain. -/
def restrict (i : Instance) (s : Station) (d : Domain) : Instance :=
  { i with stations := i.stations.insert s, domains := i.domains.insert s d }

def rename (i : Instance) (name : String) : Instance := { i with name := some name }

/-- Whether a station is part of the instance and may be put on a channel. -/
def admits (i : Instance) (s : Station) (c : Channel) : Bool :=
  i.stations.contains s && i.domains[s]?.all fun d => d.contains c

def size (i : Instance) : Nat := i.stations.size

def isEmpty (i : Instance) : Bool := i.stations.isEmpty

instance : HasElements Instance Station := ⟨fun i => i.stations.toList⟩

end Instance

end Repack
