import Repack.Entry.Basic

/-!
Answers by looking at everything that is stored, for want of an index or to check one.
-/
namespace Repack.Exhaustive

abbrev StationSet := Std.ExtTreeSet Station

def sorted (sets : List StationSet) : List StationSet :=
  sets.mergeSort fun a b => (compare a.toList b.toList).isLE

def isSubset (a b : StationSet) : Bool := a.all fun s => b.contains s

/-- The stored sets within a set, repeats kept. -/
def within (stored : List StationSet) (query : StationSet) : List StationSet :=
  sorted (stored.filter fun a => isSubset a query)

/-- The stored sets around a set, repeats kept. -/
def around (stored : List StationSet) (query : StationSet) : List StationSet :=
  sorted (stored.filter fun a => isSubset query a)

/-- Whether any of the solutions puts every station on an admitted channel. -/
def satisfiable (solutions : List Solution) (i : Instance) : Bool :=
  solutions.any fun a => i.stations.toList.all fun s =>
    match a.assignment[s]? with
    | some c => i.admits s c
    | none => false

/-- Whether any of the refutations has only stations of the instance, each with a domain at least
as wide. -/
def refutable (refutations : List Refutation) (i : Instance) : Bool :=
  refutations.any fun a => a.stations.toList.all fun s =>
    i.stations.contains s && Domain.covers a.domains[s]? i.domains[s]?

end Repack.Exhaustive
