import Repack.Instance

/-!
Solutions: an assignment known to be sound, under a key, credited to a solver. A solution solves
every instance whose stations it puts on admitted channels.
-/
namespace Repack

structure Solution where
  assignment : Assignment
  key : String
  solver : String
  deriving DecidableEq

namespace Solution

/-- Whether every station of an instance has an admitted channel. -/
def solves (a : Solution) (i : Instance) : Bool :=
  i.stations.all fun s => a.assignment[s]?.any fun c => i.admits s c

/-- The number of stations on a channel that an instance admits. -/
def agreement (a : Solution) (i : Instance) : Nat :=
  a.assignment.toList.countP fun (s, c) => i.admits s c

/-- Whether a solution extends a different one, and so solves all that the other solves. -/
def subsumes (a b : Solution) : Bool :=
  a != b && b.assignment.size ≤ a.assignment.size &&
    b.assignment.toList.all fun (s, c) => a.assignment[s]? == some c

instance : HasElements Solution Station := ⟨fun a => a.assignment.keys⟩

end Repack.Solution
