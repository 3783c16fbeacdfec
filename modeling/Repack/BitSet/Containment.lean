import Repack.BitSet.Basic

/-!
The two questions of containment: which sets lie within a set, and which lie around it.
-/
namespace Repack

inductive Containment
  | subsets
  | supersets
  deriving DecidableEq, Repr

namespace Containment

def name : Containment → String
  | subsets => "Subsets"
  | supersets => "Supersets"

/-- Whether a bit set lies within a query, or around it. -/
def answers (d : Containment) (query candidate : BitSet) : Bool :=
  match d with
  | subsets => candidate.subset query
  | supersets => candidate.superset query

instance : ToString Containment := ⟨name⟩

end Repack.Containment
