import Repack.Entry.Refutation
import Repack.Entry.Solution
import Repack.Report

/-!
Entries of a store: solutions and refutations.
-/
namespace Repack

inductive Entry
  | solution (a : Solution)
  | refutation (a : Refutation)
  deriving DecidableEq

namespace Entry

def key : Entry → String
  | solution a => a.key
  | refutation a => a.key

/-- The report that an entry stands by. -/
def report : Entry → Report
  | solution _ => .satisfiable
  | refutation _ => .unsatisfiable

instance : HasElements Entry Station where
  elements
    | solution a => elements a
    | refutation a => elements a

end Entry

end Repack
