import Repack.BitSet.Basic
import Repack.Report

/-!
Why a call can fail, each cause with its wording.
-/
namespace Repack

/-- The part of the library a fault belongs to. -/
inductive Fault.Area
  | store
  | settings
  | consistency
  | index
  | permutation
  | bits
  deriving DecidableEq, Repr

inductive Fault
  /-- The report of a result to be stored decides nothing. -/
  | inconclusive (report : Report)
  /-- A satisfiable result came without an assignment. -/
  | missingAssignment
  /-- The assignment of a satisfiable result leaves a station out. -/
  | incompleteAssignment (station : Station)
  /-- The value for a setting is not within its bounds. -/
  | outOfBounds (setting : String)
  /-- An ordered bit set of an index has no bucket. -/
  | missingBucket
  /-- A bucket of an index has no ordered bit set. -/
  | missingFromOrder
  | emptyBucket
  /-- A bit set of an index is not as wide as its permutation. -/
  | widthMismatch
  /-- An element is outside of the universe. -/
  | unknownElement
  /-- A permutation has at least one element. -/
  | emptyUniverse
  /-- Nothing is mapped to a position of a permutation. -/
  | missingPosition (position : Nat)
  | beyondWidth (e : BitSet.BeyondWidth)
  deriving DecidableEq, Repr

namespace Fault

def area : Fault → Area
  | inconclusive _ | missingAssignment | incompleteAssignment _ => .store
  | outOfBounds _ => .settings
  | missingBucket | missingFromOrder | emptyBucket | widthMismatch => .consistency
  | unknownElement => .index
  | emptyUniverse | missingPosition _ => .permutation
  | beyondWidth _ => .bits

/-- The cause alone. -/
def detail : Fault → String
  | inconclusive report => s!"an {report} result cannot be cached"
  | missingAssignment => "satisfiable result without an assignment"
  | incompleteAssignment station => s!"assignment has no channel for station {station}"
  | outOfBounds setting => s!"value for '{setting}' is out of bounds"
  | missingBucket => "bit-vector indexed without a bucket"
  | missingFromOrder => "bucket held for an unindexed bit-vector"
  | emptyBucket => "empty bucket"
  | widthMismatch => "bit-vector width differs from the permutation"
  | unknownElement => "element not in the permutation"
  | emptyUniverse => "empty permutation"
  | missingPosition position => s!"no element is mapped to position {position}"
  | beyondWidth e => e.message

/-- The cause after the part of the library it belongs to; a bit set speaks for itself. -/
def message (f : Fault) : String :=
  match f.area with
  | .store => "cache error: " ++ f.detail
  | .settings => "config error: " ++ f.detail
  | .consistency => "consistency error: " ++ f.detail
  | .index => "index error: " ++ f.detail
  | .permutation => "permutation error: " ++ f.detail
  | .bits => f.detail

instance : ToString Fault := ⟨message⟩

end Fault

/-- Results are equal when both are the same answer, or both the same fault. -/
instance decidableEqExcept {ε α : Type} [DecidableEq ε] [DecidableEq α] :
    DecidableEq (Except ε α)
  | .ok a, .ok b => decidable_of_iff (a = b) (by simp)
  | .error e, .error f => decidable_of_iff (e = f) (by simp)
  | .ok _, .error _ => .isFalse nofun
  | .error _, .ok _ => .isFalse nofun

end Repack
