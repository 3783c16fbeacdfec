import Repack.Journal.Logged

/-!
Named settings with bounds. Values need only be partly ordered: a setting refuses a value that is
below its least value or above its greatest, so one that compares with neither is taken.
-/
namespace Repack

/-- A comparison that may leave two values without an order. -/
class PartialCompare (α : Type) where
  compare? : α → α → Option Ordering

export PartialCompare (compare?)

instance (priority := low) {α : Type} [Ord α] : PartialCompare α := ⟨fun a b => some (compare a b)⟩

/-- Numbers compare by value; a value that is not a number compares with none. -/
instance : PartialCompare Float where
  compare? a b :=
    if a < b then some .lt else if a == b then some .eq else if b < a then some .gt else none

/-- Whether a value comes before another. -/
def precedes {α : Type} [PartialCompare α] (a b : α) : Bool := compare? a b == some .lt

structure Setting (α : Type) where
  name : String
  min : α
  max : α
  value : α
  deriving DecidableEq

namespace Setting

variable {α : Type}

def bounds (s : Setting α) : α × α := (s.min, s.max)

/-- Replaces the bounds, whatever the value. -/
def rebound (s : Setting α) (min max : α) : Setting α := { s with min, max }

/-- Takes a value that is neither below the bounds nor above them. -/
def assign [PartialCompare α] (value : α) : Action (Setting α) Unit := do
  let s ← get
  if precedes value s.min || precedes s.max value then
    Action.log (.outOfBounds s.name)
    throw (.outOfBounds s.name)
  set { s with value }

end Setting

end Repack
