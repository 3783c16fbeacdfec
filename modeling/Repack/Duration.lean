/-!
Spans of time, in nanoseconds. A span is as long as 64 bits of seconds and a fraction of one more
second can tell, and no longer: the sum of two may not fit.
-/
namespace Repack

/-- So many nanoseconds are too many. -/
def Duration.limit : Nat := UInt64.size * 1000000000

structure Duration where
  nanoseconds : Nat
  lt_limit : nanoseconds < Duration.limit
  deriving DecidableEq, Repr

namespace Duration

def zero : Duration := ⟨0, by decide⟩

def longest : Duration := ⟨limit - 1, by decide⟩

/-- Two spans whose sum does not fit. -/
structure Overflow where
  first : Duration
  second : Duration
  deriving DecidableEq, Repr

def Overflow.message (_ : Overflow) : String := "overflow when adding durations"

/-- Whether a sum fits. -/
def Fits (a b : Duration) : Prop := a.nanoseconds + b.nanoseconds < limit

instance (a b : Duration) : Decidable (a.Fits b) := inferInstanceAs (Decidable (_ < _))

def sum (a b : Duration) (fits : a.Fits b) : Duration := ⟨a.nanoseconds + b.nanoseconds, fits⟩

def add (a b : Duration) : Except Overflow Duration :=
  if fits : a.Fits b then .ok (a.sum b fits) else .error ⟨a, b⟩

end Duration

end Repack
