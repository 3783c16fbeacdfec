import Repack.Duration
import Repack.Station

/-!
What a solver reports of an instance, and the result it returns.
-/
namespace Repack

inductive Report
  | satisfiable
  | unsatisfiable
  | timeout
  | unknown
  deriving DecidableEq, Repr

namespace Report

/-- Whether the report decides the instance. -/
def decides : Report → Bool
  | satisfiable | unsatisfiable => true
  | timeout | unknown => false

def name : Report → String
  | satisfiable => "Satisfiable"
  | unsatisfiable => "Unsatisfiable"
  | timeout => "Timeout"
  | unknown => "Unknown"

def all : List Report := [satisfiable, unsatisfiable, timeout, unknown]

def ofName? (s : String) : Option Report := all.find? (·.name == s)

theorem ofName?_name (r : Report) : ofName? r.name = some r := by cases r <;> decide

instance : ToString Report := ⟨name⟩

end Report

/-- A report, who made it, an assignment if one is offered, and the time spent. -/
structure Finding where
  report : Report
  assignment : Option Assignment
  solver : String
  runtime : Duration
  deriving DecidableEq

namespace Finding

variable {r : Finding} {elapsed : Duration}

/-- What was found when some time was spent before. -/
def delayed (r : Finding) (elapsed : Duration) : Except Duration.Overflow Finding :=
  (r.runtime.add elapsed).map fun runtime => { r with runtime }

theorem delayed_of_fits (fits : r.runtime.Fits elapsed) :
    r.delayed elapsed = .ok { r with runtime := r.runtime.sum elapsed fits } := by
  rw [Finding.delayed, Duration.add, dif_pos fits]
  rfl

theorem delayed_of_not_fits (long : ¬ r.runtime.Fits elapsed) :
    r.delayed elapsed = .error ⟨r.runtime, elapsed⟩ := by
  rw [Finding.delayed, Duration.add, dif_neg long]
  rfl

/-- Only the time spent is changed. -/
theorem eq_of_delayed {later : Finding} (added : r.delayed elapsed = .ok later) :
    ∃ runtime, later = { r with runtime } := by
  by_cases fits : r.runtime.Fits elapsed
  · rw [delayed_of_fits fits] at added
    exact ⟨_, (Except.ok.inj added).symm⟩
  · rw [delayed_of_not_fits fits] at added
    cases added

end Finding

end Repack
