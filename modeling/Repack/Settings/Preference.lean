/-!
How to choose between several candidates that would all do.
-/
namespace Repack

inductive Preference
  | earliest
  | smallest
  deriving DecidableEq, Repr

namespace Preference

def name : Preference → String
  | earliest => "FirstInOrder"
  | smallest => "SmallestCardinality"

def all : List Preference := [earliest, smallest]

def ofName? (s : String) : Option Preference := all.find? (·.name == s)

theorem ofName?_name (t : Preference) : ofName? t.name = some t := by cases t <;> decide

def rank : Preference → Nat
  | earliest => 0
  | smallest => 1

instance : Ord Preference := ⟨fun a b => compare a.rank b.rank⟩

/-- The first candidate, or the first of those that measure least. -/
def select {α : Type} (t : Preference) (measure : α → Nat) (candidates : List α) : Option α :=
  match t with
  | earliest => candidates.head?
  | smallest => candidates.minOn? measure

/-- Whether `select` measures candidates at all. -/
def measures {α : Type} (t : Preference) (candidates : List α) : Bool :=
  match t with
  | earliest => false
  | smallest => !candidates.isEmpty

end Preference

end Repack
