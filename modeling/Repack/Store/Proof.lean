import Repack.Store.Basic

/-!
What a store proves of an instance. A solution over at least the stations of the instance may solve
it, and a refutation over at most its stations may refute it; of several that do, the preference of
the settings chooses one.
-/
namespace Repack

/-- What is known of an instance. -/
inductive Verdict
  | satisfiable (assignment : Assignment) (key : String)
  | unsatisfiable (key : String)
  | unknown
  deriving DecidableEq

namespace Verdict

def report : Verdict → Option Report
  | satisfiable _ _ => some .satisfiable
  | unsatisfiable _ => some .unsatisfiable
  | unknown => none

def key : Verdict → Option String
  | satisfiable _ key => some key
  | unsatisfiable key => some key
  | unknown => none

def assignment : Verdict → Option Assignment
  | satisfiable assignment _ => some assignment
  | unsatisfiable _ | unknown => none

end Verdict

/-- An assignment for an instance, and the key of the solution it is taken from. -/
structure SatProof where
  assignment : Assignment
  key : String
  deriving DecidableEq

namespace Store

/-- The proof by a solution that is not ignored. -/
def solutionFor (s : Store) (i : Instance) (ignore : Solution → Bool) :
    Attempt (Option SatProof) := do
  let found ← s.solutions.supersets i
  let candidates := found.filter fun a => !ignore a && a.solves i
  match s.settings.preference.value.select cardinality candidates with
  | some a =>
    Attempt.log (.proven .sat a.key)
    pure (some ⟨a.assignment.restrict i.stations.toList, a.key⟩)
  | none =>
    Attempt.log (.unproven .sat)
    pure none

/-- The key of a refutation of an instance. -/
def refutationFor (s : Store) (i : Instance) : Attempt (Option String) := do
  let found ← s.refutations.subsets i
  let candidates := found.filter fun a => a.refutes i
  match s.settings.preference.value.select cardinality candidates with
  | some a =>
    Attempt.log (.proven .unsat a.key)
    pure (some a.key)
  | none =>
    Attempt.log (.unproven .unsat)
    pure none

/-- Proves an instance satisfiable, without the solutions to ignore. -/
def proveSat (i : Instance) (ignore : Solution → Bool) : Action Store (Option SatProof) :=
  withLock .read (.query (·.solutionFor i ignore))

def proveUnsat (i : Instance) : Action Store (Option String) :=
  withLock .read (.query (·.refutationFor i))

/-- Proves an instance satisfiable, or else unsatisfiable, on one view of both indices. -/
def lookup (i : Instance) : Action Store Verdict :=
  withLock .read <| withLock .read <| .query fun s => do
    match ← s.solutionFor i fun _ => false with
    | some proof => pure (.satisfiable proof.assignment proof.key)
    | none =>
      match ← s.refutationFor i with
      | some key => pure (.unsatisfiable key)
      | none => pure .unknown

/-- The solutions that agree with an instance on the most stations, the best first and equals in
index order: at most so many, and at most as many as the settings allow. -/
def seeds (i : Instance) (k : Nat) : Action Store (List Solution) := do
  let _ ← Action.query fun s => s.permutation.bitSet i.stations.toList
  let s ← get
  let solutions ← allSolutions
  let ranked := solutions.mergeSort fun a b => b.agreement i ≤ a.agreement i
  pure (ranked.take (min k s.settings.seedLimit.value))

end Store

end Repack
