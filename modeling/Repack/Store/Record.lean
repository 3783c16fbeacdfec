import Repack.Store.Basic

/-!
Recording what a solver found. A satisfiable result becomes a solution over the stations of the
instance alone, an unsatisfiable one a refutation with the domains of the instance; no other result
is recorded.
-/
namespace Repack.Store

/-- The channels of all stations of an instance; refused with the least station that has none. -/
def witness (i : Instance) (assignment : Assignment) : Attempt Assignment := do
  let pairs ← i.stations.toList.mapM fun s =>
    match assignment[s]? with
    | some c => pure (s, c)
    | none => do
      Attempt.log (.missingChannel s)
      throw (.incompleteAssignment s)
  pure (.ofList pairs compare)

def entryOf (i : Instance) (r : Finding) (key : String) : Attempt Entry :=
  match r.report with
  | .satisfiable =>
    match r.assignment with
    | some assignment => do
      let w ← witness i assignment
      pure (.solution ⟨w, key, r.solver⟩)
    | none => do
      Attempt.log .missingAssignment
      throw .missingAssignment
  | .unsatisfiable => pure (.refutation (.ofInstance i key))
  | report => do
    Attempt.log (.inconclusive report)
    throw (.inconclusive report)

/-- Adds the entry that a result makes, and gives it. -/
def record (i : Instance) (r : Finding) (key : String) : Action Store Entry := do
  let entry ← Action.query fun _ => entryOf i r key
  let _ ← insert entry
  pure entry

end Repack.Store
