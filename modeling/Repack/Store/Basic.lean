import Repack.Entry.Basic
import Repack.Index.Shared
import Repack.Settings.Basic

/-!
A store keeps solutions and refutations, each in an index of its own over one permutation of the
stations, and issues keys for new entries.
-/
namespace Repack

structure Store where
  settings : Settings
  solutions : Index Station Solution
  refutations : Index Station Refutation
  /-- The number of keys issued so far. -/
  issued : UInt64

namespace Store

def empty (settings : Settings) (permutation : Permutation Station) : Store :=
  ⟨settings, .empty permutation, .empty permutation, 0⟩

def permutation (s : Store) : Permutation Station := s.solutions.permutation

/-- A store without entries that is otherwise the same, and has issued no keys. -/
def cleared (s : Store) : Store := empty s.settings s.permutation

def onSolutions {α : Type} (x : Action (Index Station Solution) α) : Action Store α :=
  .zoom Store.solutions (fun solutions s => { s with solutions }) x

def onRefutations {α : Type} (x : Action (Index Station Refutation) α) : Action Store α :=
  .zoom Store.refutations (fun refutations s => { s with refutations }) x

/-- Issues a key that starts with a stem; the number after it is never issued twice. -/
def issueKey (stem : String) : Action Store String := do
  let s ← get
  set { s with issued := s.issued + 1 }
  pure (stem ++ "#" ++ toString s.issued.toNat)

def insertSolution (a : Solution) : Action Store Bool := do
  Action.log (.adding .sat a.key (cardinality a))
  onSolutions (Index.Shared.insert a)

def insertRefutation (a : Refutation) : Action Store Bool := do
  Action.log (.adding .unsat a.key (cardinality a))
  onRefutations (Index.Shared.insert a)

/-- Adds an entry to the index of its kind, and tells whether it was new. -/
def insert : Entry → Action Store Bool
  | .solution a => insertSolution a
  | .refutation a => insertRefutation a

/-- Adds entries in turn, up to the first that is refused. -/
def insertAll (entries : List Entry) : Action Store (List Bool) := entries.mapM insert

/-- Removes an entry from the index of its kind, and tells whether it was present. -/
def erase : Entry → Action Store Bool
  | .solution a => onSolutions (Index.Shared.erase a)
  | .refutation a => onRefutations (Index.Shared.erase a)

def contains : Entry → Action Store Bool
  | .solution a => onSolutions (Index.Shared.contains a)
  | .refutation a => onRefutations (Index.Shared.contains a)

def allSolutions : Action Store (List Solution) := onSolutions Index.Shared.entries

def allRefutations : Action Store (List Refutation) := onRefutations Index.Shared.entries

/-- All entries, the solutions before the refutations. -/
def entries : Action Store (List Entry) := do
  let solutions ← allSolutions
  let refutations ← allRefutations
  pure (solutions.map .solution ++ refutations.map .refutation)

/-- The keys of the solutions over subsets or supersets of what a value stands for. -/
def solutionKeys {Q : Type} [HasElements Q Station] (containment : Containment) (query : Q) :
    Action Store (List String) := do
  pure ((← onSolutions (Index.Shared.find containment query)).map Solution.key)

/-- The keys of the refutations over subsets or supersets of what a value stands for. -/
def refutationKeys {Q : Type} [HasElements Q Station] (containment : Containment) (query : Q) :
    Action Store (List String) := do
  pure ((← onRefutations (Index.Shared.find containment query)).map Refutation.key)

end Store

end Repack
