import Repack.Store.Basic

/-!
Pruning removes entries that others make redundant. The entries are scanned in index order, and one
is marked when an entry not yet marked makes it redundant; the marked ones go.
-/
namespace Repack

namespace Index

variable {C : Type} [BEq C] [HasElements C Station]

/-- Judges one entry, after so many others: it is marked if an entry over a subset, or a superset,
of its stations that is not marked itself makes it redundant. -/
def judge (ix : Index Station C) (containment : Containment) (subsumes : C → C → Bool)
    (interval : Nat) (marked : List C) (entry : C) (done : Nat) : Attempt (List C) := do
  if 0 < done ∧ done % max interval 1 = 0 then
    Attempt.log (.scanned done ix.total marked.length)
  let others ← ix.find containment entry
  if others.any fun other => !marked.contains other && subsumes other entry then
    Attempt.log .redundant
    pure (marked ++ [entry])
  else pure marked

/-- The redundant entries, in index order. -/
def redundant (ix : Index Station C) (containment : Containment) (subsumes : C → C → Bool)
    (interval : Nat) : Attempt (List C) := do
  let marked ← ix.entries.zipIdx.foldlM (fun marked (entry, done) =>
    ix.judge containment subsumes interval marked entry done) []
  pure (ix.entries.filter marked.contains)

/-- Removes the redundant entries, and gives them. -/
def prune (kind : Journal.Kind) (containment : Containment) (subsumes : C → C → Bool)
    (interval : Nat) : Action (Index Station C) (List C) :=
  withLock .upgradable do
    let removed ← Action.query (·.redundant containment subsumes interval)
    removed.forM fun entry => discard (Index.erase entry)
    Action.log (.pruned kind removed.length)
    pure removed

end Index

namespace Store

/-- Removes the solutions that another solution subsumes. -/
def pruneSolutions : Action Store (List Solution) := do
  let s ← get
  onSolutions (Index.prune .sat .supersets Solution.subsumes s.settings.reportInterval.value)

/-- Removes the refutations that another refutation subsumes. -/
def pruneRefutations : Action Store (List Refutation) := do
  let s ← get
  onRefutations (Index.prune .unsat .subsets Refutation.subsumes s.settings.reportInterval.value)

end Store

end Repack
