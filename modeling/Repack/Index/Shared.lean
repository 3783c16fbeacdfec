import Repack.Index.Query

/-!
An index behind a lock. Each call takes the lock it needs for its whole duration, and records it;
`insertAll` and `keepFirst` make several changes under one lock.
-/
namespace Repack

/-- An action under a lock. -/
def withLock {σ α : Type} (lock : Journal.Lock) (x : Action σ α) : Action σ α := do
  Action.log (.locked lock)
  x

namespace Index.Shared

variable {E C : Type}

def size : Action (Index E C) Nat := withLock .read do pure (← get).size

def total : Action (Index E C) Nat := withLock .read do pure (← get).total

def entries : Action (Index E C) (List C) := withLock .read do pure (← get).entries

variable [DecidableEq E] {Q : Type} [HasElements Q E]

def find (containment : Containment) (query : Q) : Action (Index E C) (List C) :=
  withLock .read (Action.query (·.find containment query))

def count (containment : Containment) (query : Q) : Action (Index E C) Nat :=
  withLock .read (Action.query (·.count containment query))

variable [BEq C] [HasElements C E]

def insert (entry : C) : Action (Index E C) Bool := withLock .write (Index.insert entry)

def erase (entry : C) : Action (Index E C) Bool := withLock .write (Index.erase entry)

def contains (entry : C) : Action (Index E C) Bool :=
  withLock .read (Action.query (·.contains entry))

/-- Adds entries in turn, up to the first that is refused. -/
def insertAll (entries : List C) : Action (Index E C) (List Bool) :=
  withLock .write (entries.mapM Index.insert)

/-- Removes all entries but the first so many. -/
def keepFirst (n : Nat) : Action (Index E C) (List Bool) :=
  withLock .upgradable do ((← get).entries.drop n).mapM Index.erase

end Index.Shared

end Repack
