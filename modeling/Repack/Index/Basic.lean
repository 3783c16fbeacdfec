import Repack.BitSet.Order
import Repack.Elements
import Repack.Permutation

/-!
An index files entries by the bit set of their elements. Entries over one set share a bucket, in the
order they were added. The bit sets are also kept in order, so that a query looks at one side of the
order only. The two structures and the count of entries are kept in step by `insert` and `erase`,
and `check` compares them.
-/
namespace Repack

structure Index (E C : Type) where
  permutation : Permutation E
  /-- The bit sets with a bucket, in order. -/
  sets : Std.ExtTreeSet BitSet
  buckets : Std.ExtTreeMap BitSet (List C)
  total : Nat

namespace Index

variable {E C : Type}

def empty (permutation : Permutation E) : Index E C := ⟨permutation, ∅, ∅, 0⟩

def size (ix : Index E C) : Nat := ix.sets.size

/-- All entries, by ascending bit set and then in the order of their bucket. -/
def entries (ix : Index E C) : List C :=
  ix.sets.toList.flatMap fun bits => ix.buckets[bits]?.getD []

/-- Whether the ordered sets, the buckets and the count agree; the first disagreement is the
fault. -/
def check (ix : Index E C) : Attempt Unit := do
  if ix.sets.size ≠ ix.buckets.size then
    Attempt.log (.unpairedSets ix.sets.size ix.buckets.size)
    throw .missingFromOrder
  let counted ← ix.sets.toList.foldlM (fun n bits =>
    if bits.width ≠ ix.permutation.size then throw .widthMismatch
    else match ix.buckets[bits]? with
      | none => throw .missingBucket
      | some [] => throw .emptyBucket
      | some bucket => pure (n + bucket.length)) 0
  if counted ≠ ix.total then
    Attempt.log (.miscounted counted ix.total)
    throw .missingBucket

variable [DecidableEq E]

/-- The bit set of what a value stands for. -/
def bitSet {Q : Type} [HasElements Q E] (ix : Index E C) (query : Q) : Attempt BitSet :=
  ix.permutation.bitSet (elements query)

variable [BEq C] [HasElements C E]

/-- Adds an entry last in its bucket, and tells whether it was new. -/
def insert (entry : C) : Action (Index E C) Bool := do
  let bits ← Action.query (·.bitSet entry)
  let ix ← get
  match ix.buckets[bits]? with
  | some bucket =>
    if bucket.any (· == entry) then
      Action.log .alreadyPresent
      pure false
    else
      set { ix with
        buckets := ix.buckets.insert bits (bucket ++ [entry])
        total := ix.total + 1 }
      pure true
  | none =>
    set { ix with
      sets := ix.sets.insert bits
      buckets := ix.buckets.insert bits [entry]
      total := ix.total + 1 }
    pure true

/-- Removes an entry, and tells whether it was present. An emptied bucket goes with its set. -/
def erase (entry : C) : Action (Index E C) Bool := do
  let bits ← Action.query (·.bitSet entry)
  let ix ← get
  match ix.buckets[bits]? with
  | none => pure false
  | some bucket =>
    if bucket.any (· == entry) then
      let rest := bucket.erase entry
      if rest.isEmpty then
        set { ix with
          sets := ix.sets.erase bits
          buckets := ix.buckets.erase bits
          total := ix.total - 1 }
        if ix.sets.contains bits then pure true
        else do
          Action.log (.missingFromOrder bits)
          throw .missingFromOrder
      else
        set { ix with
          buckets := ix.buckets.insert bits rest
          total := ix.total - 1 }
        pure true
    else pure false

def contains (ix : Index E C) (entry : C) : Attempt Bool := do
  let bits ← ix.bitSet entry
  pure ((ix.buckets[bits]?.getD []).any (· == entry))

end Index

end Repack
