import Repack.Index.Basic

/-!
Containment queries. A set within the query is at most the query in the order of bit sets, and a set
around it at least the query, so only that side of the order is compared bit by bit.
-/
namespace Repack.Index

variable {E C : Type}

/-- The side of the ordered sets on which subsets, or supersets, of a query are found. -/
def side (ix : Index E C) (containment : Containment) (bits : BitSet) : List BitSet :=
  match containment with
  | .subsets => ix.sets.toList.takeWhile fun candidate => (compare candidate bits).isLE
  | .supersets => ix.sets.toList.dropWhile fun candidate => (compare candidate bits).isLT

/-- The ordered sets that answer a query, ascending. -/
def answers (ix : Index E C) (containment : Containment) (bits : BitSet) : List BitSet :=
  (ix.side containment bits).filter (containment.answers bits)

def bucket (ix : Index E C) (bits : BitSet) : Attempt (List C) :=
  match ix.buckets[bits]? with
  | some entries => pure entries
  | none => do
    Attempt.log (.missingBucket bits)
    throw .missingBucket

variable [DecidableEq E] {Q : Type} [HasElements Q E]

/-- The buckets that answer a query, in order of their sets. -/
def answering (ix : Index E C) (containment : Containment) (query : Q) :
    Attempt (List (List C)) := do
  let bits ← ix.bitSet query
  Attempt.log (.queried containment bits)
  (ix.answers containment bits).mapM ix.bucket

/-- The entries whose sets lie within the query, or around it, in index order. -/
def find (ix : Index E C) (containment : Containment) (query : Q) : Attempt (List C) := do
  pure (← ix.answering containment query).flatten

def subsets (ix : Index E C) (query : Q) : Attempt (List C) := ix.find .subsets query

def supersets (ix : Index E C) (query : Q) : Attempt (List C) := ix.find .supersets query

def count (ix : Index E C) (containment : Containment) (query : Q) : Attempt Nat := do
  pure ((← ix.answering containment query).foldl (fun n bucket => n + bucket.length) 0)

end Repack.Index
