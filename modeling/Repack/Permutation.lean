import Repack.Journal.Logged

/-!
Permutations lay the elements of a universe out on the positions 0..N, one element to a position,
and so turn sets of elements into bit sets and back. A map of elements to positions is accepted
when every position below its size is taken (`Placement.slot`); that this makes it a bijection is
a matter of counting, and is not checked.
-/
namespace Repack

/-- A position for each of some elements, each element listed once, in any order. -/
structure Placement (E : Type) where
  pairs : List (E × Nat)
  nodup_elements : (pairs.map Prod.fst).Nodup

namespace Placement

variable {E : Type}

def lastPairs [DecidableEq E] : List (E × Nat) → List (E × Nat)
  | [] => []
  | p :: ps => if p.1 ∈ ps.map Prod.fst then lastPairs ps else p :: lastPairs ps

theorem mem_of_mem_lastPairs [DecidableEq E] {ps : List (E × Nat)} {q : E × Nat}
    (h : q ∈ lastPairs ps) : q ∈ ps := by
  induction ps with
  | nil => exact h
  | cons p ps ih =>
    rw [lastPairs] at h
    split at h
    · exact List.mem_cons_of_mem _ (ih h)
    · rcases List.mem_cons.1 h with rfl | h
      · exact List.mem_cons_self
      · exact List.mem_cons_of_mem _ (ih h)

theorem nodup_lastPairs [DecidableEq E] (ps : List (E × Nat)) :
    ((lastPairs ps).map Prod.fst).Nodup := by
  induction ps with
  | nil => exact List.nodup_nil
  | cons p ps ih =>
    rw [lastPairs]
    split
    · exact ih
    · next h =>
      rw [List.map_cons, List.nodup_cons]
      refine ⟨fun hmem => h ?_, ih⟩
      obtain ⟨q, hq, hqp⟩ := List.mem_map.1 hmem
      exact hqp ▸ List.mem_map_of_mem (mem_of_mem_lastPairs hq)

/-- A later pair for an element replaces an earlier one. -/
def ofList [DecidableEq E] (ps : List (E × Nat)) : Placement E := ⟨lastPairs ps, nodup_lastPairs ps⟩

def size (m : Placement E) : Nat := m.pairs.length

/-- The element that ends up on a position when the pairs are placed in turn: the last one mapped
to it. -/
def slot (m : Placement E) (p : Nat) : Option E :=
  (m.pairs.reverse.find? fun q => q.2 == p).map Prod.fst

theorem mem_of_slot {m : Placement E} {p : Nat} {e : E} (h : m.slot p = some e) :
    (e, p) ∈ m.pairs := by
  obtain ⟨⟨e', p'⟩, hq, rfl⟩ := Option.map_eq_some_iff.1 h
  have hp : p' = p := by simpa using List.find?_some hq
  exact hp ▸ List.mem_reverse.1 (List.mem_of_find?_eq_some hq)

theorem position_unique {m : Placement E} {e : E} {i j : Nat} (hi : (e, i) ∈ m.pairs)
    (hj : (e, j) ∈ m.pairs) : i = j := by
  have h := m.nodup_elements
  revert hi hj h
  generalize m.pairs = ps
  induction ps with
  | nil => intro hi; cases hi
  | cons p ps ih =>
    intro hi hj h
    rw [List.map_cons, List.nodup_cons] at h
    rcases List.mem_cons.1 hi with rfl | hi <;> rcases List.mem_cons.1 hj with hj | hj
    · exact (congrArg Prod.snd hj).symm
    · exact absurd (List.mem_map.2 ⟨_, hj, rfl⟩) h.1
    · exact absurd (List.mem_map.2 ⟨_, hi, (congrArg Prod.fst hj : e = p.1)⟩) h.1
    · exact ih hi hj h.2

theorem nodup_slots (m : Placement E) (n : Nat) : ((List.range n).filterMap m.slot).Nodup := by
  refine List.pairwise_filterMap.2 (List.nodup_range.imp fun hij a ha b hb hab => hij ?_)
  exact position_unique (mem_of_slot ha) (hab ▸ mem_of_slot hb)

end Placement

/-- The elements of a universe, in order of position. -/
structure Permutation (E : Type) where
  elements : List E
  nodup : elements.Nodup
  ne_nil : elements ≠ []
  deriving DecidableEq

/-- A reordering of lists, left open. -/
structure Shuffle (E : Type) where
  reorder : List E → List E
  perm : ∀ l, (reorder l).Perm l

def Shuffle.id (E : Type) : Shuffle E := ⟨fun l => l, fun _ => .refl _⟩

namespace Permutation

variable {E : Type}

/-- The permutation with the listed elements on positions 0, 1, … -/
def ofElements (elements : List E) (nodup : elements.Nodup) : Attempt (Permutation E) :=
  if h : elements = [] then do
    Attempt.log .emptyUniverse
    throw .emptyUniverse
  else pure ⟨elements, nodup, h⟩

/-- The permutation of a map to positions, refused if it is empty, or else with the least position
that nothing is mapped to. -/
def ofPlacement (m : Placement E) : Attempt (Permutation E) :=
  match (List.range m.size).find? fun p => (m.slot p).isNone with
  | some p => do
    Attempt.log (.missingPosition p)
    throw (.missingPosition p)
  | none => ofElements ((List.range m.size).filterMap m.slot) (m.nodup_slots _)

theorem nodup_toList [Ord E] [Std.TransOrd E] [Std.LawfulEqOrd E] (s : Std.ExtTreeSet E) :
    s.toList.Nodup :=
  s.distinct_toList.imp fun h hab => h (Std.LawfulEqCmp.compare_eq_iff_eq.2 hab)

/-- The elements of a universe, each once and ascending, on ascending positions. -/
def ofUniverse [Ord E] [Std.TransOrd E] [Std.LawfulEqOrd E] (members : List E) :
    Attempt (Permutation E) :=
  ofElements (Std.ExtTreeSet.ofList members compare).toList (nodup_toList _)

/-- The elements of a universe, each once, in the order of a shuffle. -/
def shuffled [Ord E] [Std.TransOrd E] [Std.LawfulEqOrd E] (shuffle : Shuffle E)
    (members : List E) : Attempt (Permutation E) :=
  let sorted := (Std.ExtTreeSet.ofList members compare).toList
  ofElements (shuffle.reorder sorted) ((shuffle.perm sorted).nodup_iff.2 (nodup_toList _))

def size (p : Permutation E) : Nat := p.elements.length

def isEmpty (p : Permutation E) : Bool := p.elements.isEmpty

def element? (p : Permutation E) (i : Nat) : Option E := p.elements[i]?

/-- The elements at the positions of a bit set, in order of position; positions at or beyond the
size have none. -/
def decode (p : Permutation E) (bits : BitSet) : List E := bits.ones.filterMap p.element?

variable [DecidableEq E]

def position? (p : Permutation E) (e : E) : Option Nat := p.elements.idxOf? e

def contains (p : Permutation E) (e : E) : Bool := (p.position? e).isSome

/-- The bit set of some elements, refused if one is outside of the universe. -/
def bitSet (p : Permutation E) (elements : List E) : Attempt BitSet :=
  elements.foldlM (fun bits e => do
    match p.position? e with
    | some i => Attempt.ofExcept ((bits.set i).mapError Fault.beyondWidth)
    | none =>
      Attempt.log .unknownElement
      throw .unknownElement) (BitSet.empty p.size)

end Permutation

end Repack
