import Repack.BitSet.Cursor
import Repack.Proofs.BitSet.Positions

/-! The walk over a bit set gives its positions, and then ends. What is still to come of a walk is
the rest of the word that it stands at, and all later words: passing over a word with nothing left
keeps it, and a step takes the first of it. -/
namespace Repack.BitSet

/-- The positions of some words, numbered from one on. -/
def positionsFrom (k : Nat) (words : List UInt64) : List Nat :=
  (words.zipIdx k).flatMap fun word => (Word.ones word.1).map (64 * word.2 + ·)

theorem positionsFrom_cons (k : Nat) (w : UInt64) (words : List UInt64) :
    positionsFrom k (w :: words) =
      (Word.ones w).map (64 * k + ·) ++ positionsFrom (k + 1) words := rfl

theorem positionsFrom_zero_cons (k : Nat) (words : List UInt64) :
    positionsFrom k (0 :: words) = positionsFrom (k + 1) words := by
  rw [positionsFrom_cons, Word.ones, dif_pos rfl]
  rfl

namespace Cursor

variable {c d : Cursor} {l : List Nat}

/-- The positions still to come. -/
def pending (c : Cursor) : List Nat := positionsFrom c.index (c.rest :: c.later)

theorem seek_zero_cons (k : Nat) (w : UInt64) (later : List UInt64) :
    seek k 0 (w :: later) = seek (k + 1) w later := rfl

theorem seek_of_ne_zero {rest : UInt64} (left : rest ≠ 0) (k : Nat) (later : List UInt64) :
    seek k rest later = some ⟨k, rest, later⟩ := by
  cases later <;> exact if_neg left

/-- Passing over words loses no position. -/
theorem pending_seek (k : Nat) (rest : UInt64) (later : List UInt64) :
    positionsFrom k (rest :: later) = (seek k rest later).elim [] pending := by
  induction later generalizing k rest with
  | nil =>
    by_cases spent : rest = 0
    · rw [spent, positionsFrom_zero_cons]; rfl
    · rw [seek_of_ne_zero spent]; rfl
  | cons w later ih =>
    by_cases spent : rest = 0
    · rw [spent, positionsFrom_zero_cons, seek_zero_cons, ih]
    · rw [seek_of_ne_zero spent]; rfl

theorem rest_ne_zero_of_seek {k : Nat} {rest : UInt64} {later : List UInt64}
    (found : seek k rest later = some c) : c.rest ≠ 0 := by
  induction later generalizing k rest with
  | nil =>
    by_cases spent : rest = 0
    · rw [spent] at found; cases found
    · rw [seek_of_ne_zero spent] at found; cases found; exact spent
  | cons w later ih =>
    by_cases spent : rest = 0
    · rw [spent, seek_zero_cons] at found; exact ih found
    · rw [seek_of_ne_zero spent] at found; cases found; exact spent

/-- A step takes the first position that is still to come. -/
theorem pending_next? (c : Cursor) :
    c.pending = c.next?.elim [] fun (p, d) => p :: d.pending := by
  rw [pending, pending_seek, next?]
  cases found : seek c.index c.rest c.later with
  | none => rfl
  | some d =>
    have first : Word.ones d.rest =
        Word.lowest d.rest :: Word.ones (Word.withoutLowest d.rest) := by
      rw [Word.ones, dif_neg (rest_ne_zero_of_seek found)]
    change d.pending = _
    rw [pending, positionsFrom_cons, first]
    rfl

/-- A walk gives some positions one after the other, and ends with the last of them. -/
inductive Gives : Cursor → List Nat → Prop
  | nil {c : Cursor} : c.next? = none → Gives c []
  | cons {c d : Cursor} {p : Nat} {l : List Nat} :
    c.next? = some (p, d) → Gives d l → Gives c (p :: l)

theorem gives_pending (c : Cursor) : c.Gives c.pending := by
  -- Each step shortens what is to come, by the position that it gives.
  generalize same : c.pending = l
  induction l generalizing c with
  | nil =>
    rw [pending_next?] at same
    cases step : c.next? with
    | none => exact .nil step
    | some next => rw [step] at same; cases same
  | cons p l ih =>
    rw [pending_next?] at same
    cases step : c.next? with
    | none => rw [step] at same; cases same
    | some next =>
      rw [step] at same
      obtain ⟨rfl, rest⟩ := List.cons.inj same
      exact .cons step (ih next.2 rest)

theorem Gives.eq_pending (h : c.Gives l) : l = c.pending := by
  induction h with
  | nil ended => rw [pending_next?, ended]; rfl
  | cons step _ ih => rw [pending_next?, step, ih]; rfl

theorem gives_iff : c.Gives l ↔ l = c.pending :=
  ⟨Gives.eq_pending, fun same => same ▸ c.gives_pending⟩

end Cursor

theorem pending_start (b : BitSet) : b.start.pending = b.ones := by
  change positionsFrom 0 (b.words.head?.getD 0 :: b.words.tail) = positionsFrom 0 b.words
  cases b.words with
  | nil => exact positionsFrom_zero_cons 0 []
  | cons w words => rfl

/-- The walk ends, and has then given the positions of the set. -/
theorem gives_start_iff {b : BitSet} {l : List Nat} : b.start.Gives l ↔ l = b.ones := by
  rw [Cursor.gives_iff, pending_start]

end Repack.BitSet
