import Repack.BitSet.Basic

/-!
A walk over the positions of a bit set, one at a time. A cursor stands at one word and holds the
bits of it that are still to come. Words without any are passed over, and the walk ends with the
last word.
-/
namespace Repack.BitSet

structure Cursor where
  index : Nat
  /-- What is left of the word at the index. -/
  rest : UInt64
  /-- The words after it. -/
  later : List UInt64

/-- The walk over all positions, at the first word. -/
def start (b : BitSet) : Cursor := ⟨0, b.words.head?.getD 0, b.words.tail⟩

namespace Cursor

/-- The first word from an index on of which something is left. -/
def seek (index : Nat) (rest : UInt64) : List UInt64 → Option Cursor
  | [] => if rest = 0 then none else some ⟨index, rest, []⟩
  | w :: later => if rest = 0 then seek (index + 1) w later else some ⟨index, rest, w :: later⟩

/-- The next position, and the walk after it. -/
def next? (c : Cursor) : Option (Nat × Cursor) :=
  (seek c.index c.rest c.later).map fun c =>
    (64 * c.index + Word.lowest c.rest, { c with rest := Word.withoutLowest c.rest })

end Cursor

end Repack.BitSet
