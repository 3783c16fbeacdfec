import Repack.BitSet.Word

/-!
Bit sets of a fixed width: sets of positions below the width, stored in 64-bit words. No bit at or
beyond the width is ever stored, so bit sets of one width are equal as soon as they hold the same
positions (`BitSet.ext_contains`).
-/
namespace Repack

structure BitSet where
  width : Nat
  /-- Least significant word first. -/
  words : List UInt64
  length_words : words.length = (width + 63) / 64
  bitAt_eq_false : ∀ p, width ≤ p → Word.bitAt words p = false
  deriving DecidableEq

/-- A position asked of a bit set that is too narrow for it. -/
structure BitSet.BeyondWidth where
  position : Nat
  width : Nat
  deriving DecidableEq, Repr

namespace BitSet

def BeyondWidth.message (e : BeyondWidth) : String :=
  s!"Position {e.position} beyond width {e.width}"

def empty (width : Nat) : BitSet where
  width
  words := List.replicate ((width + 63) / 64) 0
  length_words := List.length_replicate
  bitAt_eq_false := fun _ _ => Word.bitAt_replicate_zero _ _

def contains (b : BitSet) (p : Nat) : Bool := Word.bitAt b.words p

theorem contains_eq_false_of_le {b : BitSet} {p : Nat} (h : b.width ≤ p) : b.contains p = false :=
  b.bitAt_eq_false p h

theorem lt_width_of_contains {b : BitSet} {p : Nat} (h : b.contains p = true) : p < b.width := by
  apply Nat.lt_of_not_le
  intro hle
  rw [contains_eq_false_of_le hle] at h
  cases h

theorem div_lt_length_words {b : BitSet} {p : Nat} (h : p < b.width) : p / 64 < b.words.length := by
  rw [b.length_words]
  omega

theorem bitAt_insert {b : BitSet} {p : Nat} (h : p < b.width) (q : Nat) :
    Word.bitAt (b.words.modify (p / 64) (Word.withBit · (p % 64))) q =
      if p = q then true else b.contains q :=
  Word.bitAt_modify (g := fun _ => true) (div_lt_length_words h)
    (fun w j _ => by
      rw [Word.bit_withBit (Nat.mod_lt _ (by decide))]
      by_cases hj : p % 64 = j <;> simp [hj]) q

theorem bitAt_erase {b : BitSet} {p : Nat} (h : p < b.width) (q : Nat) :
    Word.bitAt (b.words.modify (p / 64) (Word.withoutBit · (p % 64))) q =
      if p = q then false else b.contains q :=
  Word.bitAt_modify (g := fun _ => false) (div_lt_length_words h)
    (fun w j _ => by
      rw [Word.bit_withoutBit (Nat.mod_lt _ (by decide))]
      by_cases hj : p % 64 = j <;> simp [hj]) q

def insert (b : BitSet) (p : Nat) (h : p < b.width) : BitSet where
  width := b.width
  words := b.words.modify (p / 64) (Word.withBit · (p % 64))
  length_words := by rw [List.length_modify, b.length_words]
  bitAt_eq_false := fun q hq => by
    rw [bitAt_insert h, if_neg (by omega), contains_eq_false_of_le hq]

def erase (b : BitSet) (p : Nat) (h : p < b.width) : BitSet where
  width := b.width
  words := b.words.modify (p / 64) (Word.withoutBit · (p % 64))
  length_words := by rw [List.length_modify, b.length_words]
  bitAt_eq_false := fun q hq => by
    rw [bitAt_erase h, if_neg (by omega), contains_eq_false_of_le hq]

/-- Sets bit `p`; refused if the set is too narrow. -/
def set (b : BitSet) (p : Nat) : Except BeyondWidth BitSet :=
  if h : p < b.width then .ok (b.insert p h) else .error ⟨p, b.width⟩

/-- Clears bit `p`; refused if the set is too narrow. -/
def clear (b : BitSet) (p : Nat) : Except BeyondWidth BitSet :=
  if h : p < b.width then .ok (b.erase p h) else .error ⟨p, b.width⟩

/-- The bit set of some positions, set in turn. -/
def ofPositions (width : Nat) (positions : List Nat) : Except BeyondWidth BitSet :=
  positions.foldlM set (empty width)

def count (b : BitSet) : Nat := b.words.foldl (fun n w => n + Word.count w) 0

def isEmpty (b : BitSet) : Bool := b.words.all (· == 0)

/-- The positions, ascending: word by word, each word from its lowest bit up. -/
def ones (b : BitSet) : List Nat :=
  b.words.zipIdx.flatMap fun (w, k) => (Word.ones w).map (64 * k + ·)

/-- Containment, word by word. Sets of different numbers of words are not compared. -/
def subset (a b : BitSet) : Bool :=
  a.words.length == b.words.length && (a.words.zip b.words).all fun (v, w) => v &&& ~~~w == 0

def superset (a b : BitSet) : Bool := b.subset a

/-- The number of positions in both sets, over the words that both have. -/
def common (a b : BitSet) : Nat :=
  (a.words.zip b.words).foldl (fun n (v, w) => n + Word.count (v &&& w)) 0

/-- A digit for each position, the highest position first. -/
def text (b : BitSet) : String :=
  String.ofList ((List.range b.width).reverse.map fun p => if b.contains p then '1' else '0')

instance : ToString BitSet := ⟨text⟩

@[simp] theorem width_empty (n : Nat) : (empty n).width = n := rfl

@[simp] theorem contains_empty (n p : Nat) : (empty n).contains p = false :=
  Word.bitAt_replicate_zero _ _

@[simp] theorem width_insert (b : BitSet) (p : Nat) (h : p < b.width) :
    (b.insert p h).width = b.width := rfl

@[simp] theorem width_erase (b : BitSet) (p : Nat) (h : p < b.width) :
    (b.erase p h).width = b.width := rfl

@[simp] theorem contains_insert (b : BitSet) (p : Nat) (h : p < b.width) (q : Nat) :
    (b.insert p h).contains q = if p = q then true else b.contains q := bitAt_insert h q

@[simp] theorem contains_erase (b : BitSet) (p : Nat) (h : p < b.width) (q : Nat) :
    (b.erase p h).contains q = if p = q then false else b.contains q := bitAt_erase h q

theorem ext_contains {a b : BitSet} (hw : a.width = b.width)
    (h : ∀ p, a.contains p = b.contains p) : a = b := by
  have hwords : a.words = b.words :=
    Word.eq_of_bitAt_eq (by rw [a.length_words, b.length_words, hw]) h
  cases a
  cases b
  cases hw
  cases hwords
  rfl

theorem ext_words {a b : BitSet} (hw : a.width = b.width) (h : a.words = b.words) : a = b :=
  ext_contains hw fun p => by rw [contains, contains, h]

end Repack.BitSet
