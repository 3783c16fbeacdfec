import Mathlib.Data.Nat.BitIndices
import Mathlib.Data.Set.Card
import Repack.Proofs.BitSet.Order
import Repack.Proofs.BitSet.Positions

/-! What is computed on the words of two bit sets is what is meant by their positions: the number
that they share, containment, and an order that is also that of the integers they denote and of
their texts. -/
namespace Repack

theorem Word.bitAt_zipWith_and (v w : List UInt64) (p : Nat) :
    bitAt (List.zipWith (· &&& ·) v w) p = (bitAt v p && bitAt w p) := by
  simp only [bitAt, List.getElem?_zipWith]
  cases v[p / 64]? with
  | none => simp
  | some x =>
    cases w[p / 64]? with
    | none => simp
    | some y => exact bit_and x y _

namespace BitSet

theorem count_eq_ncard (b : BitSet) : b.count = {p | b.contains p = true}.ncard := by
  have held : {p | b.contains p = true} = ↑b.ones.toFinset := by
    ext p
    simp [mem_ones]
  have nodup : b.ones.Nodup := b.pairwise_ones.imp Nat.ne_of_lt
  rw [held, Set.ncard_coe_finset, List.toFinset_card_of_nodup nodup, count_eq_length_ones]

section Common

/-- The positions in both sets, over the words that both have. -/
def meet (a b : BitSet) : BitSet where
  width := min a.width b.width
  words := List.zipWith (· &&& ·) a.words b.words
  length_words := by
    rw [List.length_zipWith, a.length_words, b.length_words]
    omega
  bitAt_eq_false := by
    intro p beyond
    rw [Word.bitAt_zipWith_and]
    obtain left | right := min_le_iff.mp beyond
    · rw [a.bitAt_eq_false p left, Bool.false_and]
    · rw [b.bitAt_eq_false p right, Bool.and_false]

theorem contains_meet (a b : BitSet) (p : Nat) :
    (a.meet b).contains p = (a.contains p && b.contains p) :=
  Word.bitAt_zipWith_and a.words b.words p

theorem words_meet (a b : BitSet) :
    (a.meet b).words = (a.words.zip b.words).map fun (v, w) => v &&& w := by
  rw [List.map_zip_eq_zipWith]
  rfl

theorem common_eq_count_meet (a b : BitSet) : a.common b = (a.meet b).count := by
  rw [common, count, words_meet, List.foldl_map]

theorem common_eq_ncard (a b : BitSet) :
    a.common b = {p | a.contains p = true ∧ b.contains p = true}.ncard := by
  rw [common_eq_count_meet, count_eq_ncard]
  simp only [contains_meet, Bool.and_eq_true]

end Common

section Order

variable {a b : BitSet}

/-- The width decides first. -/
theorem compare_of_width_ne (differ : a.width ≠ b.width) :
    compare a b = compare a.width b.width := by
  change (compare a.width b.width).then _ = _
  cases order : compare a.width b.width with
  | lt => rfl
  | eq => exact absurd (Std.LawfulEqCmp.eq_of_compare order) differ
  | gt => rfl

/-- Whatever ascends with the sets of one width compares as they do. -/
theorem compare_eq_of_ascends {β : Type} [Ord β] [Std.TransOrd β] {f : BitSet → β}
    (ascends : ∀ {a b : BitSet}, a.width = b.width → compare a b = .lt → compare (f a) (f b) = .lt)
    (hw : a.width = b.width) : compare a b = compare (f a) (f b) := by
  cases order : compare a b with
  | lt => exact (ascends hw order).symm
  | eq =>
    obtain rfl := Std.LawfulEqCmp.eq_of_compare order
    exact Std.ReflCmp.compare_self.symm
  | gt =>
    have flipped := ascends hw.symm (Std.OrientedCmp.lt_of_gt order)
    exact (Std.OrientedCmp.gt_of_lt flipped).symm

/-- The integer that a bit set denotes. -/
def toNat (b : BitSet) : Nat := (b.ones.map (2 ^ ·)).sum

theorem testBit_toNat (b : BitSet) (p : Nat) : b.toNat.testBit p = b.contains p := by
  rw [Bool.eq_iff_iff, ← Nat.mem_bitIndices, toNat,
    Nat.bitIndices_sum_map_two_pow b.pairwise_ones.sortedLT, mem_ones]

theorem toNat_lt_toNat (hw : a.width = b.width) (less : compare a b = .lt) :
    a.toNat < b.toNat := by
  obtain ⟨p, clear, held, above⟩ := (compare_lt_iff hw).mp less
  simp only [← testBit_toNat] at clear held above
  exact Nat.lt_of_testBit p clear held above

theorem compare_toNat (hw : a.width = b.width) : compare a b = compare a.toNat b.toNat :=
  compare_eq_of_ascends (fun same less => Nat.compare_eq_lt.mpr (toNat_lt_toNat same less)) hw

/-- The digit of a position. -/
def digit (b : BitSet) (p : Nat) : Char := if b.contains p then '1' else '0'

theorem toList_text (b : BitSet) : b.text.toList = (List.range b.width).reverse.map b.digit :=
  String.toList_ofList

/-- The digits above the highest position of difference are the same, and come first. -/
theorem text_lt_text (hw : a.width = b.width) (less : compare a b = .lt) : a.text < b.text := by
  obtain ⟨p, clear, held, above⟩ := (compare_lt_iff hw).mp less
  have within : p ∈ (List.range b.width).reverse := by
    simpa using lt_width_of_contains held
  obtain ⟨before, after, split⟩ := List.append_of_mem within
  have descending : (before ++ p :: after).Pairwise (· > ·) := by
    rw [← split, List.pairwise_reverse]
    exact List.pairwise_lt_range
  have same : before.map a.digit = before.map b.digit := by
    apply List.map_congr_left
    intro q member
    have higher := (List.pairwise_append.mp descending).2.2 q member p List.mem_cons_self
    rw [digit, digit, above q higher]
  have first : a.digit p < b.digit p := by
    rw [digit, digit, clear, held]
    decide
  change a.text.toList < b.text.toList
  rw [toList_text, toList_text, hw, split, List.map_append, List.map_append, same, List.map_cons,
    List.map_cons]
  exact List.append_left_lt (List.cons_lt_cons_iff.mpr (.inl first))

theorem compare_text (hw : a.width = b.width) : compare a b = compare a.text b.text :=
  compare_eq_of_ascends
    (fun same less => compareOfLessAndEq_eq_lt.mpr (text_lt_text same less)) hw

end Order

section Words

variable {a b : BitSet}

theorem length_words_eq_iff :
    a.words.length = b.words.length ↔ (a.width + 63) / 64 = (b.width + 63) / 64 := by
  rw [a.length_words, b.length_words]

theorem subset_eq_false (differ : (a.width + 63) / 64 ≠ (b.width + 63) / 64) :
    a.subset b = false := by
  rw [← Bool.not_eq_true]
  exact fun within => differ (length_words_eq_iff.mp (subset_iff.mp within).1)

end Words

/-- How two bit sets relate, in terms of their positions. Containment only asks for as many words
in both, so sets of different widths may be within one another; the order keeps them apart. -/
structure Relates (a b : BitSet) : Prop where
  common : a.common b = {p | a.contains p = true ∧ b.contains p = true}.ncard
  subset_iff : (a.width + 63) / 64 = (b.width + 63) / 64 →
    (a.subset b = true ↔ ∀ p, a.contains p = true → b.contains p = true)
  superset_iff : (a.width + 63) / 64 = (b.width + 63) / 64 →
    (a.superset b = true ↔ ∀ p, b.contains p = true → a.contains p = true)
  incomparable : (a.width + 63) / 64 ≠ (b.width + 63) / 64 →
    a.subset b = false ∧ a.superset b = false
  width_first : a.width ≠ b.width → compare a b = compare a.width b.width
  compare_lt_iff : a.width = b.width → (compare a b = .lt ↔
    ∃ p, a.contains p = false ∧ b.contains p = true ∧ ∀ q, p < q → a.contains q = b.contains q)
  compare_text : a.width = b.width → compare a b = compare a.text b.text
  compare_toNat : a.width = b.width → compare a b = compare a.toNat b.toNat
  eq_iff : compare a b = .eq ↔ a = b
  swap : compare b a = (compare a b).swap
  trans : ∀ c, (compare a b).isLE = true → (compare b c).isLE = true → (compare a c).isLE = true
  isLE_of_subset : a.width = b.width → a.subset b = true → (compare a b).isLE = true

/-- What is computed word by word tells how two sets relate, whatever their widths are. -/
theorem relations_exact (a b : BitSet) : a.Relates b where
  common := common_eq_ncard a b
  subset_iff same := subset_iff.trans (and_iff_right (length_words_eq_iff.mpr same))
  superset_iff same := subset_iff.trans (and_iff_right (length_words_eq_iff.mpr same.symm))
  incomparable differ := ⟨subset_eq_false differ, subset_eq_false differ.symm⟩
  width_first := compare_of_width_ne
  compare_lt_iff := compare_lt_iff
  compare_text := compare_text
  compare_toNat := compare_toNat
  eq_iff := Std.LawfulEqCmp.compare_eq_iff_eq
  swap := Std.OrientedCmp.eq_swap
  trans _ := Std.TransCmp.isLE_trans
  isLE_of_subset := isLE_of_subset

/-- The empty sets of widths 3 and 60 are within one another, and not equal in the order. -/
example : (empty 3).subset (empty 60) = true ∧ (empty 60).subset (empty 3) = true ∧
    compare (empty 60) (empty 3) = .gt := by
  decide

end BitSet

end Repack
