import Repack.BitSet.Containment
import Repack.BitSet.Order
import Mathlib.Data.List.Basic
import Mathlib.Data.List.Induction
import Mathlib.Data.Nat.Bitwise

/-! The order of bit sets and their containment, in terms of positions. Of two
sets of one width the one that holds the highest position on which they differ
is the greater, so a set is at most any set around it. -/
namespace Repack.Word

theorem and_not_eq_zero_iff (v w : UInt64) :
    v &&& ~~~w = 0 ↔ ∀ i, bit v i = true → bit w i = true := by
  constructor
  · intro disjoint i held
    have small := lt_of_bit held
    have clear : bit (v &&& ~~~w) i = false := by rw [disjoint, bit_zero]
    rw [bit_and, bit_not w small, held] at clear
    simpa using clear
  · intro within
    apply eq_of_bit_eq
    intro i small
    rw [bit_and, bit_not w small, bit_zero]
    cases held : bit v i with
    | false => rfl
    | true => simp [within i held]

/-- The highest bit on which two words differ is set in the greater one. -/
theorem exists_highest_of_lt {v w : UInt64} (lt : v < w) :
    ∃ i < 64, bit v i = false ∧ bit w i = true ∧ ∀ j, i < j → bit v j = bit w j := by
  have bits (x : UInt64) (i : Nat) : bit x i = x.toNat.testBit i := rfl
  have less : v.toNat < w.toNat := UInt64.lt_iff_toNat_lt.mp lt
  have differ : v.toNat ^^^ w.toNat ≠ 0 := by
    intro same
    have := Nat.xor_eq_zero_iff.mp same
    omega
  obtain ⟨i, top, above⟩ := Nat.exists_most_significant_bit differ
  have agree : ∀ j, i < j → v.toNat.testBit j = w.toNat.testBit j := by
    intro j higher
    have := above j higher
    simpa [Nat.testBit_xor] using this
  have top : v.toNat.testBit i ≠ w.toNat.testBit i := by simpa [Nat.testBit_xor] using top
  have lower : v.toNat.testBit i = false := by
    cases held : v.toNat.testBit i with
    | false => rfl
    | true =>
      have clear : w.toNat.testBit i = false := by simpa [held] using top.symm
      have := Nat.lt_of_testBit i clear held (fun j higher => (agree j higher).symm)
      omega
  have upper : w.toNat.testBit i = true := by simpa [lower] using top.symm
  exact ⟨i, lt_of_bit upper, lower, upper, agree⟩

theorem bitAt_append_single (words : List UInt64) (w : UInt64) (p : Nat) :
    bitAt (words ++ [w]) p =
      if p / 64 = words.length then bit w (p % 64) else bitAt words p := by
  unfold bitAt
  rcases Nat.lt_trichotomy (p / 64) words.length with below | same | above
  · rw [List.getElem?_append_left below, if_neg (by omega)]
  · rw [List.getElem?_append_right (by omega), if_pos same]
    simp [same]
  · rw [List.getElem?_append_right (by omega), if_neg (by omega),
      List.getElem?_eq_none (by simpa using (by omega : 1 ≤ p / 64 - words.length)),
      List.getElem?_eq_none (by omega)]

/-- `q` holds the highest position on which two lists of words differ. -/
def Exceeds (q p : List UInt64) : Prop :=
  ∃ i, bitAt p i = false ∧ bitAt q i = true ∧ ∀ j, i < j → bitAt p j = bitAt q j

theorem Exceeds.irrefl (p : List UInt64) : ¬ Exceeds p p := by
  rintro ⟨i, clear, held, _⟩
  rw [clear] at held
  cases held

theorem Exceeds.asymm {p q : List UInt64} (up : Exceeds q p) : ¬ Exceeds p q := by
  rintro ⟨j, clear', held', above'⟩
  obtain ⟨i, clear, held, above⟩ := up
  rcases Nat.lt_trichotomy i j with lt | rfl | gt
  · rw [above j lt, clear'] at held'
    cases held'
  · rw [clear] at held'
    cases held'
  · rw [above' i gt, clear] at held
    cases held

theorem exceeds_append_of_lt {p q : List UInt64} (len : p.length = q.length) {v w : UInt64}
    (lt : v < w) : Exceeds (q ++ [w]) (p ++ [v]) := by
  obtain ⟨i, small, clear, held, above⟩ := exists_highest_of_lt lt
  have div : (64 * q.length + i) / 64 = q.length := by omega
  have mod : (64 * q.length + i) % 64 = i := by omega
  refine ⟨64 * q.length + i, ?_, ?_, ?_⟩
  · rw [bitAt_append_single, len, if_pos div, mod, clear]
  · rw [bitAt_append_single, if_pos div, mod, held]
  · intro j higher
    rw [bitAt_append_single, bitAt_append_single, len]
    by_cases top : j / 64 = q.length
    · rw [if_pos top, if_pos top]
      exact above _ (by omega)
    · rw [if_neg top, if_neg top, bitAt, bitAt, List.getElem?_eq_none (by omega),
        List.getElem?_eq_none (by omega)]

theorem exceeds_append_same {p q : List UInt64} (len : p.length = q.length) (w : UInt64)
    (up : Exceeds q p) : Exceeds (q ++ [w]) (p ++ [w]) := by
  obtain ⟨i, clear, held, above⟩ := up
  have inner : i / 64 ≠ q.length := by
    intro same
    rw [bitAt, List.getElem?_eq_none (by omega)] at held
    cases held
  refine ⟨i, ?_, ?_, ?_⟩
  · rw [bitAt_append_single, len, if_neg inner, clear]
  · rw [bitAt_append_single, if_neg inner, held]
  · intro j higher
    rw [bitAt_append_single, bitAt_append_single, len, above j higher]

theorem exceeds_of_compare_lt {p q : List UInt64} (len : p.length = q.length)
    (lt : compare p.reverse q.reverse = .lt) : Exceeds q p := by
  -- Both lists lose their most significant word at once, which is the first one compared.
  induction p using List.reverseRecOn generalizing q with
  | nil =>
    obtain rfl : q = [] := List.length_eq_zero_iff.mp len.symm
    cases lt
  | append_singleton p v ih =>
    obtain rfl | ⟨q, w, rfl⟩ := List.eq_nil_or_concat' q
    · simp at len
    · have shorter : p.length = q.length := by simpa using len
      simp only [List.reverse_append, List.reverse_cons, List.reverse_nil, List.nil_append,
        List.singleton_append, List.compare_cons_cons] at lt
      rcases Ordering.then_eq_lt.mp lt with first | ⟨same, rest⟩
      · exact exceeds_append_of_lt shorter (Std.compare_eq_lt.mp first)
      · obtain rfl := Std.LawfulEqCmp.eq_of_compare same
        exact exceeds_append_same shorter v (ih shorter rest)

end Repack.Word

namespace Repack.BitSet
open Word (bitAt)

variable {a b : BitSet}

theorem subset_iff : a.subset b = true ↔
    a.words.length = b.words.length ∧ ∀ p, a.contains p = true → b.contains p = true := by
  simp only [subset, Bool.and_eq_true, beq_iff_eq]
  apply and_congr_right
  intro len
  rw [List.all_eq_true]
  constructor
  · intro each p held
    have small := Nat.div_lt_of_lt_mul (by
      have := lt_width_of_contains held
      have := a.length_words
      omega : p < 64 * a.words.length)
    have pair : (a.words[p / 64], b.words[p / 64]) ∈ a.words.zip b.words := by
      apply List.mem_iff_getElem.mpr
      exact ⟨p / 64, by simp [small, ← len], List.getElem_zip⟩
    have within := (Word.and_not_eq_zero_iff _ _).mp (beq_iff_eq.mp (each _ pair)) (p % 64)
    simp only [contains, bitAt, List.getElem?_eq_getElem small,
      List.getElem?_eq_getElem (len ▸ small)] at held ⊢
    exact within held
  · intro within pair member
    obtain ⟨k, short, rfl⟩ := List.mem_iff_getElem.mp member
    have left : k < a.words.length := by simp at short; omega
    have right : k < b.words.length := by omega
    rw [List.getElem_zip, beq_iff_eq, Word.and_not_eq_zero_iff]
    intro i held
    have small := Word.lt_of_bit held
    have div : (64 * k + i) / 64 = k := by omega
    have mod : (64 * k + i) % 64 = i := by omega
    have := within (64 * k + i)
    simp only [contains, bitAt, div, mod, List.getElem?_eq_getElem left,
      List.getElem?_eq_getElem right] at this
    exact this held

/-- Of two sets of one width, the one with the highest position on which they differ is greater. -/
theorem compare_lt_iff (hw : a.width = b.width) : compare a b = .lt ↔
    ∃ p, a.contains p = false ∧ b.contains p = true ∧
      ∀ q, p < q → a.contains q = b.contains q := by
  have len : a.words.length = b.words.length := by rw [a.length_words, b.length_words, hw]
  have words : compare a b = compare a.words.reverse b.words.reverse := by
    rw [compare_eq, compareLex]
    simp [compareOn, hw, Std.ReflCmp.compare_self]
  rw [words]
  change _ ↔ Word.Exceeds b.words a.words
  constructor
  · exact Word.exceeds_of_compare_lt len
  · intro up
    cases order : compare a.words.reverse b.words.reverse with
    | lt => rfl
    | eq =>
      have same := List.reverse_inj.mp (Std.LawfulEqCmp.eq_of_compare order)
      exact absurd (same ▸ up) (Word.Exceeds.irrefl _)
    | gt =>
      have down := Word.exceeds_of_compare_lt len.symm (Std.OrientedCmp.lt_of_gt order)
      exact absurd up down.asymm

/-- A set is at most any set around it. -/
theorem isLE_of_subset (hw : a.width = b.width) (within : a.subset b = true) :
    (compare a b).isLE = true := by
  cases order : compare a b with
  | lt => rfl
  | eq => rfl
  | gt =>
    obtain ⟨p, clear, held, _⟩ := (compare_lt_iff hw.symm).mp (Std.OrientedCmp.lt_of_gt order)
    rw [(subset_iff.mp within).2 p held] at clear
    cases clear

end Repack.BitSet
