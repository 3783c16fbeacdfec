import Mathlib.Data.List.Sort
import Repack.BitSet.Basic

/-! The positions of a bit set. Word by word, taking the lowest bit of what is left of a word at
each step, they come out in ascending order and each once, and their number is the sum of the counts
of the words. -/
namespace Repack.Word

/-- A number and the one before it share the bits above the lowest. -/
theorem testBit_and_pred {n k : Nat} (held : n.testBit k = true)
    (clear : ∀ j < k, n.testBit j = false) (j : Nat) :
    (n &&& (n - 1)).testBit j = (n.testBit j && decide (j ≠ k)) := by
  rw [Nat.testBit_and]
  induction k generalizing n j with
  | zero =>
    have odd : n % 2 = 1 := by simpa [Nat.testBit_zero] using held
    cases j with
    | zero => simp [Nat.testBit_zero, show (n - 1) % 2 = 0 by omega]
    | succ j =>
      rw [Nat.testBit_succ, Nat.testBit_succ, show (n - 1) / 2 = n / 2 by omega]
      simp
  | succ k ih =>
    have even : n % 2 = 0 := by simpa [Nat.testBit_zero] using clear 0 (Nat.succ_pos k)
    cases j with
    | zero => simp [Nat.testBit_zero, even]
    | succ j =>
      have held : (n / 2).testBit k = true := by rwa [← Nat.testBit_succ]
      have clear : ∀ i < k, (n / 2).testBit i = false := by
        intro i less
        rw [← Nat.testBit_succ]
        exact clear (i + 1) (Nat.succ_lt_succ less)
      rw [Nat.testBit_succ, Nat.testBit_succ, show (n - 1) / 2 = n / 2 - 1 by omega]
      simpa using ih held clear j

section Lowest

variable {w : UInt64} {i : Nat}

theorem bit_lowest (nonzero : w ≠ 0) : bit w (lowest w) = true :=
  BitVec.getLsbD_true_ctz_of_ne_zero fun zero => nonzero (UInt64.toBitVec_inj.mp zero)

theorem bit_eq_false_of_lt_lowest (less : i < lowest w) : bit w i = false :=
  BitVec.getLsbD_false_of_lt_ctz less

theorem bit_withoutLowest (nonzero : w ≠ 0) (i : Nat) :
    bit (withoutLowest w) i = (bit w i && decide (i ≠ lowest w)) := by
  have one : (1 : UInt64) ≤ w := by
    rw [UInt64.le_iff_toNat_le]
    exact Nat.one_le_iff_ne_zero.mpr fun zero => nonzero (UInt64.toNat_inj.mp zero)
  have bits (x : UInt64) (i : Nat) : bit x i = x.toNat.testBit i := rfl
  have lower : ∀ j < lowest w, w.toNat.testBit j = false :=
    fun j less => bit_eq_false_of_lt_lowest less
  rw [bits, bits, withoutLowest, UInt64.toNat_and, UInt64.toNat_sub_of_le w 1 one]
  exact testBit_and_pred (bit_lowest nonzero) lower i

theorem mem_ones : i ∈ ones w ↔ bit w i = true := by
  induction w using ones.induct with
  | case1 => rw [ones, dif_pos rfl]; simp
  | case2 w nonzero ih =>
    rw [ones, dif_neg nonzero, List.mem_cons, ih, bit_withoutLowest nonzero]
    by_cases first : i = lowest w
    · simp [first, bit_lowest nonzero]
    · simp [first]

theorem lt_of_mem_ones (member : i ∈ ones w) : i < 64 := lt_of_bit (mem_ones.mp member)

theorem pairwise_ones (w : UInt64) : (ones w).Pairwise (· < ·) := by
  induction w using ones.induct with
  | case1 => rw [ones, dif_pos rfl]; exact .nil
  | case2 w nonzero ih =>
    rw [ones, dif_neg nonzero]
    refine List.pairwise_cons.mpr ⟨?_, ih⟩
    intro i member
    rw [mem_ones, bit_withoutLowest nonzero, Bool.and_eq_true, decide_eq_true_iff] at member
    apply Nat.lt_of_le_of_ne _ member.2.symm
    apply Nat.le_of_not_lt
    intro less
    rw [bit_eq_false_of_lt_lowest less] at member
    cases member.1

theorem ones_eq_filter (w : UInt64) : ones w = (List.range 64).filter (bit w) := by
  apply (pairwise_ones w).eq_of_mem_iff (List.pairwise_lt_range.filter _)
  intro i
  rw [List.mem_filter, List.mem_range, mem_ones]
  exact ⟨fun held => ⟨lt_of_bit held, held⟩, And.right⟩

theorem cpopNatRec_eq_countP {n : Nat} (x : BitVec n) (k acc : Nat) :
    x.cpopNatRec k acc = acc + (List.range k).countP x.getLsbD := by
  induction k generalizing acc with
  | zero => simp
  | succ k ih =>
    rw [BitVec.cpopNatRec_succ, ih, List.range_succ, List.countP_append]
    cases held : x.getLsbD k
    · simp [held]
    · simp [held]
      omega

theorem count_eq_length_ones (w : UInt64) : count w = (ones w).length := by
  rw [count, BitVec.toNat_cpop, cpopNatRec_eq_countP, Nat.zero_add, ones_eq_filter,
    List.countP_eq_length_filter]
  rfl

end Lowest

end Repack.Word

namespace Repack.BitSet

variable {b : BitSet} {p : Nat}

theorem ones_eq_flatMap (b : BitSet) : b.ones =
    b.words.zipIdx.flatMap fun word => (Word.ones word.1).map (64 * word.2 + ·) := rfl

theorem mem_ones : p ∈ b.ones ↔ b.contains p = true := by
  simp only [ones_eq_flatMap, contains, Word.bitAt, List.mem_flatMap, List.mem_map, Prod.exists,
    List.mem_zipIdx_iff_getElem?]
  constructor
  · rintro ⟨w, k, word, i, member, rfl⟩
    have small := Word.lt_of_mem_ones member
    have div : (64 * k + i) / 64 = k := by omega
    have mod : (64 * k + i) % 64 = i := by omega
    simpa only [div, mod, word] using Word.mem_ones.mp member
  · intro held
    split at held
    · next w word =>
      exact ⟨w, p / 64, word, p % 64, Word.mem_ones.mpr held, Nat.div_add_mod p 64⟩
    · cases held

theorem pairwise_ones (b : BitSet) : b.ones.Pairwise (· < ·) := by
  rw [ones_eq_flatMap, List.pairwise_flatMap]
  constructor
  · rintro ⟨w, k⟩ _
    exact List.pairwise_map.mpr ((Word.pairwise_ones w).imp fun less => Nat.add_lt_add_left less _)
  · have numbered : b.words.zipIdx.Pairwise fun x y => x.2 < y.2 := by
      rw [← List.pairwise_map, List.zipIdx_map_snd]
      exact List.pairwise_lt_range'
    apply numbered.imp
    rintro ⟨v, k⟩ ⟨w, l⟩ (less : k < l) p inV q inW
    obtain ⟨i, member, rfl⟩ := List.mem_map.mp inV
    obtain ⟨j, _, rfl⟩ := List.mem_map.mp inW
    have := Word.lt_of_mem_ones member
    omega

/-- The positions are those below the width that are in the set, ascending. -/
theorem ones_eq_filter (b : BitSet) : b.ones = (List.range b.width).filter b.contains := by
  apply b.pairwise_ones.eq_of_mem_iff (List.pairwise_lt_range.filter _)
  intro p
  rw [List.mem_filter, List.mem_range, mem_ones]
  exact ⟨fun held => ⟨lt_width_of_contains held, held⟩, And.right⟩

/-- The words may be counted on from any number, and numbered from any other. -/
theorem foldl_count_eq (words : List UInt64) (n k : Nat) :
    words.foldl (fun n w => n + Word.count w) n =
      n + ((words.zipIdx k).flatMap fun word =>
        (Word.ones word.1).map (64 * word.2 + ·)).length := by
  induction words generalizing n k with
  | nil => rfl
  | cons w rest ih =>
    rw [List.foldl_cons, ih _ (k + 1), List.zipIdx_cons, List.flatMap_cons, List.length_append,
      List.length_map, Word.count_eq_length_ones, Nat.add_assoc]

theorem count_eq_length_ones (b : BitSet) : b.count = b.ones.length := by
  rw [count, ones_eq_flatMap, foldl_count_eq b.words 0 0, Nat.zero_add]

end Repack.BitSet
