/-!
Bits of a 64-bit word, and of a list of words read as one long word, least significant first.
Main statements: each operation on a word says which bits its result has (`bit_withBit`,
`bit_withoutBit`), and `bitAt_modify` carries this to a list of words.
-/
namespace Repack.Word

def bit (w : UInt64) (i : Nat) : Bool := w.toBitVec.getLsbD i

def single (i : Nat) : UInt64 := 1 <<< UInt64.ofNat i

def withBit (w : UInt64) (i : Nat) : UInt64 := w ||| single i

def withoutBit (w : UInt64) (i : Nat) : UInt64 := w &&& ~~~single i

def count (w : UInt64) : Nat := w.toBitVec.cpop.toNat

/-- The position of the lowest set bit, 64 if there is none. -/
def lowest (w : UInt64) : Nat := w.toBitVec.ctz.toNat

def withoutLowest (w : UInt64) : UInt64 := w &&& (w - 1)

theorem toNat_withoutLowest_lt {w : UInt64} (h : w ≠ 0) :
    (withoutLowest w).toNat < w.toNat := by
  have hw : w.toNat ≠ 0 := fun h0 => h (UInt64.toNat_inj.1 (by simpa using h0))
  have hle : (1 : UInt64) ≤ w := by
    rw [UInt64.le_iff_toNat_le]
    exact Nat.one_le_iff_ne_zero.2 hw
  have hsub : (w - 1).toNat = w.toNat - 1 := UInt64.toNat_sub_of_le w 1 hle
  have hand : (withoutLowest w).toNat ≤ (w - 1).toNat := by
    simp only [withoutLowest, UInt64.toNat_and]
    exact Nat.and_le_right
  omega

/-- The positions of the set bits, ascending: the lowest, then those of the word without it. -/
def ones (w : UInt64) : List Nat :=
  if _ : w = 0 then [] else lowest w :: ones (withoutLowest w)
termination_by w.toNat
decreasing_by exact toNat_withoutLowest_lt ‹_›

@[simp] theorem bit_zero (i : Nat) : bit 0 i = false := by simp [bit]

theorem bit_eq_false_of_le {w : UInt64} {i : Nat} (h : 64 ≤ i) : bit w i = false :=
  BitVec.getLsbD_of_ge _ _ h

theorem lt_of_bit {w : UInt64} {i : Nat} (held : bit w i = true) : i < 64 := by
  apply Nat.lt_of_not_le
  intro large
  rw [bit_eq_false_of_le large] at held
  cases held

theorem bit_or (v w : UInt64) (i : Nat) : bit (v ||| w) i = (bit v i || bit w i) := by
  simp [bit]

theorem bit_and (v w : UInt64) (i : Nat) : bit (v &&& w) i = (bit v i && bit w i) := by
  simp [bit]

theorem bit_not (w : UInt64) {i : Nat} (h : i < 64) : bit (~~~w) i = !bit w i := by
  simp [bit, h]

theorem bit_single {i : Nat} (hi : i < 64) (j : Nat) : bit (single i) j = decide (i = j) := by
  have hmod : i % 18446744073709551616 % 64 = i := by omega
  by_cases hj : j < 64
  · by_cases hij : i = j
    · subst hij
      simp [bit, single, hj, hmod]
    · by_cases hlt : j < i
      · simp [bit, single, hj, hmod, hij, hlt]
      · have : 0 < j - i := by omega
        simp [bit, single, hj, hmod, hij, hlt]
        omega
  · rw [bit_eq_false_of_le (by omega)]
    symm
    simp
    omega

theorem bit_withBit {i : Nat} (hi : i < 64) (w : UInt64) (j : Nat) :
    bit (withBit w i) j = (decide (i = j) || bit w j) := by
  rw [withBit, bit_or, bit_single hi, Bool.or_comm]

theorem bit_withoutBit {i : Nat} (hi : i < 64) (w : UInt64) (j : Nat) :
    bit (withoutBit w i) j = (!decide (i = j) && bit w j) := by
  by_cases hj : j < 64
  · rw [withoutBit, bit_and, bit_not _ hj, bit_single hi, Bool.and_comm]
  · rw [bit_eq_false_of_le (by omega), bit_eq_false_of_le (w := w) (by omega), Bool.and_false]

theorem eq_of_bit_eq {v w : UInt64} (h : ∀ i < 64, bit v i = bit w i) : v = w :=
  UInt64.toBitVec_inj.1 (BitVec.eq_of_getLsbD_eq h)

/-- Bit `p` of a list of words, least significant word first. -/
def bitAt (words : List UInt64) (p : Nat) : Bool :=
  match words[p / 64]? with
  | some w => bit w (p % 64)
  | none => false

@[simp] theorem bitAt_nil (p : Nat) : bitAt [] p = false := rfl

@[simp] theorem bitAt_replicate_zero (n p : Nat) : bitAt (List.replicate n 0) p = false := by
  rw [bitAt]
  split
  · next w h =>
    rw [List.getElem?_replicate] at h
    split at h
    · rw [← Option.some.inj h, bit_zero]
    · cases h
  · rfl

/-- Changing one bit of one word changes that bit of the list, and no other. -/
theorem bitAt_modify {words : List UInt64} {p : Nat} (hp : p / 64 < words.length)
    {f : UInt64 → UInt64} {g : Bool → Bool}
    (hf : ∀ w j, j < 64 → bit (f w) j = if p % 64 = j then g (bit w j) else bit w j) (q : Nat) :
    bitAt (words.modify (p / 64) f) q = if p = q then g (bitAt words q) else bitAt words q := by
  have hq : q % 64 < 64 := Nat.mod_lt _ (by decide)
  simp only [bitAt, List.getElem?_modify]
  by_cases hk : p / 64 = q / 64
  · rw [hk] at hp
    rw [List.getElem?_eq_getElem hp]
    simp only [hk, if_true, Option.map_eq_map, Option.map_some, hf _ _ hq]
    by_cases hpq : p = q
    · simp [hpq]
    · rw [if_neg (by omega), if_neg hpq]
  · rw [if_neg (by rintro rfl; exact hk rfl)]
    cases words[q / 64]? <;> simp [hk]

theorem eq_of_bitAt_eq {v w : List UInt64} (hl : v.length = w.length)
    (h : ∀ p, bitAt v p = bitAt w p) : v = w := by
  refine List.ext_getElem hl fun k hv hw => eq_of_bit_eq fun i hi => ?_
  have hdiv : (64 * k + i) / 64 = k := by omega
  have hmod : (64 * k + i) % 64 = i := by omega
  simpa [bitAt, hdiv, hmod, List.getElem?_eq_getElem hv, List.getElem?_eq_getElem hw]
    using h (64 * k + i)

end Repack.Word
