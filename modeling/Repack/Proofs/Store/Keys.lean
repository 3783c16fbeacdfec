import Repack.Proofs.Store.Reachable

/-! The keys that a store issues. A key ends in the number of keys issued before it, set off by a
mark that is not a digit, so keys with different numbers differ, whatever their stems are. -/
namespace Repack.Store

/-- The key that a store issues for a stem when its counter is at a number. -/
def keyed (stem : String) (n : UInt64) : String := stem ++ "#" ++ toString n.toNat

theorem outcome_issueKey (stem : String) (s : Store) : (issueKey stem).outcome s =
    (.ok (keyed stem s.issued), { s with issued := s.issued + 1 }) := rfl

theorem toList_keyed (stem : String) (n : UInt64) :
    (keyed stem n).toList = stem.toList ++ '#' :: Nat.toDigits 10 n.toNat := by
  simp only [keyed, String.toList_append, Nat.toString_eq_repr, Nat.toList_repr, List.append_assoc]
  rfl

theorem mark_notMem_toDigits (n : Nat) : '#' ∉ Nat.toDigits 10 n := by
  intro member
  have digit := Nat.isDigit_of_mem_toDigits (by decide) (by decide) member
  cases digit

/-- A list is cut at its last mark in one way only. -/
theorem eq_of_append_mark {α : Type} {mark : α} {a b c d : List α} (last : mark ∉ c)
    (last' : mark ∉ d) (same : a ++ mark :: c = b ++ mark :: d) : c = d := by
  obtain ⟨between, _, cut⟩ | ⟨between, _, cut⟩ := List.append_eq_append_iff.mp same
  · cases between with
    | nil => exact (List.cons.inj cut).2
    | cons first rest =>
      obtain ⟨_, rfl⟩ := List.cons.inj cut
      exact absurd (List.mem_append_right _ List.mem_cons_self) last
  · cases between with
    | nil => exact (List.cons.inj cut).2.symm
    | cons first rest =>
      obtain ⟨_, rfl⟩ := List.cons.inj cut
      exact absurd (List.mem_append_right _ List.mem_cons_self) last'

theorem keyed_inj {a b : String} {m n : UInt64} (same : keyed a m = keyed b n) : m = n := by
  replace same := congrArg String.toList same
  rw [toList_keyed, toList_keyed] at same
  have digits := eq_of_append_mark (mark_notMem_toDigits _) (mark_notMem_toDigits _) same
  apply UInt64.toNat.inj
  rw [← Nat.ofDigitChars_ten_toDigits (n := m.toNat), digits, Nat.ofDigitChars_ten_toDigits]

/-- Whether some keys are those issued in turn by a store whose counter is at a number first. -/
def Numbered (first : UInt64) (keys : List String) : Prop :=
  ∀ k key, keys[k]? = some key → ∃ stem, key = keyed stem (first + UInt64.ofNat k)

variable {first : UInt64} {keys : List String}

theorem numbered_nil : Numbered first [] := nofun

theorem Numbered.append (h : Numbered first keys) (stem : String) :
    Numbered first (keys ++ [keyed stem (first + UInt64.ofNat keys.length)]) := by
  intro k key issued
  rw [List.getElem?_append] at issued
  split at issued
  · exact h k key issued
  · rw [List.getElem?_singleton] at issued
    split at issued
    · cases issued
      exact ⟨stem, by congr; omega⟩
    · cases issued

/-- As long as the counter does not come back to where it was, keys are not issued twice. -/
theorem Numbered.nodup (h : Numbered first keys) (bound : keys.length ≤ 2 ^ 64) : keys.Nodup := by
  rw [List.Nodup, List.pairwise_iff_getElem]
  intro i j hi hj before same
  obtain ⟨a, ha⟩ := h i keys[i] (List.getElem?_eq_getElem hi)
  obtain ⟨b, hb⟩ := h j keys[j] (List.getElem?_eq_getElem hj)
  have alike := UInt64.add_right_inj _ |>.mp (keyed_inj (ha.symm.trans (same.trans hb)))
  have counts := congrArg UInt64.toNat alike
  rw [UInt64.toNat_ofNat', UInt64.toNat_ofNat', Nat.mod_eq_of_lt (by omega),
    Nat.mod_eq_of_lt (by omega)] at counts
  omega

end Repack.Store
