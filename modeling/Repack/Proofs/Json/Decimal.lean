import Mathlib.Data.List.TakeWhile
import Repack.Json.Basic

/-! Numbers in decimal digits, as they stand in JSON text: each is one word, and is read as the
number that it was written for. -/
namespace Repack

namespace Decimal

theorem isDigit_of_mem_digits {n : Nat} {c : Char} (member : c ∈ digits n) : isDigit c = true := by
  have digit := Nat.isDigit_of_mem_toDigits (by decide) (by decide) member
  simpa [isDigit, Char.isDigit, Char.le_def] using digit

/-- Only zero starts with the digit zero. -/
theorem digits_cases (n : Nat) : digits n = ['0'] ∨ ∃ c cs, digits n = c :: cs ∧ c ≠ '0' := by
  induction n using Nat.strongRecOn with
  | ind n ih =>
    by_cases small : n < 10
    · rw [digits, Nat.toDigits_of_lt_base small]
      have first : ∀ m < 10, m = 0 ∨ Nat.digitChar m ≠ '0' := by decide
      obtain rfl | other := first n small
      · exact Or.inl rfl
      · exact Or.inr ⟨_, [], rfl, other⟩
    · right
      rw [digits, Nat.toDigits_of_base_le (by decide) (by omega)]
      obtain zero | ⟨c, cs, led, other⟩ := ih (n / 10) (by omega)
      · have value := congrArg (fun cs => Nat.ofDigitChars 10 cs 0) zero
        rw [digits, Nat.ofDigitChars_ten_toDigits] at value
        have none : n / 10 = 0 := value
        omega
      · rw [digits] at led
        rw [led]
        exact ⟨c, _, rfl, other⟩

theorem digits_ne_nil (n : Nat) : digits n ≠ [] := Nat.toDigits_ne_nil

theorem ofDigits?_digits (n : Nat) : ofDigits? (digits n) = some n := by
  have all : (digits n).all isDigit = true := List.all_eq_true.mpr fun _ => isDigit_of_mem_digits
  have led : ((digits n).head? == some '0' && decide (1 < (digits n).length)) = false := by
    obtain zero | ⟨c, cs, led, other⟩ := digits_cases n
    · rw [zero]
      decide
    · simp [led, other]
  have value : Nat.ofDigitChars 10 (digits n) 0 = n := Nat.ofDigitChars_ten_toDigits
  rw [ofDigits?, all, led, value, List.isEmpty_eq_false_iff.mpr (digits_ne_nil n)]
  rfl

end Decimal

namespace Json

open Decimal (digits isDigit)

theorem isUnsigned_digits (n : Nat) : isUnsigned (digits n) = true := by
  obtain zero | ⟨c, cs, led, other⟩ := Decimal.digits_cases n
  · rw [zero]
    decide
  · have all : ∀ d ∈ c :: cs, isDigit d = true := led ▸ fun _ => Decimal.isDigit_of_mem_digits
    obtain ⟨first, rest⟩ := List.forall_mem_cons.mp all
    have ended : cs.dropWhile isDigit = [] := List.dropWhile_eq_nil_iff.mpr rest
    rw [led, isUnsigned]
    · rw [first, ended]
      rfl
    · exact other

theorem isNumber_digits (n : Nat) : isNumber (digits n) = true := by
  rw [isNumber]
  · exact isUnsigned_digits n
  · intro cs signed
    have digit : isDigit '-' = true := by
      apply Decimal.isDigit_of_mem_digits (n := n)
      rw [signed]
      exact List.mem_cons_self
    cases digit

/-- Digits are not one of the literal names. -/
theorem ofWord?_digits (n : Nat) : ofWord? (digits n) = some (.number (digits n)) := by
  have other {c : Char} {cs : List Char} (letter : isDigit c = false) : digits n ≠ c :: cs := by
    intro same
    have digit := Decimal.isDigit_of_mem_digits (n := n) (same ▸ List.mem_cons_self)
    rw [letter] at digit
    cases digit
  rw [ofWord?, if_neg (other rfl), if_neg (other rfl), if_neg (other rfl),
    if_pos (isNumber_digits n)]

end Json

end Repack
