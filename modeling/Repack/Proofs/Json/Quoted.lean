import Repack.Json.Quoted

/-! Texts between quotes. Whatever characters a text is made of, what is written for it ends where
the closing quote stands, and stands for these characters. -/
namespace Repack.Quoted

/-- A text that is split off at the quote after it. -/
def Whole (raw : List Char) : Prop := ∀ rest, scan (raw ++ '"' :: rest) = some (raw, rest)

/-- The control characters are below 32. -/
theorem unit?_hexDigit {n : Nat} (small : n < 32) :
    unit? '0' '0' (hexDigit (n / 16)) (hexDigit (n % 16)) = some n := by
  revert n
  decide

/-- A printed character is written as it is, if it is not a quote or a backslash. -/
theorem escape_eq_self {c : Char} (quote : c ≠ '"') (backslash : c ≠ '\\')
    (printed : ¬ c.toNat < 32) : escape c = [c] := by
  have other {d : Char} (control : d.toNat < 32) : c ≠ d := by
    rintro rfl
    exact printed control
  rw [escape, if_neg quote, if_neg backslash, if_neg (other (by decide)),
    if_neg (other (by decide)), if_neg (other (by decide)), if_neg (other (by decide)),
    if_neg (other (by decide)), if_neg printed]

/-- How a character is written: by a letter after a backslash, by its number, or as it is. -/
theorem escape_cases (c : Char) :
    (∃ letter, escape c = ['\\', letter] ∧ unescape? letter = some c) ∨
    (∃ x y, escape c = ['\\', 'u', '0', '0', x, y] ∧ unit? '0' '0' x y = some c.toNat ∧
      c.toNat < 32) ∨
    (escape c = [c] ∧ c ≠ '"' ∧ c ≠ '\\' ∧ ¬ c.toNat < 32) := by
  by_cases named : c ∈ ['"', '\\', '\x08', '\t', '\n', '\x0c', '\r']
  · left
    simp only [List.mem_cons, List.not_mem_nil, or_false] at named
    rcases named with rfl | rfl | rfl | rfl | rfl | rfl | rfl
    all_goals exact ⟨_, rfl, rfl⟩
  · right
    simp only [List.mem_cons, List.not_mem_nil, or_false, not_or] at named
    obtain ⟨quote, backslash, b, t, n, f, r⟩ := named
    by_cases control : c.toNat < 32
    · left
      rw [escape, if_neg quote, if_neg backslash, if_neg b, if_neg t, if_neg n, if_neg f, if_neg r,
        if_pos control]
      exact ⟨_, _, rfl, unit?_hexDigit control, control⟩
    · exact Or.inr ⟨escape_eq_self quote backslash control, quote, backslash, control⟩

theorem scan_escape (c : Char) (rest : List Char) : scan (escape c ++ rest) =
    (scan rest).map fun split => (escape c ++ split.1, split.2) := by
  obtain ⟨letter, written, named⟩ | ⟨x, y, written, number, _⟩ |
    ⟨written, quote, backslash, printed⟩ := escape_cases c
  · have other : letter ≠ 'u' := by
      rintro rfl
      cases named
    rw [written, List.cons_append, List.singleton_append, scan, named]
    · rfl
    · intro _ _ _ _ _ same
      exact absurd same other
  · simp only [written, List.cons_append, List.nil_append, scan, number]
    rfl
  · rw [written, List.singleton_append, scan, if_neg printed]
    · rfl
    · exact quote
    · intro _ _ _ _ _ same
      exact absurd same backslash
    · intro _ _ same
      exact absurd same backslash

theorem decode_escape (c : Char) (rest : List Char) :
    decode (escape c ++ rest) = (decode rest).map (c :: ·) := by
  obtain ⟨letter, written, named⟩ | ⟨x, y, written, number, small⟩ | ⟨written, _, backslash, _⟩ :=
    escape_cases c
  · have other : letter ≠ 'u' := by
      rintro rfl
      cases named
    rw [written, List.cons_append, List.singleton_append, decode, named]
    · rfl
    · intro _ _ _ _ _ same
      exact absurd same other
  -- A control character is no half of a surrogate pair, so its number stands for itself.
  · have low : isLowSurrogate c.toNat = false := by
      rw [isLowSurrogate, decide_eq_false (by omega), Bool.false_and]
    have high : isHighSurrogate c.toNat = false := by
      rw [isHighSurrogate, decide_eq_false (by omega), Bool.false_and]
    simp only [written, List.cons_append, List.nil_append, decode, number, Option.bind_eq_bind,
      Option.bind_some, low, high, Bool.false_eq_true, if_false, Char.ofNat_toNat]
  · rw [written, List.singleton_append, decode]
    · intro _ _ _ _ _ same
      exact absurd same backslash
    · intro _ _ same
      exact absurd same backslash

theorem whole_encode (cs : List Char) : Whole (encode cs) := by
  intro rest
  induction cs with
  | nil => rw [encode, List.flatMap_nil, List.nil_append, scan]
  | cons c cs ih =>
    have split : encode (c :: cs) = escape c ++ encode cs := List.flatMap_cons
    rw [split, List.append_assoc, scan_escape, ih]
    rfl

theorem decode_encode (cs : List Char) : decode (encode cs) = some cs := by
  induction cs with
  | nil => rfl
  | cons c cs ih =>
    have split : encode (c :: cs) = escape c ++ encode cs := List.flatMap_cons
    rw [split, decode_escape, ih]
    rfl

end Repack.Quoted
