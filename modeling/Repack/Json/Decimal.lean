/-!
Natural numbers in decimal digits, written in one way only: no sign, no leading zero.
-/
namespace Repack.Decimal

def isDigit (c : Char) : Bool := '0' ≤ c && c ≤ '9'

def digits (n : Nat) : List Char := Nat.toDigits 10 n

/-- Reads what `digits` writes, and nothing else. -/
def ofDigits? (cs : List Char) : Option Nat :=
  if cs.isEmpty || !cs.all isDigit || (cs.head? == some '0' && 1 < cs.length) then none
  else some (Nat.ofDigitChars 10 cs 0)

end Repack.Decimal
