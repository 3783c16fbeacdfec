import Repack.Json.Decimal
import Repack.Json.Token

/-!
JSON values, and their compact text. Numbers and texts are kept as written, so that whoever reads a
field decides what it accepts.
-/
namespace Repack

inductive Json
  | null
  | bool (b : Bool)
  | number (letters : List Char)
  | quoted (raw : List Char)
  | array (items : List Json)
  | object (fields : List (List Char × Json))

namespace Json

open Decimal (isDigit)

/-- At least one digit, and nothing else. -/
def isDigits (cs : List Char) : Bool := !cs.isEmpty && cs.all isDigit

/-- The part of a number after its digits: an exponent or nothing. -/
def isExponent : List Char → Bool
  | [] => true
  | e :: cs =>
    (e == 'e' || e == 'E') &&
      match cs with
      | '+' :: cs => isDigits cs
      | '-' :: cs => isDigits cs
      | cs => isDigits cs

/-- The part of a number after its whole part. -/
def isFraction : List Char → Bool
  | '.' :: cs => isDigits (cs.takeWhile isDigit) && isExponent (cs.dropWhile isDigit)
  | cs => isExponent cs

/-- A number without its sign: no zero leads other digits. -/
def isUnsigned : List Char → Bool
  | '0' :: cs => isFraction cs
  | c :: cs => isDigit c && isFraction (cs.dropWhile isDigit)
  | [] => false

def isNumber : List Char → Bool
  | '-' :: cs => isUnsigned cs
  | cs => isUnsigned cs

/-- The value that a word stands for. -/
def ofWord? (letters : List Char) : Option Json :=
  if letters = ['n', 'u', 'l', 'l'] then some null
  else if letters = ['t', 'r', 'u', 'e'] then some (bool true)
  else if letters = ['f', 'a', 'l', 's', 'e'] then some (bool false)
  else if isNumber letters then some (number letters)
  else none

mutual

/-- The tokens of a value. -/
def tokens : Json → List Token
  | null => [.word ['n', 'u', 'l', 'l']]
  | bool true => [.word ['t', 'r', 'u', 'e']]
  | bool false => [.word ['f', 'a', 'l', 's', 'e']]
  | number letters => [.word letters]
  | quoted raw => [.quoted raw]
  | array items => .mark .openBracket :: itemTokens items ++ [.mark .closeBracket]
  | object fields => .mark .openBrace :: fieldTokens fields ++ [.mark .closeBrace]

def itemTokens : List Json → List Token
  | [] => []
  | [j] => j.tokens
  | j :: js => j.tokens ++ .mark .comma :: itemTokens js

def fieldTokens : List (List Char × Json) → List Token
  | [] => []
  | [(key, j)] => .quoted key :: .mark .colon :: j.tokens
  | (key, j) :: fields =>
    .quoted key :: .mark .colon :: j.tokens ++ .mark .comma :: fieldTokens fields

end

/-- The text of a value, without blanks. -/
def text (j : Json) : List Char := j.tokens.flatMap Token.text

end Json

end Repack
