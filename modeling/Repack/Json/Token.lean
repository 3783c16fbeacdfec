import Repack.Json.Quoted

/-!
Tokens of JSON text. `Token.scan` skips blanks between tokens; it splits texts off by their closing
quote, and words (numbers and literal names) off whole.
-/
namespace Repack

/-- The six marks of punctuation. -/
inductive Mark
  | openBrace
  | closeBrace
  | openBracket
  | closeBracket
  | comma
  | colon
  deriving DecidableEq, Repr

namespace Mark

def char : Mark → Char
  | openBrace => '{'
  | closeBrace => '}'
  | openBracket => '['
  | closeBracket => ']'
  | comma => ','
  | colon => ':'

def all : List Mark := [openBrace, closeBrace, openBracket, closeBracket, comma, colon]

def ofChar? (c : Char) : Option Mark := all.find? (·.char == c)

end Mark

inductive Token
  | mark (m : Mark)
  /-- The text between two quotes, as written. -/
  | quoted (raw : List Char)
  /-- A number or a literal name, as written. -/
  | word (letters : List Char)
  deriving DecidableEq, Repr

namespace Token

def isBlank (c : Char) : Bool := c == ' ' || c == '\t' || c == '\n' || c == '\r'

def isLetter (c : Char) : Bool :=
  ('0' ≤ c && c ≤ '9') || ('a' ≤ c && c ≤ 'z') || ('A' ≤ c && c ≤ 'Z') ||
    c == '+' || c == '-' || c == '.'

def scan : List Char → Option (List Token)
  | [] => some []
  | c :: cs =>
    if isBlank c then scan cs
    else if c = '"' then
      match _ : Quoted.scan cs with
      | some (raw, rest) => (scan rest).map (.quoted raw :: ·)
      | none => none
    else if isLetter c then
      (scan (cs.dropWhile isLetter)).map (.word (c :: cs.takeWhile isLetter) :: ·)
    else
      match Mark.ofChar? c with
      | some m => (scan cs).map (.mark m :: ·)
      | none => none
termination_by cs => cs.length
decreasing_by
  · exact Nat.lt_succ_self _
  · exact Nat.lt_succ_of_lt (Quoted.length_scan_lt ‹_›)
  · exact Nat.lt_succ_of_le (List.dropWhile_sublist _).length_le
  · exact Nat.lt_succ_self _

def text : Token → List Char
  | mark m => [m.char]
  | quoted raw => '"' :: raw ++ ['"']
  | word letters => letters

end Token

end Repack
