/-!
The text between the quotes of a JSON string. `scan` finds where it ends and checks its escapes by
their form only; `decode` gives the characters it stands for, and refuses half of a surrogate pair;
`encode` writes characters with as few escapes as the format allows.
-/
namespace Repack.Quoted

/-- The value of a hexadecimal digit of either case. -/
def hexValue? (c : Char) : Option Nat :=
  if '0' ≤ c && c ≤ '9' then some (c.toNat - '0'.toNat)
  else if 'a' ≤ c && c ≤ 'f' then some (c.toNat - 'a'.toNat + 10)
  else if 'A' ≤ c && c ≤ 'F' then some (c.toNat - 'A'.toNat + 10)
  else none

def unit? (a b c d : Char) : Option Nat := do
  let a ← hexValue? a
  let b ← hexValue? b
  let c ← hexValue? c
  let d ← hexValue? d
  pure (((a * 16 + b) * 16 + c) * 16 + d)

/-- The character that a letter after a backslash stands for. -/
def unescape? : Char → Option Char
  | '"' => some '"'
  | '\\' => some '\\'
  | '/' => some '/'
  | 'b' => some '\x08'
  | 'f' => some '\x0c'
  | 'n' => some '\n'
  | 'r' => some '\r'
  | 't' => some '\t'
  | _ => none

/-- Splits a text at the quote that ends it. -/
def scan : List Char → Option (List Char × List Char)
  | [] => none
  | '"' :: rest => some ([], rest)
  | '\\' :: 'u' :: a :: b :: c :: d :: rest =>
    if (unit? a b c d).isSome then
      (scan rest).map fun (raw, rest) => ('\\' :: 'u' :: a :: b :: c :: d :: raw, rest)
    else none
  | '\\' :: c :: rest =>
    if (unescape? c).isSome then (scan rest).map fun (raw, rest) => ('\\' :: c :: raw, rest)
    else none
  | c :: rest =>
    if c.toNat < 0x20 then none else (scan rest).map fun (raw, rest) => (c :: raw, rest)

/-- What is left after a text is shorter than what it was split from. -/
theorem length_scan_lt {cs raw rest : List Char} (h : scan cs = some (raw, rest)) :
    rest.length < cs.length := by
  fun_induction scan cs generalizing raw rest with
  | case1 => cases h
  | case2 r =>
    cases h
    exact Nat.lt_succ_self _
  | case3 a b c d r _ ih =>
    obtain ⟨⟨raw', rest'⟩, hs, he⟩ := Option.map_eq_some_iff.1 h
    cases he
    have := ih hs
    simp only [List.length_cons]
    omega
  | case4 => cases h
  | case5 c r _ _ ih =>
    obtain ⟨⟨raw', rest'⟩, hs, he⟩ := Option.map_eq_some_iff.1 h
    cases he
    have := ih hs
    simp only [List.length_cons]
    omega
  | case6 => cases h
  | case7 => cases h
  | case8 c r _ _ _ _ ih =>
    obtain ⟨⟨raw', rest'⟩, hs, he⟩ := Option.map_eq_some_iff.1 h
    cases he
    have := ih hs
    simp only [List.length_cons]
    omega

def isHighSurrogate (n : Nat) : Bool := 0xD800 ≤ n && n < 0xDC00

def isLowSurrogate (n : Nat) : Bool := 0xDC00 ≤ n && n < 0xE000

def codePoint (high low : Nat) : Nat := 0x10000 + (high - 0xD800) * 0x400 + (low - 0xDC00)

/-- The characters that a text stands for. -/
def decode : List Char → Option (List Char)
  | [] => some []
  | '\\' :: 'u' :: a :: b :: c :: d :: rest => do
    let m ← unit? a b c d
    if isLowSurrogate m then none
    else if isHighSurrogate m then
      match rest with
      | '\\' :: 'u' :: e :: f :: g :: h :: rest => do
        let n ← unit? e f g h
        if isLowSurrogate n then (decode rest).map (Char.ofNat (codePoint m n) :: ·) else none
      | _ => none
    else (decode rest).map (Char.ofNat m :: ·)
  | '\\' :: c :: rest => do
    let c ← unescape? c
    (decode rest).map (c :: ·)
  | c :: rest => (decode rest).map (c :: ·)
termination_by structural cs => cs

/-- The lower case hexadecimal digit of a number below 16. -/
def hexDigit (n : Nat) : Char := if n < 10 then Char.ofNat (48 + n) else Char.ofNat (87 + n)

/-- How a character is written: a quote, a backslash and the control characters are escaped. -/
def escape (c : Char) : List Char :=
  if c = '"' then ['\\', '"']
  else if c = '\\' then ['\\', '\\']
  else if c = '\x08' then ['\\', 'b']
  else if c = '\t' then ['\\', 't']
  else if c = '\n' then ['\\', 'n']
  else if c = '\x0c' then ['\\', 'f']
  else if c = '\r' then ['\\', 'r']
  else if c.toNat < 0x20 then
    ['\\', 'u', '0', '0', hexDigit (c.toNat / 16), hexDigit (c.toNat % 16)]
  else [c]

def encode (cs : List Char) : List Char := cs.flatMap escape

end Repack.Quoted
