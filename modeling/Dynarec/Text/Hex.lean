/-! # Numbers as text

Lower-case hexadecimal, with and without padding, and the two alignments of a column. -/

namespace Dynarec.Text

/-- `s` with copies of `c` in front until it has `width` characters. -/
def padLeft (width : Nat) (c : Char) (s : String) : String :=
  String.ofList (List.replicate (width - s.length) c) ++ s

/-- `s` with blanks behind until it has `width` characters. -/
def padRight (width : Nat) (s : String) : String :=
  s ++ String.ofList (List.replicate (width - s.length) ' ')

/-- Hexadecimal digits without leading zeros; zero is `0`. -/
def hex (n : Nat) : String := String.ofList (Nat.toDigits 16 n)

/-- Hexadecimal with the `0x` mark, without leading zeros. -/
def hexMarked (n : Nat) : String := "0x" ++ hex n

/-- At least eight hexadecimal digits: how a word of code is written. -/
def hex8 (n : Nat) : String := padLeft 8 '0' (hex n)

/-- The `0x` mark and at least eight digits: how an address is written in a listing. -/
def address (n : Nat) : String := "0x" ++ hex8 n

end Dynarec.Text
