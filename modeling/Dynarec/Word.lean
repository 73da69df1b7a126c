/-! # Machine words

Every machine quantity of both architectures is a bit vector. Bytes of a word go in
little-endian order. -/

namespace Dynarec

abbrev Byte := BitVec 8
abbrev Word := BitVec 32
abbrev DWord := BitVec 64

/-- How many words there are: guest addresses are below it. -/
def wordCount : Nat := 0x100000000

/-- How many double words there are: host addresses are below it. -/
def dwordCount : Nat := 0x10000000000000000

/-- The four bytes of a word, lowest first. -/
def Word.bytes (w : Word) : List Byte :=
  [w.extractLsb' 0 8, w.extractLsb' 8 8, w.extractLsb' 16 8, w.extractLsb' 24 8]

/-- The word made of four bytes, lowest first. -/
def Word.ofBytes (b0 b1 b2 b3 : Byte) : Word := b3 ++ b2 ++ b1 ++ b0

/-- Bit `i` of a word. -/
def Word.bit (w : Word) (i : Nat) : Bool := w.getLsbD i

end Dynarec
