import Dynarec.Guest.Decode

/-! # Code images

A run of guest bytes placed at a base address. An image may reach past the end of the guest
address space; addresses there are simply never asked for, so bounds are compared as natural
numbers. -/

namespace Dynarec.Guest

/-- Why no instruction could be read. -/
inductive DecodeError where
  | misaligned (address : Word)
  | outOfImage (address : Word)
  | entryOutsideImage (entry : Word)
  deriving DecidableEq, Repr

def DecodeError.message : DecodeError → String
  | misaligned a => "instruction address " ++ Text.hexMarked a.toNat ++ " is not word aligned"
  | outOfImage a => "instruction at " ++ Text.hexMarked a.toNat ++ " lies outside the code image"
  | entryOutsideImage a => "entry point " ++ Text.hexMarked a.toNat ++ " lies outside the code image"

structure Image where
  base : Word
  bytes : Array Byte

namespace Image

/-- The first address past the image (`CodeImage.end`). -/
def finish (img : Image) : Nat := img.base.toNat + img.bytes.size

/-- Whether the `len` bytes from `address` on lie in the image (`CodeImage.contains`). -/
def contains (img : Image) (address : Word) (len : Nat) : Bool :=
  decide (img.base.toNat ≤ address.toNat) && decide (address.toNat + len ≤ img.finish)

/-- The little-endian word stored at `address`. -/
def word? (img : Image) (address : Word) : Option Word :=
  if img.base.toNat ≤ address.toNat then do
    let at0 := address.toNat - img.base.toNat
    some (Word.ofBytes (← img.bytes[at0]?) (← img.bytes[at0 + 1]?) (← img.bytes[at0 + 2]?)
      (← img.bytes[at0 + 3]?))
  else none

/-- The instruction at `address` (`decode_at`). Alignment is looked at before the bounds are. -/
def instrAt (img : Image) (address : Word) : Except DecodeError Instr :=
  if address.toNat % 4 ≠ 0 then .error (.misaligned address)
  else match img.word? address with
    | none => .error (.outOfImage address)
    | some w => .ok (decode w address)

end Image

end Dynarec.Guest
