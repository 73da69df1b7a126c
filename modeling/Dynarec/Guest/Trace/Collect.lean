import Dynarec.Guest.Image
import Dynarec.Guest.Trace

/-! # Collecting a trace

Starting at an entry, instructions are read one after the other and cut into blocks: after every
branch, and before every address that an earlier forward branch names. Reading ends behind an
instruction that never falls through, once no forward branch points further; or at a limit, or
at the end of the image, and then the trace is truncated. -/

namespace Dynarec.Guest

/-- How much one trace may cover. -/
structure Limits where
  maxInstructions : Nat := 1024
  maxBytes : Word := 16384
  deriving DecidableEq, Repr

/-- A trace in the making. -/
structure Scan where
  done : Array Block := #[]
  block : Block
  /-- Addresses that forward branches name, none of them a call. -/
  targets : List Word := []

namespace Scan

/-- The forward target of a direct branch that is no call. -/
def forwardTarget? (i : Instr) : Option Word :=
  match i.kind with
  | .branch t => if i.address.toNat < t.toNat then some t else none
  | _ => none

/-- Whether the instruction is a direct branch, no call, to itself or back. -/
def isBackward (i : Instr) : Bool :=
  match i.kind with
  | .branch t => decide (t.toNat ≤ i.address.toNat)
  | _ => false

/-- Closes the current block and opens one at `address`. -/
def cut (s : Scan) (address : Word) : Scan :=
  { s with done := s.done.push s.block, block := { start := address } }

/-- Cuts before an instruction at a forward target. -/
def enter (s : Scan) (address : Word) : Scan :=
  if s.targets.contains address && !s.block.isEmpty then s.cut address else s

/-- Adds an instruction to the current block and notes where it branches to (`GuestBlock.push` and
`note_target`). -/
def append (s : Scan) (i : Instr) : Scan :=
  { s with
    block := { s.block with instrs := s.block.instrs.push i }
    targets := (forwardTarget? i).toList ++ s.targets }

/-- Closes the block behind a branch; a backward one makes the block a loop end. -/
def leave (s : Scan) (i : Instr) : Scan :=
  if i.flags.branch then
    { s with block := { s.block with isLoopEnd := isBackward i } }.cut i.nextPc
  else s

/-- One instruction read. -/
def step (s : Scan) (i : Instr) : Scan := ((s.enter i.address).append i).leave i

/-- Whether reading ends behind `i`: it never falls through, and no forward branch points to the
next address or further. -/
def endsAfter (s : Scan) (i : Instr) : Bool :=
  i.flags.branch && i.endsFlow && !s.targets.any fun t => decide (i.nextPc.toNat ≤ t.toNat)

/-- All blocks that have instructions. -/
def blocks (s : Scan) : Array Block := if s.block.isEmpty then s.done else s.done.push s.block

/-- Reads on from `address` with a budget of instructions, and says whether a limit stopped it (the
loop of `linearize`). -/
def run (img : Image) (entry maxBytes : Word) : Nat → Word → Scan → Except DecodeError (Scan × Bool)
  | 0, _, s => .ok (s, true)
  | budget + 1, address, s =>
    if maxBytes.toNat ≤ (address - entry).toNat || !img.contains address 4 then .ok (s, true)
    else do
      let i ← img.instrAt address
      let s := s.step i
      if s.endsAfter i then .ok (s, false) else run img entry maxBytes budget i.nextPc s

end Scan

/-- The trace from `entry` on (`Linearizer.linearize`). -/
def Trace.collect (limits : Limits) (img : Image) (entry : Word) : Except DecodeError Trace :=
  if img.contains entry 4 then do
    let (scan, truncated) ←
      Scan.run img entry limits.maxBytes limits.maxInstructions entry { block := { start := entry } }
    .ok { Trace.ofBlocks scan.blocks with isTruncated := truncated }
  else .error (.entryOutsideImage entry)

end Dynarec.Guest
