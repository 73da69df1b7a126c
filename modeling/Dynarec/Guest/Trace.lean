import Dynarec.Guest.Instr

/-! # Traces

A trace is a sequence of basic blocks that are compiled together. It remembers whether reading
stopped at a limit, and whether some instruction needs a helper call with the full guest state
or with the two fixed pointers only. -/

namespace Dynarec.Guest

structure Block where
  start : Word
  isLoopEnd : Bool := false
  instrs : Array Instr := #[]
  deriving DecidableEq, Repr

namespace Block

/-- The address after the last instruction, or the start of an empty block. -/
def finish (b : Block) : Word := (b.instrs.back?.map Instr.nextPc).getD b.start

def isEmpty (b : Block) : Bool := b.instrs.isEmpty

end Block

structure Trace where
  blocks : Array Block
  isTruncated : Bool := false
  hasHostCall : Bool := false
  hasHostCallSkipContext : Bool := false
  deriving DecidableEq, Repr

namespace Trace

/-- All instructions in order. -/
def instrs (t : Trace) : List Instr := t.blocks.toList.flatMap (·.instrs.toList)

/-- The trace of the given blocks (`MultiBlock.from_blocks`). A loop end calls the helper that may
stop the loop. -/
def ofBlocks (blocks : Array Block) : Trace where
  blocks
  hasHostCall :=
    blocks.any (·.instrs.any (·.flags.hostCall)) || blocks.any (·.isLoopEnd)
  hasHostCallSkipContext := blocks.any (·.instrs.any (·.flags.hostCallSkipContext))

def start? (t : Trace) : Option Word := t.blocks[0]?.map (·.start)

def finish? (t : Trace) : Option Word := t.blocks.back?.map (·.finish)

/-- The bytes that the instructions take up. -/
def guestBytes (t : Trace) : Nat := t.instrs.foldr (fun i n => i.size + n) 0

/-- The bytes that the instructions take up, if a word can count them (`guest_bytes`). -/
def guestBytes? (t : Trace) : Option Nat :=
  if t.guestBytes < wordCount then some t.guestBytes else none

def instrCount (t : Trace) : Nat := t.instrs.length

/-- Whether no block has an instruction. -/
def isEmpty (t : Trace) : Bool := t.blocks.all (·.isEmpty)

end Trace

end Dynarec.Guest
