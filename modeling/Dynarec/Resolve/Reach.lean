import Dynarec.Emit.Exit

/-! # Branches between places in the code

Branches whose two ends are known, with the check that they reach. -/

namespace Dynarec.Resolve

open Dynarec.Emit

/-- The branch from one word to another (`checked_b`). -/
def branchTo (site target : Nat) : Emit Host.Instr :=
  let disp := displacement site target
  if Host.fits26 disp then return .b disp else fail (.branchOutOfRange site target disp)

/-- Points the placeholder of a fixup at a sequence further on. -/
def pointAt (site start : Nat) : Emit Unit := do
  writeInstr site (← branchTo site start)

/-- Continues behind the placeholder of a fixup (`branch_back`). -/
def branchBack (site : Nat) : Emit Unit := do
  asm [← branchTo (← ip) (site + 1)]

/-- Takes a branch to the next word out: the last word of the code vanishes, any other becomes a
word without effect. -/
def elide (site : Nat) : Emit Unit := do
  if site + 1 = (← ip) then
    let _ ← eraseLast
  else writeInstr site .nop

end Dynarec.Resolve
