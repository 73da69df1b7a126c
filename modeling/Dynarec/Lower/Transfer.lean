import Dynarec.Emit.Exit

/-! # Control transfers and helper instructions

Each of them becomes a placeholder with a fixup. Calls first write the guest link register. -/

namespace Dynarec.Lower

open Dynarec.Emit

/-- A direct branch, under the condition of the instruction (`emit_branch`). -/
def branch (target : Word) : Emit Unit := do
  let cond := (← current).cond
  let kind := if cond.isAlways then .branch else .condBranch cond
  let _ ← pushFixup kind (.address target)

/-- Writes the return address to the guest link register (`write_link`). -/
def writeLink : Emit Unit := do
  let lr ← pinGpr .lr
  let value := (← read).config.linkValue (← current).nextPc
  asm (Host.loadWord lr value)

/-- A direct call (`emit_branch_link`). -/
def branchLink (target : Word) : Emit Unit := do
  writeLink
  let _ ← pushFixup .call (.address target)

/-- A branch through a register (`emit_branch_exchange`). -/
def branchExchange (rm : Guest.Gpr) : Emit Unit := do
  let _ ← pushFixup .indirectBranch (.register rm)

/-- A call through a register (`emit_branch_link_exchange`). The target is written before the link
register changes. -/
def branchLinkExchange (rm : Guest.Gpr) : Emit Unit := do
  if rm.isPc then writeDispatchAddress (← current).pcValue
  else writeDispatchRegister (← pinGpr rm)
  writeLink
  let _ ← pushFixup .indirectCall .none

/-- A branch through a table (`emit_table_branch`). -/
def tableBranch (rn rm : Guest.Gpr) (halfword : Bool) : Emit Unit := do
  let _ ← pushFixup (.tableBranch halfword) (.registers rn rm)

/-- A call of the supervisor (`emit_supervisor_call`). -/
def supervisorCall (imm : Word) : Emit Unit := do
  let _ ← pushFixup (.softwareInterrupt imm) .none

/-- An exception that an instruction raises on its own (`emit_breakpoint`, `emit_undefined`). -/
def raise (kind : Guest.ExceptionKind) (imm : Word) : Emit Unit := do
  let _ ← pushFixup (.exception kind imm) .none

/-- A read of the timer (`emit_read_timer`). -/
def readTimer (rt rt2 : Guest.Gpr) : Emit Unit := do
  let _ ← pushFixup .timerRead (.registers rt rt2)

end Dynarec.Lower
