import Dynarec.Emit.HostCall
import Dynarec.Resolve.Reach

/-! # Out-of-line sequences

What stands behind the placeholders of calls, traps, timer reads, sync points and table
branches. Calls and traps continue in the unit only if the routine answers with the address of
the next guest instruction; any other answer leaves the unit for that address. -/

namespace Dynarec.Resolve

open Dynarec.Emit

/-- Leaves the unit unless the guest goes on at `expected` (`exit_unless_continuation`). The flags
are not touched. -/
def exitUnlessContinuation (expected : Word) : Emit Unit := do
  asm [.ldr .w .scratch .context Record.dispatchAddress]
  asm (Host.loadWord .dispatch expected)
  asm [.data .eor .w .scratch .scratch .dispatch]
  loadDispatchTarget none
  let _ ← registerExit (.nonzero .scratch)

/-- Writes the answer of a routine as the address where the guest goes on
(`store_result_to_slot`). -/
def storeAnswer : Emit Unit := asm [.str .w (.ofNat 0) .context Record.dispatchAddress]

/-- A call of guest code, directly or through the address that is written already (`call_stub`). -/
def callStub (f : Fixup) (target : Option Word) : Emit Unit := do
  if let some t := target then writeDispatchAddress t
  loadDispatchTarget target
  hostCall .full (.register .dispatch) contextArgs storeAnswer
  exitUnlessContinuation f.nextPc
  branchBack f.site

/-- A call of a helper that answers where the guest goes on (`trap_stub`). -/
def trapStub (f : Fixup) (helper : DWord) (args : List CallArg) : Emit Unit := do
  hostCall .skipContext (.helper helper) args storeAnswer
  exitUnlessContinuation f.nextPc
  branchBack f.site

/-- Asks at a loop end whether to leave (`sync_point_stub`). The answer outlives the reading back of
guest state in the dispatch register. -/
def syncPointStub (f : Fixup) : Emit Unit := do
  let helper := (← read).config.helpers.syncCheck
  hostCall .full (.helper helper) [.reg .context] (asm [.mov .x .dispatch (.ofNat 0)])
  writeDispatchAddress f.pc
  asm [.mov .w .scratch .dispatch]
  loadDispatchTarget none
  let _ ← registerExit (.nonzero .scratch)
  branchBack f.site

/-- Reads the timer into two guest registers (`timer_read_stub`). -/
def timerReadStub (f : Fixup) (rt rt2 : Guest.Gpr) : Emit Unit := do
  let _ ← pinGpr rt
  let _ ← pinGpr rt2
  let helper := (← read).config.helpers.timerRead
  hostCall .skipContext (.helper helper) [.reg .context] (asm [
    .str .w (.ofNat 0) .context (Record.gpr rt),
    .lsrX .scratch (.ofNat 0) 32,
    .str .w .scratch .context (Record.gpr rt2)])
  branchBack f.site

/-- A guest register as an argument; the program counter is a constant (`guest_arg`). -/
def guestArg (r : Guest.Gpr) (pcValue : Word) : Emit CallArg := do
  if r.isPc then return .imm (pcValue.setWidth 64)
  else return .reg (← pinGpr r)

/-- Leaves the unit for the address that a helper reads from a table (`table_branch_stub`). -/
def tableBranchStub (f : Fixup) (rn rm : Guest.Gpr) (halfword : Bool) : Emit Unit := do
  let base ← guestArg rn f.pcValue
  let index ← guestArg rm f.pcValue
  let helper := (← read).config.helpers.tableBranch
  let args := [.reg .context, base, index, .imm (if halfword then 1 else 0),
    .imm (f.pcValue.setWidth 64)]
  hostCall .skipContext (.helper helper) args storeAnswer
  loadDispatchTarget none
  let _ ← registerExit .always

end Dynarec.Resolve
