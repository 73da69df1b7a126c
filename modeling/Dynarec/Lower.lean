import Dynarec.Lower.Data
import Dynarec.Lower.Transfer

/-! # Lowering one instruction

The words of one guest instruction, its condition being the caller's business. All leases taken
on the way are given back. -/

namespace Dynarec

open Dynarec.Emit

/-- What an instruction of the given kind emits. -/
def Lower.kind (i : Guest.Instr) : Emit Unit :=
  match i.kind with
  | .alu op rd rn operand => Lower.alu i op rd rn operand
  | .move rd operand negate => Lower.move i rd operand negate
  | .compare op rn operand => Lower.compare i op rn operand
  | .vmove dd dm => Lower.vmove dd dm
  | .branch target => Lower.branch target
  | .branchLink target => Lower.branchLink target
  | .branchExchange rm => Lower.branchExchange rm
  | .branchLinkExchange rm => Lower.branchLinkExchange rm
  | .tableBranch rn rm halfword => Lower.tableBranch rn rm halfword
  | .supervisorCall imm => Lower.supervisorCall imm
  | .breakpoint imm => Lower.raise .breakpoint (imm.setWidth 32)
  | .undefined => Lower.raise .undefined i.encoding
  | .readTimer rt rt2 => Lower.readTimer rt rt2
  | .ifThen .. | .nop => return ()

/-- Emits one guest instruction (`A32Emitter.emit`). -/
def lower (i : Guest.Instr) : Emit Unit := leasing (Lower.kind i)

end Dynarec
