import Dynarec.Emit.Monad

/-! # Operands of an instruction

Where an operand is while one instruction is emitted: in a pinned register, which stays what it
is, or in a leased one, which is given back. The zero register stands for the constant zero. -/

namespace Dynarec.Lower

open Dynarec.Emit

inductive Value where
  | pinned (x : Host.Gpr)
  | leased (x : Host.Gpr)
  deriving DecidableEq, Repr

namespace Value

def reg : Value → Host.Gpr
  | pinned x | leased x => x

/-- Gives back what was leased for the value. -/
def release : Value → Emit Unit
  | pinned _ => return ()
  | leased x => releaseGpr x

end Value

/-- A constant, in a leased register unless it is zero. -/
def constant (value : Word) : Emit Value := do
  if value = 0 then return .pinned .zr
  let x ← leaseGpr
  asm (Host.loadWord x value)
  return .leased x

/-- A register read; the program counter reads as a constant (`read_gpr`). -/
def readGpr (r : Guest.Gpr) : Emit Value := do
  if r.isPc then constant (← current).pcValue
  else return .pinned (← pinGpr r)

/-- A second operand (`read_operand`). -/
def readOperand : Guest.Operand → Emit Value
  | .reg r => readGpr r
  | .imm value => constant value

/-- Where a result goes; one for the program counter goes to a leased register (`write_target`). -/
def writeTarget (r : Guest.Gpr) : Emit Value := do
  if r.isPc then return .leased (← leaseGpr)
  else return .pinned (← pinGpr r)

end Dynarec.Lower
