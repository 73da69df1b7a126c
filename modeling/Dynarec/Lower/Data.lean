import Dynarec.Emit.Exit
import Dynarec.Lower.Operand

/-! # Data instructions

Arithmetic, logic, moves, compares and moves of double registers. The host adder sets the flags
as the guest's does. Logical operations have their own flag sequence: negative and zero come
from the result, the carry from a rotated immediate if there is one, and the rest is kept. -/

namespace Dynarec.Lower

open Dynarec.Emit

/-- Sets the flags of a logical result, and the carry too where one is given
(`set_logical_flags`). -/
def setLogicalFlags (result : Host.Gpr) (carry : Option Bool) : Emit Unit := do
  let t ← leaseGpr
  asm [.mrsFlags .scratch, .data .ands .w .zr result result, .mrsFlags t]
  match carry with
  | none => asm [.lsrW t t 30, .bfi .scratch t 30 2]
  | some false => asm [.lsrW t t 29, .bfi .scratch t 29 3]
  | some true => asm [.lsrW t t 29, .addImm .w t t 1, .bfi .scratch t 29 3]
  asm [.msrFlags .scratch]
  releaseGpr t

/-- Branches to the guest address that was computed into a register (`branch_to_computed`). -/
def branchToComputed (x : Host.Gpr) : Emit Unit := do
  writeDispatchRegister x
  let _ ← pushFixup .indirectBranch .none

/-- The host instruction of an operation. Logical operations set no flags on the host. -/
def aluInstr (op : Guest.AluOp) (s : Bool) (d a b : Host.Gpr) : Host.Instr :=
  match op with
  | .add => .data (if s then .adds else .add) .w d a b
  | .sub => .data (if s then .subs else .sub) .w d a b
  | .rsb => .data (if s then .subs else .sub) .w d b a
  | .adc => .data (if s then .adcs else .adc) .w d a b
  | .sbc => .data (if s then .sbcs else .sbc) .w d a b
  | .and => .data .and .w d a b
  | .eor => .data .eor .w d a b
  | .orr => .data .orr .w d a b
  | .bic => .data .bic .w d a b

/-- A data operation (`emit_alu`). -/
def alu (i : Guest.Instr) (op : Guest.AluOp) (rd rn : Guest.Gpr) (operand : Guest.Operand) :
    Emit Unit := do
  if op.readsCarry then markFlags
  let lhs ← readGpr rn
  let rhs ← readOperand operand
  let dest ← writeTarget rd
  asm [aluInstr op i.setsFlags dest.reg lhs.reg rhs.reg]
  lhs.release
  rhs.release
  if i.setsFlags && op.isLogical then setLogicalFlags dest.reg i.shifterCarry?
  if rd.isPc then branchToComputed dest.reg

/-- A register move under a condition that is part of the move. -/
def selectMove (rd rm : Guest.Gpr) (cond : Cond) : Emit Unit := do
  let source ← readGpr rm
  let d ← pinGpr rd
  asm [.csel d source.reg d cond]

/-- A move that computes its value into a register. -/
def plainMove (i : Guest.Instr) (rd : Guest.Gpr) (operand : Guest.Operand) (negate : Bool) :
    Emit Unit := do
  let dest ← writeTarget rd
  match operand with
  | .reg rm =>
    let source ← readGpr rm
    asm [if negate then .mvn dest.reg source.reg else .mov .w dest.reg source.reg]
    source.release
  | .imm value => asm (Host.loadWord dest.reg (if negate then ~~~value else value))
  if i.setsFlags then setLogicalFlags dest.reg i.shifterCarry?
  if rd.isPc then branchToComputed dest.reg

/-- A move (`emit_move`). Moving a register to the program counter is a branch through that
register. -/
def move (i : Guest.Instr) (rd : Guest.Gpr) (operand : Guest.Operand) (negate : Bool) :
    Emit Unit := do
  let cond := (← current).cond
  match operand with
  | .reg rm =>
    if rd.isPc && !negate && !i.setsFlags then
      let _ ← pushFixup .indirectBranch (.register rm)
    else if i.absorbsCondition && !cond.isAlways then selectMove rd rm cond
    else plainMove i rd operand negate
  | .imm _ => plainMove i rd operand negate

/-- A compare, of which only the flags stay (`emit_compare`). -/
def compare (i : Guest.Instr) (op : Guest.CmpOp) (rn : Guest.Gpr) (operand : Guest.Operand) :
    Emit Unit := do
  let lhs ← readGpr rn
  let rhs ← readOperand operand
  match op with
  | .cmp => asm [.data .subs .w .zr lhs.reg rhs.reg]
  | .cmn => asm [.data .adds .w .zr lhs.reg rhs.reg]
  | .tst => logical .and lhs rhs
  | .teq => logical .eor lhs rhs
where
  logical (op : Host.DataOp) (lhs rhs : Value) : Emit Unit := do
    let t ← leaseGpr
    asm [.data op .w t lhs.reg rhs.reg]
    lhs.release
    rhs.release
    setLogicalFlags t i.shifterCarry?

/-- A move of a double register; those without a host register are in the record (`emit_vmove`). -/
def vmove (dd dm : Guest.Dreg) : Emit Unit := do
  let source ← pinVreg? dm
  let dest ← pinVreg? dd
  match dest, source with
  | some d, some m => asm [.fmov d m]
  | some d, none => asm [.ldrV .d d .context (Record.dreg dm)]
  | none, some m => asm [.strV .d m .context (Record.dreg dd)]
  | none, none =>
    let t ← leaseVreg
    asm [.ldrV .d t .context (Record.dreg dm), .strV .d t .context (Record.dreg dd)]

end Dynarec.Lower
