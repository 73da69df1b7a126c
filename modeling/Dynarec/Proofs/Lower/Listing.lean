import Dynarec.Lower
import Dynarec.Proofs.Emission.Exit

/-! # The listing of one instruction

What one guest instruction becomes, as a list of items that depends on the instruction alone:
temporary registers are leased from full pools, so their numbers are known beforehand. -/

namespace Dynarec.Lower

open Dynarec.Emit Dynarec.Host

/-! ### Operands -/

/-- The `n`-th temporary register. -/
def temp (n : Nat) : Host.Gpr := .ofNat n

/-- Where an operand is, and the instructions that bring it there. -/
structure Source where
  value : Value
  load : List Host.Instr := []

namespace Source

def reg (x : Source) : Host.Gpr := x.value.reg

/-- How many temporary registers the operand takes. -/
def temps (x : Source) : Nat :=
  match x.value with
  | .pinned _ => 0
  | .leased _ => 1

/-- A constant, in the `n`-th temporary register unless it is zero. -/
def constant (n : Nat) (value : Word) : Source :=
  if value = 0 then { value := .pinned .zr }
  else { value := .leased (temp n), load := loadWord (temp n) value }

def gpr (pcValue : Word) (n : Nat) (r : Guest.Gpr) : Source :=
  if r.isPc then constant n pcValue else { value := .pinned (pinned r) }

def operand (pcValue : Word) (n : Nat) : Guest.Operand → Source
  | .reg r => gpr pcValue n r
  | .imm value => constant n value

end Source

/-- Where a result goes; one for the program counter goes to the `n`-th temporary register. -/
def target (n : Nat) (r : Guest.Gpr) : Host.Gpr := if r.isPc then temp n else pinned r

/-! ### Data instructions -/

/-- Sets the flags of a logical result by way of a temporary register. -/
def flagOps (result t : Host.Gpr) (carry : Option Bool) : List Host.Instr :=
  [.mrsFlags .scratch, .data .ands .w .zr result result, .mrsFlags t] ++
    (match carry with
      | none => [.lsrW t t 30, .bfi .scratch t 30 2]
      | some false => [.lsrW t t 29, .bfi .scratch t 29 3]
      | some true => [.lsrW t t 29, .addImm .w t t 1, .bfi .scratch t 29 3]) ++
    [.msrFlags .scratch]

/-- The lowest temporary register but the one of a result. -/
def flagTemp (result : Host.Gpr) : Host.Gpr := if result = temp 0 then temp 1 else temp 0

/-- A branch to the guest address in a register. -/
def computedItems (x : Host.Gpr) (c : Current) : List Item :=
  [.op (.str .w x .context Record.dispatchAddress), .hole .indirectBranch .none c]

/-- What comes behind a computed result: its flags, and the branch to it. -/
def finishItems (c : Current) (d : Host.Gpr) (logical : Bool) (carry : Option Bool)
    (computed : Bool) : List Item :=
  ops (if logical then flagOps d (flagTemp d) carry else []) ++
    if computed then computedItems d c else []

def aluItems (c : Current) (i : Guest.Instr) (op : Guest.AluOp) (rd rn : Guest.Gpr)
    (operand : Guest.Operand) : List Item :=
  let a := Source.gpr c.pcValue 0 rn
  let b := Source.operand c.pcValue a.temps operand
  let d := target (a.temps + b.temps) rd
  ops (a.load ++ b.load ++ [aluInstr op i.setsFlags d a.reg b.reg]) ++
    finishItems c d (i.setsFlags && op.isLogical) i.shifterCarry? rd.isPc

/-- The instructions that compute the value of a move into a register. -/
def moveOps (c : Current) (n : Nat) (d : Host.Gpr) (operand : Guest.Operand) (negate : Bool) :
    List Host.Instr :=
  match operand with
  | .reg rm =>
    let a := Source.gpr c.pcValue n rm
    a.load ++ [if negate then .mvn d a.reg else .mov .w d a.reg]
  | .imm value => loadWord d (if negate then ~~~value else value)

def plainMoveItems (c : Current) (i : Guest.Instr) (rd : Guest.Gpr) (operand : Guest.Operand)
    (negate : Bool) : List Item :=
  let d := target 0 rd
  ops (moveOps c (if rd.isPc then 1 else 0) d operand negate) ++
    finishItems c d i.setsFlags i.shifterCarry? rd.isPc

def moveItems (c : Current) (i : Guest.Instr) (rd : Guest.Gpr) (operand : Guest.Operand)
    (negate : Bool) : List Item :=
  match operand with
  | .reg rm =>
    if rd.isPc && !negate && !i.setsFlags then [.hole .indirectBranch (.register rm) c]
    else if i.absorbsCondition && !c.cond.isAlways then
      ops [.csel (pinned rd) (pinned rm) (pinned rd) c.cond]
    else plainMoveItems c i rd operand negate
  | .imm _ => plainMoveItems c i rd operand negate

def compareItems (c : Current) (i : Guest.Instr) (op : Guest.CmpOp) (rn : Guest.Gpr)
    (operand : Guest.Operand) : List Item :=
  let a := Source.gpr c.pcValue 0 rn
  let b := Source.operand c.pcValue a.temps operand
  let t := temp (a.temps + b.temps)
  ops (a.load ++ b.load ++
    match op with
    | .cmp => [.data .subs .w .zr a.reg b.reg]
    | .cmn => [.data .adds .w .zr a.reg b.reg]
    | .tst => .data .and .w t a.reg b.reg :: flagOps t (flagTemp t) i.shifterCarry?
    | .teq => .data .eor .w t a.reg b.reg :: flagOps t (flagTemp t) i.shifterCarry?)

def vmoveItems (dd dm : Guest.Dreg) : List Item :=
  ops (match pinnedVreg? dd, pinnedVreg? dm with
    | some d, some m => [.fmov d m]
    | some d, none => [.ldrV .d d .context (Record.dreg dm)]
    | none, some m => [.strV .d m .context (Record.dreg dd)]
    | none, none =>
      [.ldrV .d ⟨0⟩ .context (Record.dreg dm), .strV .d ⟨0⟩ .context (Record.dreg dd)])

/-! ### Transfers -/

/-- Writes the return address to the guest link register. -/
def linkOps (config : Config) (c : Current) : List Host.Instr :=
  loadWord (pinned .lr) (config.linkValue c.nextPc)

/-- The items of an instruction while `c` is current. -/
def items (config : Config) (c : Current) (i : Guest.Instr) : List Item :=
  match i.kind with
  | .alu op rd rn operand => aluItems c i op rd rn operand
  | .move rd operand negate => moveItems c i rd operand negate
  | .compare op rn operand => compareItems c i op rn operand
  | .vmove dd dm => vmoveItems dd dm
  | .branch t =>
    [.hole (if c.cond.isAlways then .branch else .condBranch c.cond) (.address t) c]
  | .branchLink t => ops (linkOps config c) ++ [.hole .call (.address t) c]
  | .branchExchange rm => [.hole .indirectBranch (.register rm) c]
  | .branchLinkExchange rm =>
    ops ((if rm.isPc then addressOps c.pcValue
      else [.str .w (pinned rm) .context Record.dispatchAddress]) ++ linkOps config c) ++
      [.hole .indirectCall .none c]
  | .tableBranch rn rm halfword => [.hole (.tableBranch halfword) (.registers rn rm) c]
  | .supervisorCall imm => [.hole (.softwareInterrupt imm) .none c]
  | .breakpoint imm => [.hole (.exception .breakpoint (imm.setWidth 32)) .none c]
  | .undefined => [.hole (.exception .undefined i.encoding) .none c]
  | .readTimer rt rt2 => [.hole .timerRead (.registers rt rt2) c]
  | .ifThen .. | .nop => []

end Dynarec.Lower
