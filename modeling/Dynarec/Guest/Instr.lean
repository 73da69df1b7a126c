import Dynarec.Cond
import Dynarec.Word
import Dynarec.Guest.Register
import Dynarec.Text.Hex

/-! # Guest instructions

What a decoded instruction is: its kind with operands, its condition, and a set of properties
that later stages ask about. The queries below say how it moves the program counter, what it
reads as the program counter, and which carry a rotated immediate produces. -/

namespace Dynarec.Guest

/-! ### Operands and operations -/

inductive AluOp where
  | and | eor | sub | rsb | add | adc | sbc | orr | bic
  deriving DecidableEq, Repr, Inhabited

/-- Whether flags come from the result and the shifter rather than from the adder. -/
def AluOp.isLogical : AluOp → Bool
  | and | eor | orr | bic => true
  | _ => false

/-- Whether the operation reads the carry flag. -/
def AluOp.readsCarry : AluOp → Bool
  | adc | sbc => true
  | _ => false

def AluOp.name : AluOp → String
  | and => "and" | eor => "eor" | sub => "sub" | rsb => "rsb" | add => "add" | adc => "adc"
  | sbc => "sbc" | orr => "orr" | bic => "bic"

inductive CmpOp where
  | tst | teq | cmp | cmn
  deriving DecidableEq, Repr, Inhabited

def CmpOp.name : CmpOp → String
  | tst => "tst" | teq => "teq" | cmp => "cmp" | cmn => "cmn"

/-- A second operand: a register, or an immediate after its rotation. -/
inductive Operand where
  | reg (r : Gpr)
  | imm (value : Word)
  deriving DecidableEq, Repr

/-- The two exceptions that an instruction can raise on its own. -/
inductive ExceptionKind where
  | undefined | breakpoint
  deriving DecidableEq, Repr

/-- The number by which the exception helper knows the exception. -/
def ExceptionKind.number : ExceptionKind → DWord
  | undefined => 0
  | breakpoint => 1

/-! ### Kinds -/

inductive Kind where
  | alu (op : AluOp) (rd rn : Gpr) (operand : Operand)
  | move (rd : Gpr) (operand : Operand) (negate : Bool)
  | compare (op : CmpOp) (rn : Gpr) (operand : Operand)
  | vmove (dd dm : Dreg)
  | branch (target : Word)
  | branchLink (target : Word)
  | branchExchange (rm : Gpr)
  | branchLinkExchange (rm : Gpr)
  | tableBranch (rn rm : Gpr) (halfword : Bool)
  | supervisorCall (imm : Word)
  | breakpoint (imm : BitVec 16)
  | undefined
  | readTimer (rt rt2 : Gpr)
  | ifThen (firstcond mask : BitVec 8)
  | nop
  deriving DecidableEq, Repr

namespace Kind

/-- The address a direct branch or direct call names (`direct_target`). -/
def directTarget? : Kind → Option Word
  | branch t | branchLink t => some t
  | _ => none

def isControlTransfer : Kind → Bool
  | branch _ | branchLink _ | branchExchange _ | branchLinkExchange _ | tableBranch .. => true
  | _ => false

def isCall : Kind → Bool
  | branchLink _ | branchLinkExchange _ => true
  | _ => false

/-- The immediate operand, where the kind has one. -/
def immediate? : Kind → Option Word
  | alu _ _ _ (.imm v) | move _ (.imm v) _ | compare _ _ (.imm v) => some v
  | _ => none

/-- Whether the program counter is the destination of a computation. -/
def writesPc : Kind → Bool
  | alu _ rd _ _ | move rd _ _ => rd.isPc
  | _ => false

/-- Whether control never passes to the next instruction once the instruction takes effect. -/
def leaves : Kind → Bool
  | branch _ | branchExchange _ | tableBranch .. => true
  | k => k.writesPc

end Kind

/-! ### Properties -/

structure Flags where
  setsFlags : Bool := false
  thumb16 : Bool := false
  call : Bool := false
  branch : Bool := false
  hostCall : Bool := false
  hostCallSkipContext : Bool := false
  rotatedImm : Bool := false
  deriving DecidableEq, Repr, Inhabited

namespace Flags

/-- The properties as a bit set, in the order of the fields. -/
def toBits (f : Flags) : BitVec 7 :=
  BitVec.ofBool f.rotatedImm ++ BitVec.ofBool f.hostCallSkipContext ++ BitVec.ofBool f.hostCall ++
    BitVec.ofBool f.branch ++ BitVec.ofBool f.call ++ BitVec.ofBool f.thumb16 ++
    BitVec.ofBool f.setsFlags

def ofBits (b : BitVec 7) : Flags where
  setsFlags := b.getLsbD 0
  thumb16 := b.getLsbD 1
  call := b.getLsbD 2
  branch := b.getLsbD 3
  hostCall := b.getLsbD 4
  hostCallSkipContext := b.getLsbD 5
  rotatedImm := b.getLsbD 6

end Flags

/-! ### Instructions -/

structure Instr where
  address : Word
  encoding : Word
  name : String
  kind : Kind
  flags : Flags := {}
  cond : Cond := .al
  deriving DecidableEq, Repr

namespace Instr

/-- The bytes the instruction takes up. -/
def size (i : Instr) : Nat := if i.flags.thumb16 then 2 else 4

/-- The address of the instruction that follows in memory (`next_pc`). -/
def nextPc (i : Instr) : Word := i.address + BitVec.ofNat 32 i.size

/-- What the instruction reads as the program counter (`pc_read_value`). -/
def pcReadValue (i : Instr) : Word := i.address + if i.flags.thumb16 then 4 else 8

def setsFlags (i : Instr) : Bool := i.flags.setsFlags

/-- The carry out of a rotated immediate, its top bit; any other operand leaves the carry
(`shifter_carry`). -/
def shifterCarry? (i : Instr) : Option Bool :=
  if i.flags.rotatedImm then i.kind.immediate?.map (·.getLsbD 31) else none

def writesPc (i : Instr) : Bool := i.kind.writesPc

/-- Whether the instruction, run under the predicate `c`, never falls through
(`ends_flow_under`). -/
def endsFlowUnder (i : Instr) (c : Cond) : Bool := c.isAlways && i.kind.leaves

def endsFlow (i : Instr) : Bool := i.endsFlowUnder i.cond

/-- Whether the condition is part of the emitted instruction itself, so that no branch around it is
needed: direct branches, and plain register moves that leave the program counter alone
(`absorbs_condition`). -/
def absorbsCondition (i : Instr) : Bool :=
  match i.kind with
  | .branch _ => true
  | .move rd (.reg rm) false => !i.setsFlags && !rd.isPc && !rm.isPc
  | _ => false

/-- The listing line: address, name, and the condition unless it is `al`. -/
def text (i : Instr) : String :=
  Text.address i.address.toNat ++ ": " ++ i.name ++ if i.cond.isAlways then "" else i.cond.name

end Instr

end Dynarec.Guest
