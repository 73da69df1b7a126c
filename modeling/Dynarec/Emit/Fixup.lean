import Dynarec.Guest.Instr
import Dynarec.Host.Instr

/-! # Fixups

A control transfer is first emitted as a placeholder branch to itself. The fixup beside it says
what the placeholder stands for, and is resolved when all blocks have their places. -/

namespace Dynarec.Emit

inductive FixupKind where
  | branch
  | condBranch (cond : Cond)
  | call
  | indirectBranch
  | indirectCall
  | tableBranch (halfword : Bool)
  | syncPoint
  | softwareInterrupt (imm : Word)
  | exception (kind : Guest.ExceptionKind) (imm : Word)
  | timerRead
  deriving DecidableEq, Repr

namespace FixupKind

def name : FixupKind → String
  | branch => "branch"
  | condBranch _ => "cond_branch"
  | call => "call"
  | indirectBranch => "indirect_branch"
  | indirectCall => "indirect_call"
  | tableBranch _ => "table_branch"
  | syncPoint => "sync_point"
  | softwareInterrupt _ => "software_interrupt"
  | exception .. => "exception"
  | timerRead => "timer_read"

/-- The name, with the condition where there is one. -/
def text : FixupKind → String
  | condBranch c => "cond_branch." ++ c.name
  | k => k.name

/-- Whether a helper of the runtime answers the transfer (`is_helper`). -/
def isHelper : FixupKind → Bool
  | syncPoint | softwareInterrupt _ | exception .. | timerRead => true
  | _ => false

/-- The instruction that holds the place: a branch to itself, under the condition if any. -/
def placeholder : FixupKind → Host.Instr
  | condBranch c => .bCond c 0
  | _ => .b 0

end FixupKind

/-- Where a transfer goes, as far as the instruction says. -/
inductive FixupTarget where
  | none
  | address (a : Word)
  | register (r : Guest.Gpr)
  | registers (r s : Guest.Gpr)
  deriving DecidableEq, Repr

namespace FixupTarget

def address? : FixupTarget → Option Word
  | address a => some a
  | _ => Option.none

/-- The guest registers that the transfer reads or writes (`registers`). -/
def regs : FixupTarget → List Guest.Gpr
  | register r => [r]
  | registers r s => [r, s]
  | _ => []

end FixupTarget

structure Fixup where
  kind : FixupKind
  target : FixupTarget
  /-- Index of the placeholder. -/
  site : Nat
  pc : Word
  nextPc : Word
  pcValue : Word
  deriving DecidableEq, Repr

end Dynarec.Emit
