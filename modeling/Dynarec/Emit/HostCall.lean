import Dynarec.Emit.Monad
import Dynarec.Emit.Spill

/-! # Calling the host

A call from emitted code to a routine of the host: guest state is written to the record, the
arguments are placed in the first registers, the routine is called, and the guest state is read
back. What the routine wrote to the record wins over what the registers held. -/

namespace Dynarec.Emit

open Host

/-- How much is kept on the stack over a call (`CallTier`). -/
inductive CallTier where
  /-- All guest registers that the routine may destroy. -/
  | full
  /-- Only the two fixed pointers. -/
  | skipContext
  deriving DecidableEq, Repr

/-- The routine that is called (`Callee`). -/
inductive Callee where
  | helper (address : DWord)
  | register (x : Host.Gpr)
  deriving DecidableEq, Repr

/-- An argument of a call (`CallArg`). -/
inductive CallArg where
  | reg (x : Host.Gpr)
  | imm (value : DWord)
  deriving DecidableEq, Repr

/-- The record and the page table, as every block of code takes them (`context_args`). -/
def contextArgs : List CallArg := [.reg .context, .reg .pageTable]

/-- The moves that place arguments from position `i` on, up to the first source that an earlier
argument has overwritten, and that source (the loop of `place_args`). -/
def placement (i : Nat) : List CallArg → List Host.Instr × Option Host.Gpr
  | [] => ([], none)
  | .imm value :: rest =>
    let (moves, clobbered) := placement (i + 1) rest
    (loadDWord (.ofNat i) value ++ moves, clobbered)
  | .reg source :: rest =>
    if source = .ofNat i then placement (i + 1) rest
    else if source.index < i then ([], some source)
    else
      let (moves, clobbered) := placement (i + 1) rest
      (.mov .x (.ofNat i) source :: moves, clobbered)

/-- Places the arguments of a call (`place_args`). -/
def placeArgs (args : List CallArg) : Emit Unit := do
  if args.length > maxCallArgs then fail (.tooManyArguments args.length)
  let (moves, clobbered) := placement 0 args
  asm moves
  match clobbered with
  | some source => fail (.argumentClobbered source)
  | none => return ()

/-- The register that a call goes through, and the instructions that load it. -/
def Callee.load : Callee → Host.Gpr × List Host.Instr
  | helper address => (.callTarget, loadDWord .callTarget address)
  | register x => (x, [])

/-- Calls a routine (`emit_host_call`). The action `after` emits what comes between the call and the
reading back of guest state, while the result is still in the first register. -/
def hostCall (tier : CallTier) (callee : Callee) (args : List CallArg) (after : Emit Unit) :
    Emit Unit := do
  if let .register x := callee then
    if x.index < args.length then fail (.argumentClobbered x)
  let layout := SpillLayout.compute (← get).regs (← read).shape
  asm (← get).regs.storeToRecord
  match tier with
  | .full => asm layout.spill
  | .skipContext => asm [.stp .context .pageTable .sp 0]
  placeArgs args
  let (target, load) := callee.load
  asm (load ++ [.blr target])
  after
  match tier with
  | .full => asm layout.refill
  | .skipContext => asm [.ldp .context .pageTable .sp 0]
  asm (← get).regs.loadFromRecord

end Dynarec.Emit
