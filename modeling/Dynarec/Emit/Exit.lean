import Dynarec.Emit.Monad
import Dynarec.Emit.Record
import Dynarec.Host.Branch

/-! # Leaving a unit

An exit writes the guest address where the guest goes on, loads the code address for it, and
branches to the trailer. Exits are emitted as branches to themselves and all pointed at the one
trailer when its place is known. -/

namespace Dynarec.Emit

open Host

namespace ExitCondition

def isConditional : ExitCondition → Bool
  | always => false
  | _ => true

/-- The branch around an exit whose condition fails (`ExitCondition.skip`). -/
def skip : ExitCondition → List Host.Instr
  | always => []
  | cond c => [.bCond c.invert 2]
  | nonzero x => [.cbz x 2]
  | zero x => [.cbnz x 2]

end ExitCondition

/-- Emits an exit and gives the index of its branch (`TailMerger.register`). The condition `al` is
not one: an unconditional exit is `always`. -/
def registerExit (condition : ExitCondition) : Emit Nat := do
  if condition = .cond .al then fail (.invalidRegionCondition .al)
  asm condition.skip
  let site ← emitInstr (.b 0)
  modify fun s => { s with exits := s.exits.push ⟨condition, site⟩ }
  return site

/-- Points exits at the trailer (the loop of `TailMerger.finalize`). -/
def patchExits (trailer : Nat) : List Exit → Emit Unit
  | [] => return ()
  | e :: rest => do
    let disp := displacement e.site trailer
    if !fits26 disp then fail (.branchOutOfRange e.site trailer disp)
    writeInstr e.site (.b disp)
    patchExits trailer rest

/-- Lets the trailer be appended, points all exits at it, and gives its index; without exits there
is no trailer. -/
def mergeExits (trailer : Emit Unit) : Emit (Option Nat) := do
  let exits ← modifyGet fun s => (s.exits.toList, { s with exits := #[] })
  if exits.isEmpty then return none
  let start ← ip
  trailer
  patchExits start exits
  return some start

/-- Appends the instructions of the trailer and points all exits at it (`TailMerger.finalize`). -/
def finalizeExits (trailer : List Host.Instr) : Emit (Option Nat) := mergeExits (asm trailer)

/-! ### Where the guest goes on -/

/-- Writes a known guest address (`write_dispatch_address`). -/
def writeDispatchAddress (guest : Word) : Emit Unit :=
  asm (loadWord .scratch guest ++ [.str .w .scratch .context Record.dispatchAddress])

/-- Writes the guest address in a register (`write_dispatch_register`). -/
def writeDispatchRegister (x : Host.Gpr) : Emit Unit :=
  asm [.str .w x .context Record.dispatchAddress]

/-- Loads the code address to jump to: from the slot of a known guest address, else that of the
fallback dispatcher (`load_dispatch_target`). -/
def loadDispatchTarget (guest : Option Word) : Emit Unit := do
  let setting ← read
  match guest.elim .absent setting.dispatch with
  | .found slot => asm (loadDWord .dispatch slot ++ [.ldr .x .dispatch .dispatch 0])
  | .absent => asm (loadDWord .dispatch setting.config.helpers.fallbackDispatcher)
  | .unaddressable => abort

/-- Leaves the unit for a known guest address (`emit_exit`). -/
def emitExit (guest : Word) : Emit Nat := do
  writeDispatchAddress guest
  loadDispatchTarget (some guest)
  registerExit .always

/-- Leaves the unit for the guest address in a register (`emit_exit_to_register`). -/
def emitExitToRegister (x : Host.Gpr) : Emit Nat := do
  writeDispatchRegister x
  loadDispatchTarget none
  registerExit .always

end Dynarec.Emit
