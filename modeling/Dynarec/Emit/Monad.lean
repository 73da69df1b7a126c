import Dynarec.Emit.Fault
import Dynarec.Emit.Fixup
import Dynarec.Emit.RegisterUse
import Dynarec.Emit.Setting
import Dynarec.Guest.ItState
import Dynarec.Host.Constant

/-! # Emission

The state that grows while a trace is emitted, and the actions on its parts: words of code,
leases, block starts, and fixups. A failed action keeps what it did before it failed. -/

namespace Dynarec.Emit

/-- The condition under which an exit of the unit is taken. -/
inductive ExitCondition where
  | always
  | cond (c : Cond)
  | nonzero (x : Host.Gpr)
  | zero (x : Host.Gpr)
  deriving DecidableEq, Repr

/-- A registered exit: its condition and the index of its branch to the trailer. -/
structure Exit where
  condition : ExitCondition
  site : Nat
  deriving DecidableEq, Repr

/-- The branch-over region in progress. While `active` is not `al`, the branch at `site` skips
the region. -/
structure Region where
  active : Cond := .al
  site : Option Nat := none
  it : Guest.ItState := {}
  deriving DecidableEq, Repr

/-- The guest instruction being emitted; all zero between instructions. -/
structure Current where
  pc : Word := 0
  nextPc : Word := 0
  pcValue : Word := 0
  cond : Cond := .al
  deriving DecidableEq, Repr

structure Emission where
  code : Array Word := #[]
  regs : RegisterUse := {}
  fixups : Array Fixup := #[]
  region : Region := {}
  exits : Array Exit := #[]
  /-- Index of the first word of each block, by its guest address. -/
  targets : Std.HashMap Word Nat := {}
  current : Current := {}

end Dynarec.Emit

namespace Dynarec

/-- Actions on an emission under fixed settings. -/
abbrev Emit := ReaderT Emit.Setting (EStateM Emit.Fault Emit.Emission)

end Dynarec

namespace Dynarec.Emit

def fail {α : Type} (e : EmitError) : Emit α := throw (.error e)

def abort {α : Type} : Emit α := throw .abort

/-! ### Words -/

/-- The index of the next word. -/
def ip : Emit Nat := return (← get).code.size

/-- Appends a word and gives its index. -/
def emitWord (w : Word) : Emit Nat :=
  modifyGet fun s => (s.code.size, { s with code := s.code.push w })

/-- Appends words. -/
def emitWords (ws : Array Word) : Emit Unit := modify fun s => { s with code := s.code ++ ws }

/-- Appends one instruction and gives its index. -/
def emitInstr (i : Host.Instr) : Emit Nat :=
  match i.encode? with
  | some w => emitWord w
  | none => abort

/-- Appends instructions. -/
def asm : List Host.Instr → Emit Unit
  | [] => return ()
  | i :: rest => do
    let _ ← emitInstr i
    asm rest

/-- The word at an index. -/
def readWord? (i : Nat) : Emit (Option Word) := return (← get).code[i]?

/-- Replaces the word at an index, which must exist. -/
def writeWord (i : Nat) (w : Word) : Emit Unit := do
  if i < (← get).code.size then modify fun s => { s with code := s.code.setIfInBounds i w }
  else abort

/-- Replaces the word at an index by an instruction. -/
def writeInstr (i : Nat) (instr : Host.Instr) : Emit Unit :=
  match instr.encode? with
  | some w => writeWord i w
  | none => abort

/-- Removes the last word, if there is one (`erase_last`). -/
def eraseLast : Emit (Option Word) :=
  modifyGet fun s => (s.code.back?, { s with code := s.code.pop })

/-- Words from one index to another. -/
def displacement (source target : Nat) : Int := (target : Int) - (source : Int)

/-- Words from one index to another where indices may be any 64-bit numbers. Both are read as
signed, and so must the difference be. -/
def displacement? (source target : DWord) : Option Int :=
  if target.ssubOverflow source then none else some (target.toInt - source.toInt)

/-- The bytes of the code so far. -/
def codeBytes (code : Array Word) : List Byte := code.toList.flatMap Word.bytes

/-- Keeps room for the prologue, which is possible only before anything else
(`reserve_prologue`). -/
def reservePrologue : Emit Unit := do
  if (← get).code.isEmpty then
    let n := (← read).config.prologueWords
    emitWords (Array.replicate n Host.Instr.nop.encode)
  else abort

/-! ### Block starts and the current instruction -/

/-- Notes that the block at a guest address starts here; the first note stays
(`mark_block_start`). -/
def markBlockStart (address : Word) : Emit Unit :=
  modify fun s => { s with targets := s.targets.insertIfNew address s.code.size }

/-- Where the block at a guest address starts (`target_index`). -/
def targetIndex? (address : Word) : Emit (Option Nat) := return (← get).targets[address]?

def beginInstr (i : Guest.Instr) (cond : Cond) : Emit Unit :=
  modify fun s =>
    { s with current := { pc := i.address, nextPc := i.nextPc, pcValue := i.pcReadValue, cond } }

def endInstr : Emit Unit := modify fun s => { s with current := {} }

def current : Emit Current := return (← get).current

/-! ### Registers -/

def markFlags : Emit Unit := modify fun s => { s with regs := s.regs.markFlags }

/-- The host register of a guest register. -/
def pinGpr (r : Guest.Gpr) : Emit Host.Gpr := do
  match (← get).regs.pinGpr? r with
  | some (x, regs) =>
    modify fun s => { s with regs }
    return x
  | none => fail (.unmappedGuestRegister r)

/-- The host register of a guest double register, if it has one. -/
def pinVreg? (d : Guest.Dreg) : Emit (Option Host.Vreg) := do
  match (← get).regs.pinVreg? d with
  | some (v, regs) =>
    modify fun s => { s with regs }
    return some v
  | none => return none

def leaseGpr : Emit Host.Gpr := do
  match (← get).regs.leaseGpr? with
  | some (x, regs) =>
    modify fun s => { s with regs }
    return x
  | none => fail (.poolExhausted .gpr)

def leaseVreg : Emit Host.Vreg := do
  match (← get).regs.leaseVreg? with
  | some (v, regs) =>
    modify fun s => { s with regs }
    return v
  | none => fail (.poolExhausted .vreg)

def releaseGpr (x : Host.Gpr) : Emit Unit := do
  match (← get).regs.releaseGpr? x with
  | some regs => modify fun s => { s with regs }
  | none => abort

def releaseVreg (v : Host.Vreg) : Emit Unit := do
  match (← get).regs.releaseVreg? v with
  | some regs => modify fun s => { s with regs }
  | none => abort

/-- Gives registers back, one after the other. -/
def giveBack (out : Leases) : Emit Unit := do
  List.forM out.gprs releaseGpr
  List.forM out.vregs releaseVreg

/-- Runs an action and gives back every lease that it took and still holds, whether it ends well or
fails (the drop of each `ScopedRegister`). -/
def leasing {α : Type} (m : Emit α) : Emit α := do
  let before := (← get).regs
  try m
  finally giveBack ((← get).regs.leasedSince before)

/-! ### Fixups -/

/-- Pins every register of a list but the program counter. -/
def pinAll : List Guest.Gpr → Emit Unit
  | [] => return ()
  | r :: rest => do
    if !r.isPc then
      let _ ← pinGpr r
    pinAll rest

/-- Emits a placeholder for the current instruction, notes its fixup, and gives its index
(`push_fixup`). -/
def pushFixup (kind : FixupKind) (target : FixupTarget) : Emit Nat := do
  pinAll target.regs
  if let .condBranch _ := kind then markFlags
  let site ← emitInstr kind.placeholder
  modify fun s =>
    let fixup : Fixup :=
      ⟨kind, target, site, s.current.pc, s.current.nextPc, s.current.pcValue⟩
    { s with fixups := s.fixups.push fixup }
  return site

/-- All fixups so far, which are then forgotten. -/
def takeFixups : Emit (List Fixup) :=
  modifyGet fun s => (s.fixups.toList, { s with fixups := #[] })

end Dynarec.Emit
