import Dynarec.Resolve.Stub

/-! # Resolving fixups

Once every block has its place, each placeholder becomes what it stands for. A branch inside the
unit is patched, or vanishes if it leads to the next word; a branch out of it goes through an
exit behind the code; a conditional branch that does not reach takes a long form; everything
else gets a sequence out of line. -/

namespace Dynarec.Resolve

open Dynarec.Emit

/-- How a fixup was resolved. -/
inductive Resolution where
  | patched
  | elided
  | trampoline
  /-- The long form, and whether it ends in an exit. -/
  | longBranch (exits : Bool)
  | stub
  deriving DecidableEq, Repr

/-- How many fixups were resolved, and how (`ResolveStats`). -/
structure Tally where
  fixups : Nat := 0
  patched : Nat := 0
  elided : Nat := 0
  trampolines : Nat := 0
  longBranches : Nat := 0
  stubs : Nat := 0
  deriving DecidableEq, Repr

def Tally.add (t : Tally) (r : Resolution) : Tally :=
  let t := { t with fixups := t.fixups + 1 }
  match r with
  | .patched => { t with patched := t.patched + 1 }
  | .elided => { t with elided := t.elided + 1 }
  | .trampoline => { t with trampolines := t.trampolines + 1 }
  | .longBranch false => { t with longBranches := t.longBranches + 1 }
  | .longBranch true =>
    { t with longBranches := t.longBranches + 1, trampolines := t.trampolines + 1 }
  | .stub => { t with stubs := t.stubs + 1 }

/-! ### Direct branches -/

/-- A branch through an exit behind the code. -/
def trampoline (f : Fixup) (target : Word) : Emit Resolution := do
  let start ← ip
  let _ ← emitExit target
  pointAt f.site start
  return .trampoline

/-- A branch under no condition (`resolve_branch`). -/
def directBranch (f : Fixup) (target : Word) : Emit Resolution := do
  match ← targetIndex? target with
  | none => trampoline f target
  | some index =>
    let disp := displacement f.site index
    if disp == 1 then
      elide f.site
      return .elided
    else if Host.fits26 disp then
      writeInstr f.site (.b disp)
      return .patched
    else trampoline f target

/-- The placeholder leads to a conditional branch over the way back, and on to the target
(`long_cond_branch`). -/
def longBranch (f : Fixup) (cond : Cond) (target : Word) (index : Option Nat) :
    Emit Resolution := do
  let start ← ip
  asm [.bCond cond 2]
  asm [← branchTo (start + 1) (f.site + 1)]
  let near := (index.map (displacement (start + 2))).filter Host.fits26
  match near with
  | some disp => asm [.b disp]
  | none =>
    let _ ← emitExit target
  pointAt f.site start
  return .longBranch near.isNone

/-- A branch under a condition (`resolve_cond_branch`). -/
def condBranch (f : Fixup) (cond : Cond) (target : Word) : Emit Resolution := do
  match ← targetIndex? target with
  | some index =>
    let disp := displacement f.site index
    if disp == 1 then
      elide f.site
      return .elided
    else if Host.fits19 disp then
      writeInstr f.site (.bCond cond disp)
      return .patched
    else longBranch f cond target (some index)
  | none =>
    let disp := displacement f.site (← ip)
    if Host.fits19 disp then
      let _ ← emitExit target
      writeInstr f.site (.bCond cond disp)
      return .trampoline
    else longBranch f cond target none

/-! ### All kinds -/

/-- Emits a sequence behind the code and points the placeholder at it (`out_of_line`). -/
def outOfLine (f : Fixup) (body : Emit Unit) : Emit Resolution := do
  let start ← ip
  body
  pointAt f.site start
  return .stub

def missing {α : Type} (f : Fixup) : Emit α := fail (.missingFixupTarget f.kind.name f.site)

/-- The address that the fixup must have (`required_address`). -/
def requiredAddress (f : Fixup) : Emit Word :=
  match f.target.address? with
  | some a => return a
  | none => missing f

def indirectBranch (f : Fixup) : Emit Resolution := do
  match f.target with
  | .register rm =>
    if rm.isPc then directBranch f f.pcValue
    else
      let x ← pinGpr rm
      outOfLine f (discard (emitExitToRegister x))
  | .none => outOfLine f do
    loadDispatchTarget none
    let _ ← registerExit .always
  | _ => missing f

/-- Resolves one fixup (`resolve`). -/
def one (f : Fixup) : Emit Resolution := do
  let helpers := (← read).config.helpers
  match f.kind with
  | .branch => directBranch f (← requiredAddress f)
  | .condBranch cond => condBranch f cond (← requiredAddress f)
  | .call =>
    let target ← requiredAddress f
    outOfLine f (callStub f (some target))
  | .indirectCall => outOfLine f (callStub f none)
  | .indirectBranch => indirectBranch f
  | .tableBranch halfword =>
    match f.target with
    | .registers rn rm => outOfLine f (tableBranchStub f rn rm halfword)
    | _ => missing f
  | .syncPoint => outOfLine f (syncPointStub f)
  | .softwareInterrupt imm =>
    outOfLine f (trapStub f helpers.softwareInterrupt
      [.reg .context, .imm (imm.setWidth 64), .imm (f.nextPc.setWidth 64)])
  | .exception kind imm =>
    outOfLine f (trapStub f helpers.exception
      [.reg .context, .imm kind.number, .imm (f.pc.setWidth 64), .imm (imm.setWidth 64)])
  | .timerRead =>
    match f.target with
    | .registers rt rt2 => outOfLine f (timerReadStub f rt rt2)
    | _ => missing f

/-- Resolves fixups in order; each must still have its placeholder (the loop of
`resolve_fixups`). -/
def each (tally : Tally) : List Fixup → Emit Tally
  | [] => return tally
  | f :: rest => do
    if (← readWord? f.site) ≠ some f.kind.placeholder.encode then fail (.notAPlaceholder f.site)
    each (tally.add (← one f)) rest

/-- Resolves all fixups (`resolve_fixups`). -/
def all : Emit Tally := do each {} (← takeFixups)

end Dynarec.Resolve
