import Dynarec.Emit.Frame
import Dynarec.Emit.Region
import Dynarec.Guest.Trace.Collect
import Dynarec.Lower
import Dynarec.Resolve

/-! # Compiling a trace

The body is emitted block by block behind the room for the prologue. Then fixups are resolved,
the trailer is appended, and the prologue is written, since only then all used registers are
known. The emission of single instructions is a parameter, for which `lower` is the usual one. -/

namespace Dynarec

open Dynarec.Emit

/-! ### Options, results, errors -/

structure Options where
  limits : Guest.Limits := {}
  config : Config := {}
  deriving DecidableEq, Repr

structure Stats where
  blocks : Nat
  guestInstructions : Nat
  resolved : Resolve.Tally
  exits : Nat
  conditionalExits : Nat
  trailer : Option Nat
  prologueWords : Nat
  spillBytes : Nat
  truncated : Bool
  deriving DecidableEq, Repr

structure Compiled where
  start : Word
  guestBytes : Nat
  code : Array Word
  stats : Stats
  deriving DecidableEq, Repr

/-- The bytes that the code takes up (`host_bytes`). -/
def Compiled.hostBytes (c : Compiled) : Nat := 4 * c.code.size

/-- Why a unit was not compiled. -/
inductive CompileError where
  | decode (e : Guest.DecodeError)
  | emit (e : EmitError)
  | emptyUnit
  deriving DecidableEq, Repr

namespace CompileError

def message : CompileError → String
  | decode e => "decode error: " ++ e.message
  | emit e => "emit error: " ++ e.message
  | emptyUnit => "compilation unit has no instructions"

/-- The kind of error, as failures are counted (`Error.kind`). -/
def reason : CompileError → String
  | decode _ => "decode"
  | emit _ => "emit"
  | emptyUnit => "empty"

end CompileError

/-- How a compilation ends without a unit. -/
inductive Failure where
  | error (e : CompileError)
  | abort
  deriving DecidableEq, Repr

namespace Compile

/-! ### The body -/

/-- At a loop end: counts the execution counter down and, at zero, asks whether to leave
(`emit_sync_check`). -/
def syncCheck : Emit Unit := do
  asm [
    .ldr .w .scratch .context Record.execCounter,
    .subImm .w .scratch .scratch 1,
    .str .w .scratch .context Record.execCounter,
    .cbnz .scratch 2]
  let _ ← pushFixup .syncPoint .none

/-- One instruction of a block under its predicate; `atLoopEnd` marks the last one of a block that
ends a loop (the loop of `emit_block`). Gives whether control never passes on behind it. -/
def instr (lowering : Guest.Instr → Emit Unit) (atLoopEnd : Bool) (i : Guest.Instr) :
    Emit Bool := do
  match i.kind with
  | .ifThen firstcond mask =>
    beginIt firstcond mask
    return false
  | _ =>
    let predicate := (← get).region.predicate i
    if !predicate.isAlways then markFlags
    beginInstr i predicate
    if atLoopEnd then
      closeRegion
      syncCheck
    transition ((← get).region.loweredPredicate i)
    lowering i
    endInstr
    if i.setsFlags then
      markFlags
      closeRegion
    advanceIt
    return i.endsFlowUnder predicate

/-- The instructions of a block. Gives whether control never passes on behind the last. -/
def instrs (lowering : Guest.Instr → Emit Unit) (isLoopEnd : Bool) (ended : Bool) :
    List Guest.Instr → Emit Bool
  | [] => return ended
  | i :: rest => do
    let ended ← instr lowering (isLoopEnd && rest.isEmpty) i
    instrs lowering isLoopEnd ended rest

/-- One block (`emit_block`). -/
def block (lowering : Guest.Instr → Emit Unit) (b : Guest.Block) : Emit Bool := do
  markBlockStart b.start
  let ended ← instrs lowering b.isLoopEnd false b.instrs.toList
  closeRegion
  return ended

/-- The blocks behind one that ended at `finish`; `ended` says whether control can pass on from
there (the loop of `emit_body`). A gap between blocks, and the end of the unit, are exits. -/
def blocksAfter (lowering : Guest.Instr → Emit Unit) (finish : Word) (ended : Bool) :
    List Guest.Block → Emit Unit
  | [] => do
    if !ended then
      let _ ← emitExit finish
  | b :: rest => do
    if !ended && finish != b.start then
      let _ ← emitExit finish
    let ended ← block lowering b
    blocksAfter lowering b.finish ended rest

/-- All blocks of a trace (`emit_body`). -/
def body (lowering : Guest.Instr → Emit Unit) : List Guest.Block → Emit Unit
  | [] => return ()
  | b :: rest => do
    let ended ← block lowering b
    blocksAfter lowering b.finish ended rest

/-! ### The unit -/

/-- Everything from the room for the prologue to the prologue itself. -/
def unit (lowering : Guest.Instr → Emit Unit) (t : Guest.Trace) : Emit Stats := do
  reservePrologue
  body lowering t.blocks.toList
  let resolved ← Resolve.all
  let frame ← currentFrame none
  let exits := (← get).exits
  let trailer ← finalizeExits (frame.trailer (← get).regs)
  let prologueWords ← writePrologue (← read).config.prologueWords frame
  return {
    blocks := t.blocks.size
    guestInstructions := t.instrCount
    resolved
    exits := exits.size
    conditionalExits := exits.countP (·.condition.isConditional)
    trailer
    prologueWords
    spillBytes := frame.spillBytes
    truncated := t.isTruncated }

end Compile

/-- Compiles a trace (`Compiler.compile`). -/
def compile (lowering : Guest.Instr → Emit Unit) (config : Config) (dispatch : DispatchTable)
    (t : Guest.Trace) : Except Failure Compiled :=
  match t.start? with
  | none => .error (.error .emptyUnit)
  | some start =>
    match Compile.unit lowering t { config, dispatch, shape := .ofTrace t } {} with
    | .ok stats s =>
      match t.guestBytes? with
      | some guestBytes => .ok { start, guestBytes, code := s.code, stats }
      | none => .error .abort
    | .error (.error e) _ => .error (.error (.emit e))
    | .error .abort _ => .error .abort

/-- Collects and compiles the trace from `entry` on (`Compiler.translate`). -/
def translate (options : Options) (dispatch : DispatchTable) (img : Guest.Image) (entry : Word) :
    Except Failure Compiled :=
  match Guest.Trace.collect options.limits img entry with
  | .ok t => compile lower options.config dispatch t
  | .error e => .error (.error (.decode e))

end Dynarec
