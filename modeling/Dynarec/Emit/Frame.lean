import Dynarec.Emit.Monad
import Dynarec.Emit.Spill

/-! # Frames

A unit keeps its caller's registers in a frame: the frame record, pairs of general registers,
vector registers, and below them the spill area. The prologue builds the frame and loads the
guest registers, the trailer stores them and takes the frame down again. -/

namespace Dynarec.Emit

open Host

/-- The largest spill area that one subtraction can reserve. -/
def maxSpillBytes : Nat := 0xFF0

structure Frame where
  savedGprs : List Host.Gpr
  savedVregs : List Host.Vreg
  spillBytes : Nat
  deriving DecidableEq, Repr

namespace Frame

/-- The frame for the registers in use above a spill area of `bytes` bytes (`Frame.new`). -/
def ofUse (u : RegisterUse) (bytes : Nat) : Except EmitError Frame :=
  if bytes > maxSpillBytes then .error (.spillAreaTooLarge bytes)
  else .ok { savedGprs := u.savedGprs.gprs, savedVregs := u.savedVregs.vregs, spillBytes := bytes }

/-- Bytes below the frame record (`frame_bytes`). -/
def bytes (f : Frame) : Nat :=
  ((f.savedGprs.length + 1) / 2 + f.savedVregs.length) * 16 + f.spillBytes

/-- Pushes general registers in pairs, a last odd one alone (the pairs of `Frame.push`). -/
def pushGprs : List Host.Gpr → List Host.Instr
  | x :: y :: rest => .stpPre x y .sp (-16) :: pushGprs rest
  | [x] => [.strPre x .sp (-16)]
  | [] => []

/-- Pops what `pushGprs` pushed, in the opposite order (the pairs of `Frame.pop`). -/
def popGprs : List Host.Gpr → List Host.Instr
  | x :: y :: rest => popGprs rest ++ [.ldpPost x y .sp 16]
  | [x] => [.ldrPost x .sp 16]
  | [] => []

/-- Moves the stack pointer over the spill area. -/
def spillMove (f : Frame) (move : Host.Gpr → Host.Gpr → BitVec 12 → Host.Instr) : List Host.Instr :=
  if f.spillBytes > 0 then [move .sp .sp (BitVec.ofNat 12 f.spillBytes)] else []

/-- Builds the frame (`Frame.push`). -/
def push (f : Frame) : List Host.Instr :=
  [.stpPre .fp .lr .sp (-16), .addImm .x .fp .sp 0] ++ pushGprs f.savedGprs ++
    (f.savedVregs.map fun v => .strVPre v .sp (-16)) ++ f.spillMove (.subImm .x)

/-- Takes the frame down (`Frame.pop`). -/
def pop (f : Frame) : List Host.Instr :=
  f.spillMove (.addImm .x) ++ (f.savedVregs.reverse.map fun v => .ldrVPost v .sp 16) ++
    popGprs f.savedGprs ++ [.ldpPost .fp .lr .sp 16]

/-- Builds the frame, takes over the two fixed pointers and loads the guest registers
(`build_prologue`). -/
def prologue (f : Frame) (u : RegisterUse) : List Host.Instr :=
  f.push ++ [.mov .x .context (.ofNat 0), .mov .x .pageTable (.ofNat 1)] ++ u.loadFromRecord

/-- Stores the guest registers, hands the two pointers on, takes the frame down and jumps to the
code that comes next (`emit_trailer`). -/
def trailer (f : Frame) (u : RegisterUse) : List Host.Instr :=
  u.storeToRecord ++ [.mov .x (.ofNat 0) .context, .mov .x (.ofNat 1) .pageTable] ++ f.pop ++
    [.br .dispatch]

end Frame

/-- The frame for the present registers, its spill area as computed or as given. -/
def currentFrame (bytes : Option Nat) : Emit Frame := do
  let regs := (← get).regs
  let computed := (SpillLayout.compute regs (← read).shape).bytes
  match Frame.ofUse regs (bytes.getD computed) with
  | .ok f => return f
  | .error e => fail e

/-- Writes instructions over the words from an index on. -/
def writeInstrs (i : Nat) : List Host.Instr → Emit Unit
  | [] => return ()
  | instr :: rest => do
    writeInstr i instr
    writeInstrs (i + 1) rest

/-- Writes the prologue into the first `reserved` words, with a branch over those it leaves unused,
and gives its length (`write_prologue`). -/
def writePrologue (reserved : Nat) (f : Frame) : Emit Nat := do
  let instrs := f.prologue (← get).regs
  let length := instrs.length
  if length > reserved then fail (.prologueTooLarge length reserved)
  writeInstrs 0 instrs
  if length < reserved then
    match displacement? (BitVec.ofNat 64 length) (BitVec.ofNat 64 reserved) with
    | some disp => writeInstr length (.b disp)
    | none => abort
  return length

end Dynarec.Emit
