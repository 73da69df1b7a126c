import Dynarec.Emit.Record
import Dynarec.Emit.RegisterUse
import Dynarec.Emit.Setting
import Dynarec.Host.Instr

/-! # Keeping guest registers over a call

Guest registers are stored to the guest state record before a helper runs and loaded again
behind it. Registers that a called routine may destroy are also spilled to the stack, in an area
at the bottom of the frame: vector registers first, then general registers, then the flags. -/

namespace Dynarec.Emit

open Host (RegSet)

/-! ### The guest state record -/

/-- The general registers in use with their places in the record. -/
def RegisterUse.gprPlaces (u : RegisterUse) : List (Host.Gpr × Nat) :=
  u.contextGprs.gprs.filterMap fun x => (Host.guestOfGpr? x).map fun r => (x, Record.gpr r)

/-- The vector registers in use with their places in the record. -/
def RegisterUse.vregPlaces (u : RegisterUse) : List (Host.Vreg × Nat) :=
  u.contextVregs.vregs.filterMap fun v => (Host.guestOfVreg? v).map fun d => (v, Record.dreg d)

/-- Stores the guest registers and flags in use to the record (`store_to_context`). -/
def RegisterUse.storeToRecord (u : RegisterUse) : List Host.Instr :=
  (u.gprPlaces.map fun (x, off) => .str .w x .context off) ++
    (u.vregPlaces.map fun (v, off) => .strV .d v .context off) ++
    if u.usesFlags then [.mrsFlags .scratch, .str .w .scratch .context Record.nzcv] else []

/-- Loads the guest registers and flags in use from the record (`load_from_context`). -/
def RegisterUse.loadFromRecord (u : RegisterUse) : List Host.Instr :=
  (u.gprPlaces.map fun (x, off) => .ldr .w x .context off) ++
    (u.vregPlaces.map fun (v, off) => .ldrV .d v .context off) ++
    if u.usesFlags then [.ldr .w .scratch .context Record.nzcv, .msrFlags .scratch] else []

/-! ### The spill area -/

structure SpillLayout where
  gprs : RegSet := .empty
  vregs : RegSet := .empty
  flags : Bool := false
  /-- Bytes that a full call needs. -/
  fullBytes : Nat := 0
  /-- Bytes that the frame keeps. -/
  bytes : Nat := 0
  deriving DecidableEq, Repr

namespace SpillLayout

/-- Bytes that a call needs which keeps only the two fixed pointers. -/
def skipBytes : Nat := 16

/-- `n` rounded up to a multiple of sixteen. -/
def roundUp (n : Nat) : Nat := (n + 15) / 16 * 16

/-- The layout for the registers in use (`SpillLayout.compute`). -/
def compute (u : RegisterUse) (shape : Shape) : SpillLayout :=
  let gprs := if shape.hasHostCall then u.callClobberedGprs else .empty
  let vregs := if shape.hasHostCall then u.contextVregs else .empty
  let flags := shape.hasHostCall && u.usesFlags
  let fullBytes := vregs.size * 16 + gprs.size * 8 + if flags then 8 else 0
  let skip := if shape.hasHostCallSkipContext then skipBytes else 0
  { gprs, vregs, flags, fullBytes, bytes := roundUp (max fullBytes skip) }

/-- Where the general registers start (`gpr_base`). -/
def gprBase (l : SpillLayout) : Nat := l.vregs.size * 16

/-- Where the flags are kept (`flags_offset`). -/
def flagsOffset (l : SpillLayout) : Nat := l.gprBase + l.gprs.size * 8

def vregSlots (l : SpillLayout) : List (Host.Vreg × Nat) :=
  l.vregs.vregs.zipIdx.map fun (v, i) => (v, i * 16)

def gprSlots (l : SpillLayout) : List (Host.Gpr × Nat) :=
  l.gprs.gprs.zipIdx.map fun (x, i) => (x, l.gprBase + i * 8)

/-- Stores the registers and flags of the layout to the spill area (`SpillLayout.spill`). -/
def spill (l : SpillLayout) : List Host.Instr :=
  (l.vregSlots.map fun (v, off) => .strV .q v .sp off) ++
    (l.gprSlots.map fun (x, off) => .str .x x .sp off) ++
    if l.flags then [.mrsFlags .scratch, .str .x .scratch .sp l.flagsOffset] else []

/-- Loads the registers and flags of the layout from the spill area (`SpillLayout.refill`). -/
def refill (l : SpillLayout) : List Host.Instr :=
  (l.vregSlots.map fun (v, off) => .ldrV .q v .sp off) ++
    (l.gprSlots.map fun (x, off) => .ldr .x x .sp off) ++
    if l.flags then [.ldr .x .scratch .sp l.flagsOffset, .msrFlags .scratch] else []

end SpillLayout

end Dynarec.Emit
