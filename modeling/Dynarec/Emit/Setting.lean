import Dynarec.Emit.SlotTable
import Dynarec.Guest.Trace

/-! # Settings of an emission

What stays fixed while one trace is emitted: the addresses of the helpers, the instruction set
of the link value, the room kept for the prologue, the dispatch table, and the helper calls that
the trace needs. -/

namespace Dynarec.Emit

/-- Host addresses of the routines that emitted code calls or jumps to. -/
structure Helpers where
  fallbackDispatcher : DWord := 0
  syncCheck : DWord := 0
  softwareInterrupt : DWord := 0
  exception : DWord := 0
  timerRead : DWord := 0
  tableBranch : DWord := 0
  deriving DecidableEq, Repr

/-- The helpers at equal distances from `base` on, if all their addresses exist (`at_stride`). -/
def Helpers.atStride? (base stride : DWord) : Option Helpers :=
  if base.toNat + 5 * stride.toNat < dwordCount then
    some {
      fallbackDispatcher := base
      syncCheck := base + stride
      softwareInterrupt := base + 2 * stride
      exception := base + 3 * stride
      timerRead := base + 4 * stride
      tableBranch := base + 5 * stride }
  else none

/-- Words kept free for a prologue unless asked otherwise. -/
def prologueMaxWords : Nat := 64

structure Config where
  helpers : Helpers := {}
  thumb : Bool := false
  prologueWords : Nat := prologueMaxWords
  deriving DecidableEq, Repr

/-- What a call leaves in the guest link register: the low bit marks a Thumb caller
(`link_value`). -/
def Config.linkValue (c : Config) (nextPc : Word) : Word := if c.thumb then nextPc ||| 1 else nextPc

/-- Which helper calls occur in a unit (`UnitShape`). -/
structure Shape where
  hasHostCall : Bool := false
  hasHostCallSkipContext : Bool := false
  deriving DecidableEq, Repr

def Shape.ofTrace (t : Guest.Trace) : Shape := ⟨t.hasHostCall, t.hasHostCallSkipContext⟩

structure Setting where
  config : Config := {}
  dispatch : DispatchTable := .empty
  shape : Shape := {}

end Dynarec.Emit
