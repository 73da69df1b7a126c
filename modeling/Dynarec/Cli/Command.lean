import Dynarec.Cli.Arguments
import Dynarec.Metrics

/-! # The command

Compiles the units that the arguments ask for. The result says what to print, what to write and
how the program ends; reading the image and writing the files is left to the caller. -/

namespace Dynarec.Cli

open Dynarec.Emit

/-- Distance between the helpers from the helper base on. -/
def helperStride : DWord := 0x100

/-- What a run has to show. -/
structure Report where
  units : List Compiled
  failed : Nat
  metrics : Metrics

/-- Compiles the units in order (the loop of `cmd_translate`). A unit that cannot be compiled is
counted; an abort ends all. -/
def compileAll (one : Word → Except Failure Compiled) : List Word → Report → Option Report
  | [], r => some { r with units := r.units.reverse }
  | entry :: rest, r =>
    match one entry with
    | .ok c =>
      match r.metrics.recordUnit c with
      | (metrics, true) => compileAll one rest { r with units := c :: r.units, metrics }
      | (_, false) => none
    | .error (.error e) => do
      let metrics ← r.metrics.recordFailure? e.reason
      compileAll one rest { r with failed := r.failed + 1, metrics }
    | .error .abort => none

/-- Runs the command on the bytes of an image. Helpers or slots past the end of the address space
give no report. -/
def run? (a : Arguments) (bytes : Array Byte) : Option Report := do
  let entries := if a.entries.isEmpty then [a.base] else a.entries.toList
  let dispatch ← match a.slotBase with
    | none => some DispatchTable.empty
    | some base => (SlotTable.insertAll? { base } entries).map SlotTable.lookup
  let helpers ← Helpers.atStride? a.helperBase helperStride
  let options : Options :=
    { limits := { maxInstructions := a.maxInsns }, config := { helpers } }
  compileAll (translate options dispatch ⟨a.base, bytes⟩) entries ⟨[], 0, {}⟩

/-! ### Text and files -/

/-- A row of the table: the first column to the left, all others to the right. -/
def row (entry guest host fixups exits trunc : String) : String :=
  Text.padRight 10 entry ++ " " ++ Text.padLeft 8 ' ' guest ++ " " ++ Text.padLeft 8 ' ' host ++
    " " ++ Text.padLeft 7 ' ' fixups ++ " " ++ Text.padLeft 6 ' ' exits ++ " " ++
    Text.padLeft 6 ' ' trunc ++ "\n"

def unitRow (c : Compiled) : String :=
  row (Text.address c.start.toNat) (toString c.guestBytes) (toString c.hostBytes)
    (toString c.stats.resolved.fixups) (toString c.stats.exits)
    (if c.stats.truncated then "yes" else "no")

/-- The table of compiled units (`print_units`). -/
def Report.table (r : Report) : String :=
  row "entry" "guest" "host" "fixups" "exits" "trunc" ++ String.join (r.units.map unitRow)

/-- The name of the file that a unit is written to. -/
def fileName (c : Compiled) : String := Text.hex8 c.start.toNat ++ ".bin"

/-- The files of a run with the code that each one holds (`write_units`). -/
def Report.files (r : Report) : List (String × Array Word) :=
  r.units.map fun c => (fileName c, c.code)

/-! ### Outcomes -/

/-- What a run shows apart from its files. -/
structure Outcome where
  exitCode : UInt8
  out : String
  deriving DecidableEq, Repr

def versionText : String := "a32t 0.1.0\n"

def usageText : String :=
  "Usage: a32t [--metrics] [-v|--verbose] translate IMAGE [--base ADDR] [--entry ADDR]...\n" ++
    "            [--max-insns N] [--helper-base ADDR] [--slot-base ADDR] [-o|--output DIR]\n"

/-- The answer to arguments that are no request. -/
def UsageError.outcome : UsageError → Outcome
  | displayHelp => ⟨0, usageText⟩
  | displayVersion => ⟨0, versionText⟩
  | _ => ⟨2, ""⟩

/-- The metrics, if they were asked for. -/
def metricsText (a : Arguments) (m : Metrics) : String := if a.metrics then m.summary else ""

/-- The outcome if the image cannot be read. -/
def Outcome.unreadable (a : Arguments) : Outcome := ⟨1, metricsText a {}⟩

/-- The outcome if there is no report. -/
def Outcome.aborted : Outcome := ⟨101, ""⟩

/-- The outcome of a report, given whether its files could be written. -/
def Report.outcome (r : Report) (a : Arguments) (written : Bool) : Outcome :=
  ⟨if r.failed > 0 || !written then 1 else 0, r.table ++ metricsText a r.metrics⟩

end Dynarec.Cli
