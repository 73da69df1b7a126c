import Dynarec.Cli.Command

/-! # The program

Reads the image, runs the command, writes the units and prints the outcome. -/

namespace Dynarec.Cli

/-- Prints an outcome and gives its exit code. -/
def conclude (o : Outcome) : IO UInt32 := do
  IO.print o.out
  return o.exitCode.toUInt32

/-- The bytes of a file, unless it cannot be read. -/
def readImage (path : String) : IO (Option (Array Byte)) := do
  try
    let bytes ← IO.FS.readBinFile path
    return some (bytes.data.map UInt8.toBitVec)
  catch e =>
    IO.eprintln s!"failed to read image: {e}"
    return none

/-- Writes files into a directory, which is made if need be. -/
def writeFiles (dir : String) (files : List (String × Array Word)) : IO Unit := do
  IO.FS.createDirAll dir
  for (name, code) in files do
    let bytes := ((Emit.codeBytes code).map UInt8.ofBitVec).toArray
    IO.FS.writeBinFile (dir ++ "/" ++ name) (ByteArray.mk bytes)

/-- Writes the files where the arguments say, and says whether that went well. -/
def writeOutput (a : Arguments) (files : List (String × Array Word)) : IO Bool := do
  match a.output with
  | none => return true
  | some dir =>
    try
      writeFiles dir files
      return true
    catch e =>
      IO.eprintln s!"failed to write units: {e}"
      return false

def runRequest (a : Arguments) : IO UInt32 := do
  match ← readImage a.image with
  | none => conclude (.unreadable a)
  | some bytes =>
    match run? a bytes with
    | none => conclude .aborted
    | some report =>
      let written ← writeOutput a report.files
      conclude (report.outcome a written)

/-- Answers arguments that are no request; an error also gets the usage on the error stream. -/
def refuse (e : UsageError) : IO UInt32 := do
  if e.outcome.exitCode != 0 then IO.eprint usageText
  conclude e.outcome

end Dynarec.Cli

def main (args : List String) : IO UInt32 :=
  match Dynarec.Cli.Arguments.read args with
  | .ok a => Dynarec.Cli.runRequest a
  | .error e => Dynarec.Cli.refuse e
