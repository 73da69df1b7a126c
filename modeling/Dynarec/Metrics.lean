import Std.Data.TreeMap
import Dynarec.Compile
import Dynarec.Text.Fixed

/-! # Metrics

Counters and histograms by name. A counter has 64 bits; counting past them is refused. The
summary lists both in the order of their names. -/

namespace Dynarec

structure Metrics where
  counters : Std.TreeMap String Nat := {}
  histograms : Std.TreeMap String (Array Float) := {}

namespace Metrics

/-! ### Recording -/

def counter? (m : Metrics) (key : String) : Option Nat := m.counters[key]?

/-- Sets a counter. -/
def setCounter (m : Metrics) (key : String) (value : Nat) : Metrics :=
  { m with counters := m.counters.insert key value }

/-- Adds to a counter, if the sum has 64 bits. -/
def increment? (m : Metrics) (key : String) (value : Nat) : Option Metrics :=
  let sum := (m.counter? key).getD 0 + value
  if sum < dwordCount then some (m.setCounter key sum) else none

/-- Adds to counters in order, up to the first sum that is refused, and says whether all were
added. -/
def incrementAll (m : Metrics) : List (String × Nat) → Metrics × Bool
  | [] => (m, true)
  | (key, value) :: rest =>
    match m.increment? key value with
    | some m => m.incrementAll rest
    | none => (m, false)

/-- Adds a value to a histogram. -/
def observe (m : Metrics) (key : String) (value : Float) : Metrics :=
  { m with histograms := m.histograms.insert key ((m.histograms[key]?.getD #[]).push value) }

/-- What a compiled unit adds to the counters. -/
def unitCounts (c : Compiled) : List (String × Nat) := [
  ("a32t_units_compiled_total", 1),
  ("a32t_fixups_resolved_total", c.stats.resolved.fixups),
  ("a32t_trampolines_total", c.stats.resolved.trampolines + c.stats.resolved.longBranches),
  ("a32t_host_words_total", c.code.size)]

/-- Host words to each guest word; a unit without a whole guest word has no ratio. -/
def expansionRatio? (c : Compiled) : Option Float :=
  let guestWords := c.guestBytes / 4
  if guestWords > 0 then some (Float.ofNat c.code.size / Float.ofNat guestWords) else none

/-- Records a compiled unit, and says whether nothing was refused (`record_unit`). -/
def recordUnit (m : Metrics) (c : Compiled) : Metrics × Bool :=
  match m.incrementAll (unitCounts c) with
  | (m, true) =>
    match expansionRatio? c with
    | some ratio => (m.observe "a32t_unit_expansion_ratio" ratio, true)
    | none => (m, true)
  | (m, false) => (m, false)

/-- The counter of failures for a reason. -/
def failureKey (reason : String) : String := "a32t_units_failed_total\x7breason=" ++ reason ++ "\x7d"

/-- Counts a unit that could not be compiled (`record_failure`). -/
def recordFailure? (m : Metrics) (reason : String) : Option Metrics :=
  m.increment? (failureKey reason) 1

/-! ### The summary -/

def histogramLine (key : String) (values : Array Float) : String :=
  let least := values.foldl (fun a b => if b < a then b else a) (values[0]?.getD 0)
  let most := values.foldl (fun a b => if a < b then b else a) (values[0]?.getD 0)
  let mean := values.foldl (· + ·) 0 / Float.ofNat values.size
  "  " ++ key ++ ": count=" ++ toString values.size ++ ", min=" ++ Text.fixed 3 least ++
    ", max=" ++ Text.fixed 3 most ++ ", avg=" ++ Text.fixed 3 mean ++ "\n"

/-- A heading, a line for each entry, and an empty line; nothing at all without entries. -/
def listing (heading : String) (lines : List String) : String :=
  if lines.isEmpty then "" else heading ++ "\n" ++ String.join lines ++ "\n"

def summary (m : Metrics) : String :=
  if m.counters.isEmpty && m.histograms.isEmpty then "No metrics collected.\n"
  else
    "\n## Metrics Summary\n\n" ++
      listing "### Counters"
        (m.counters.toList.map fun (key, n) => "  " ++ key ++ ": " ++ toString n ++ "\n") ++
      listing "### Histograms" (m.histograms.toList.map fun (key, vs) => histogramLine key vs)

end Metrics

end Dynarec
