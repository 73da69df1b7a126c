import Dynarec.Emit.Monad
import Dynarec.Host.Branch

/-! # Branch-over regions

Instructions under one condition are emitted behind a branch that skips them when the condition
fails. The branch gets its displacement when the region closes, and a region that stayed empty
leaves no word behind. -/

namespace Dynarec.Emit

namespace Region

/-- The condition of an instruction: that of an if-then block in progress, else its own
(`CondLowering.predicate`). -/
def predicate (r : Region) (i : Guest.Instr) : Cond := r.it.current?.getD i.cond

/-- The condition for which the instruction needs a region (`lowered_predicate`). -/
def loweredPredicate (r : Region) (i : Guest.Instr) : Cond :=
  if i.absorbsCondition then .al else r.predicate i

end Region

/-- Forgets the region in progress and gives the index of its branch. -/
def takeRegionSite : Emit (Option Nat) :=
  modifyGet fun s =>
    (s.region.site, { s with region := { s.region with active := .al, site := none } })

/-- Closes the region in progress, if there is one (`CondLowering.close`). -/
def closeRegion : Emit Unit := do
  match ← takeRegionSite with
  | none => return ()
  | some site =>
    let disp := displacement site (← ip)
    if disp == 1 then
      let _ ← eraseLast
    else if !Host.fits19 disp then fail (.conditionalRegionTooLong site disp)
    else match ← readWord? site with
      | none => fail (.notAPlaceholder site)
      | some w => writeWord site (Host.Branch.withDisp w disp)

/-- Opens a region for a condition other than `al` (`CondLowering.open`). -/
def openRegion (c : Cond) : Emit Unit := do
  let site ← emitInstr (.bCond c.invert 0)
  modify fun s => { s with region := { s.region with active := c, site := some site } }

/-- Continues under the condition `c`: closes the region in progress and opens another, unless the
condition stays the same (`CondLowering.transition`). -/
def transition (c : Cond) : Emit Unit := do
  if c ≠ (← get).region.active then
    closeRegion
    if !c.isAlways then openRegion c

/-- Starts an if-then block (`begin_it`). -/
def beginIt (firstcond mask : BitVec 8) : Emit Unit :=
  modify fun s => { s with region := { s.region with it := .start firstcond mask } }

/-- Counts one instruction of the if-then block in progress (`advance_it`). -/
def advanceIt : Emit Unit :=
  modify fun s =>
    if s.region.it.isActive then { s with region := { s.region with it := s.region.it.advance } }
    else s

end Dynarec.Emit
