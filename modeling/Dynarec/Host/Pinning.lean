import Dynarec.Guest.Register
import Dynarec.Host.Register

/-! # Where guest registers live

While a unit runs, each guest general register but the program counter has a host register of
its own, and so has each of the first sixteen double registers. The other double registers stay
in the guest state record. -/

namespace Dynarec.Host

/-- The host register of a guest register; the program counter has none (`guest_gpr`). -/
def pinnedGpr? (r : Guest.Gpr) : Option Gpr :=
  if r.isPc then none
  else if r.index < 8 then some (.ofNat (19 + r.index))
  else some (.ofNat (1 + r.index))

/-- The host register of a guest double register; those from the sixteenth on have none
(`guest_dreg`). -/
def pinnedVreg? (d : Guest.Dreg) : Option Vreg :=
  if d.index < 16 then some (.ofNat (16 + d.index)) else none

/-- The guest register that a host register holds (`guest_of_gpr`). -/
def guestOfGpr? (x : Gpr) : Option Guest.Gpr :=
  if 19 ≤ x.index && x.index ≤ 26 then some (.ofNat (x.index - 19))
  else if 9 ≤ x.index && x.index ≤ 15 then some (.ofNat (x.index - 1))
  else none

/-- The guest double register that a host vector register holds (`guest_of_vreg`). -/
def guestOfVreg? (v : Vreg) : Option Guest.Dreg :=
  if 16 ≤ v.index then some (.ofNat (v.index - 16)) else none

/-- The general registers that hold guest registers. -/
def guestGprs : RegSet := ⟨(RegSet.range 9 15).mask ||| (RegSet.range 19 26).mask⟩

/-- The vector registers that hold guest double registers. -/
def guestVregs : RegSet := .range 16 31

theorem exists_guestOfGpr? {x : Gpr} (h : guestGprs.contains x.code = true) :
    ∃ r, guestOfGpr? x = some r := by
  have hall : ∀ c : BitVec 5, guestGprs.contains c = true → (guestOfGpr? ⟨c⟩).isSome = true := by
    decide +kernel
  exact Option.isSome_iff_exists.mp (hall x.code h)

theorem exists_guestOfVreg? {v : Vreg} (h : guestVregs.contains v.code = true) :
    ∃ d, guestOfVreg? v = some d := by
  have hall : ∀ c : BitVec 5, guestVregs.contains c = true → (guestOfVreg? ⟨c⟩).isSome = true := by
    decide +kernel
  exact Option.isSome_iff_exists.mp (hall v.code h)

end Dynarec.Host
