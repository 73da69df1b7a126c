import Dynarec.Host.Pinning

/-! # Register use

Which host registers a unit has used so far and which temporary registers are free. A temporary
register is leased from its pool and given back; whatever was leased or pinned once stays in the
used set, so that prologue, trailer and helper calls know what to keep. -/

namespace Dynarec.Emit

open Host (RegSet)

structure RegisterUse where
  usedGprs : RegSet := RegSet.empty.insert Host.Gpr.context.code |>.insert Host.Gpr.pageTable.code
  usedVregs : RegSet := .empty
  usesFlags : Bool := false
  freeGprs : RegSet := Host.tempGprs
  freeVregs : RegSet := Host.tempVregs
  deriving DecidableEq, Repr

/-- Temporary registers that are out of their pools. -/
structure Leases where
  gprs : List Host.Gpr := []
  vregs : List Host.Vreg := []

namespace RegisterUse

/-! ### Pinned registers -/

/-- The host register of a guest register, from now on in use (`remap_gpr`). -/
def pinGpr? (u : RegisterUse) (r : Guest.Gpr) : Option (Host.Gpr × RegisterUse) :=
  (Host.pinnedGpr? r).map fun x => (x, { u with usedGprs := u.usedGprs.insert x.code })

/-- The host register of a guest double register, from now on in use (`remap_dreg`). -/
def pinVreg? (u : RegisterUse) (d : Guest.Dreg) : Option (Host.Vreg × RegisterUse) :=
  (Host.pinnedVreg? d).map fun v => (v, { u with usedVregs := u.usedVregs.insert v.code })

def markFlags (u : RegisterUse) : RegisterUse := { u with usesFlags := true }

/-! ### Leases -/

/-- Leases the lowest free temporary register (`allocate_gpr`). -/
def leaseGpr? (u : RegisterUse) : Option (Host.Gpr × RegisterUse) :=
  u.freeGprs.lowest?.map fun code =>
    (⟨code⟩, { u with freeGprs := u.freeGprs.erase code, usedGprs := u.usedGprs.insert code })

/-- Leases the lowest free temporary vector register (`allocate_fpsimd`). -/
def leaseVreg? (u : RegisterUse) : Option (Host.Vreg × RegisterUse) :=
  u.freeVregs.lowest?.map fun code =>
    (⟨code⟩, { u with freeVregs := u.freeVregs.erase code, usedVregs := u.usedVregs.insert code })

/-- Gives a leased register back; a register that is free already cannot be
(`ScopedRegister.release`). -/
def releaseGpr? (u : RegisterUse) (x : Host.Gpr) : Option RegisterUse :=
  if u.freeGprs.contains x.code then none
  else some { u with freeGprs := u.freeGprs.insert x.code }

/-- Gives a leased vector register back; a register that is free already cannot be. -/
def releaseVreg? (u : RegisterUse) (v : Host.Vreg) : Option RegisterUse :=
  if u.freeVregs.contains v.code then none
  else some { u with freeVregs := u.freeVregs.insert v.code }

/-- The registers that were free in `before` and are not free any more. -/
def leasedSince (u before : RegisterUse) : Leases :=
  ⟨(before.freeGprs.diff u.freeGprs).gprs, (before.freeVregs.diff u.freeVregs).vregs⟩

/-! ### What has to be kept -/

/-- Used registers that hold guest registers (`context_gprs`). -/
def contextGprs (u : RegisterUse) : RegSet := u.usedGprs.inter Host.guestGprs

/-- Used vector registers that hold guest double registers (`context_fpsimd`). -/
def contextVregs (u : RegisterUse) : RegSet := u.usedVregs.inter Host.guestVregs

/-- Used registers that the unit owes to its caller (`saved_gprs`). -/
def savedGprs (u : RegisterUse) : RegSet := u.usedGprs.inter Host.calleeSavedGprs

/-- Used vector registers that the unit owes to its caller (`saved_fpsimd`). -/
def savedVregs (u : RegisterUse) : RegSet := u.usedVregs.inter Host.calleeSavedVregs

/-- Guest registers that a called routine may destroy (`call_clobbered_gprs`). -/
def callClobberedGprs (u : RegisterUse) : RegSet := u.contextGprs.diff Host.calleeSavedGprs

end RegisterUse

end Dynarec.Emit
