import Dynarec.Guest.Register

/-! # The guest state record

Byte offsets in the record that holds a guest's state while its code is not in registers: the
general registers, the double registers, the flags and other status words, the execution counter
and the guest address where the guest goes on. -/

namespace Dynarec.Emit.Record

def gprs : Nat := 0
def dregs : Nat := 64
def nzcv : Nat := 320
def ge : Nat := 324
def q : Nat := 328
def thumb : Nat := 332
def endian : Nat := 336
def execCounter : Nat := 340
def dispatchAddress : Nat := 344
def size : Nat := 352

/-- Where a general register is kept. -/
def gpr (r : Guest.Gpr) : Nat := gprs + 4 * r.index

/-- Where a double register is kept. -/
def dreg (d : Guest.Dreg) : Nat := dregs + 8 * d.index

end Dynarec.Emit.Record
