import Dynarec.Cond
import Dynarec.Word

/-! # Flags

The four flags that guest and host share, the conditions over them, and the adder that sets
them. -/

namespace Dynarec

structure Nzcv where
  n : Bool := false
  z : Bool := false
  c : Bool := false
  v : Bool := false
  deriving DecidableEq, Repr

namespace Nzcv

/-- The flags in the top four bits of a word. -/
def ofWord (w : Word) : Nzcv := ⟨w.getLsbD 31, w.getLsbD 30, w.getLsbD 29, w.getLsbD 28⟩

def toWord (f : Nzcv) : Word :=
  BitVec.ofBool f.n ++ BitVec.ofBool f.z ++ BitVec.ofBool f.c ++ BitVec.ofBool f.v ++ 0#28

@[simp] theorem ofWord_toWord (f : Nzcv) : ofWord f.toWord = f := by
  obtain ⟨n, z, c, v⟩ := f
  cases n <;> cases z <;> cases c <;> cases v <;> rfl

/-- The flags of a result that does not come from the adder. -/
def ofResult {n : Nat} (r : BitVec n) (c v : Bool) : Nzcv := ⟨r.msb, r == 0, c, v⟩

end Nzcv

/-- Whether a condition holds for the flags. -/
def Cond.holds (f : Nzcv) : Cond → Bool
  | eq => f.z
  | ne => !f.z
  | cs => f.c
  | cc => !f.c
  | mi => f.n
  | pl => !f.n
  | vs => f.v
  | vc => !f.v
  | hi => f.c && !f.z
  | ls => !(f.c && !f.z)
  | ge => f.n == f.v
  | lt => !(f.n == f.v)
  | gt => f.n == f.v && !f.z
  | le => !(f.n == f.v && !f.z)
  | al => true

theorem Cond.holds_invert {c : Cond} (h : c ≠ .al) (f : Nzcv) :
    c.invert.holds f = !c.holds f := by
  cases c with
  | al => exact absurd rfl h
  | _ => simp only [invert, holds, Bool.not_not]

/-- A sum with its flags: the carry is set if the sum of the unsigned values does not fit, the
overflow if that of the signed values does not. -/
def addWithCarry {n : Nat} (x y : BitVec n) (carry : Bool) : BitVec n × Nzcv :=
  let r := x + y + (BitVec.ofBool carry).setWidth n
  (r, { n := r.msb
        z := r == 0
        c := decide (r.toNat ≠ x.toNat + y.toNat + carry.toNat)
        v := decide (r.toInt ≠ x.toInt + y.toInt + carry.toNat) })

end Dynarec
