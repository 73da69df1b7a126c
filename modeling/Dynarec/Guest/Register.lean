/-! # Guest registers

Sixteen general registers, of which the last is the program counter, and thirty-two
double-precision registers. A register number is taken modulo the size of its file. -/

namespace Dynarec.Guest

structure Gpr where
  code : BitVec 4
  deriving DecidableEq, Repr, Inhabited

namespace Gpr

def ofNat (n : Nat) : Gpr := ⟨BitVec.ofNat 4 n⟩

def index (r : Gpr) : Nat := r.code.toNat

def lr : Gpr := ⟨14⟩
def pc : Gpr := ⟨15⟩

def isPc (r : Gpr) : Bool := r == pc

def name (r : Gpr) : String :=
  match r.index with
  | 13 => "sp"
  | 14 => "lr"
  | 15 => "pc"
  | n => "r" ++ toString n

end Gpr

structure Dreg where
  code : BitVec 5
  deriving DecidableEq, Repr, Inhabited

namespace Dreg

def ofNat (n : Nat) : Dreg := ⟨BitVec.ofNat 5 n⟩

def index (r : Dreg) : Nat := r.code.toNat

def name (r : Dreg) : String := "d" ++ toString r.index

end Dreg

end Dynarec.Guest
