import Dynarec.Word

/-! # Host registers

Thirty-two general registers and thirty-two vector registers, and sets of them as masks. Number
31 is the stack pointer or the zero register, as the instruction decides. -/

namespace Dynarec.Host

structure Gpr where
  code : BitVec 5
  deriving DecidableEq, Repr, Inhabited

namespace Gpr

def ofNat (n : Nat) : Gpr := ⟨BitVec.ofNat 5 n⟩

def index (r : Gpr) : Nat := r.code.toNat

def fp : Gpr := ⟨29⟩
def lr : Gpr := ⟨30⟩
def sp : Gpr := ⟨31⟩
def zr : Gpr := ⟨31⟩

def name (r : Gpr) : String :=
  match r.index with
  | 29 => "fp"
  | 30 => "lr"
  | 31 => "sp"
  | n => "x" ++ toString n

/-! Fixed roles. -/

/-- Holds the address of the guest state record throughout a unit. -/
def context : Gpr := ⟨27⟩
/-- Holds the page table throughout a unit. -/
def pageTable : Gpr := ⟨28⟩
/-- Holds the code address that the trailer jumps to. -/
def dispatch : Gpr := ⟨16⟩
/-- Free for use inside one emitted sequence. -/
def scratch : Gpr := ⟨17⟩
/-- Holds a helper's address at its call. -/
def callTarget : Gpr := ⟨7⟩

end Gpr

structure Vreg where
  code : BitVec 5
  deriving DecidableEq, Repr, Inhabited

namespace Vreg

def ofNat (n : Nat) : Vreg := ⟨BitVec.ofNat 5 n⟩

def index (r : Vreg) : Nat := r.code.toNat

def name (r : Vreg) : String := "v" ++ toString r.index

end Vreg

/-! ### Sets -/

/-- A set of register numbers of one class. -/
structure RegSet where
  mask : Word := 0
  deriving DecidableEq, Repr, Inhabited

namespace RegSet

def empty : RegSet := ⟨0⟩

def single (code : BitVec 5) : RegSet := ⟨BitVec.twoPow 32 code.toNat⟩

/-- The registers numbered `lo` to `hi`, both included. -/
def range (lo hi : Nat) : RegSet := ⟨BitVec.allOnes 32 <<< lo &&& BitVec.allOnes 32 >>> (31 - hi)⟩

def contains (s : RegSet) (code : BitVec 5) : Bool := s.mask.getLsbD code.toNat

def insert (s : RegSet) (code : BitVec 5) : RegSet := ⟨s.mask ||| (single code).mask⟩

def erase (s : RegSet) (code : BitVec 5) : RegSet := ⟨s.mask &&& ~~~(single code).mask⟩

def inter (s t : RegSet) : RegSet := ⟨s.mask &&& t.mask⟩

def diff (s t : RegSet) : RegSet := ⟨s.mask &&& ~~~t.mask⟩

def isEmpty (s : RegSet) : Bool := s.mask == 0

/-- The members, lowest number first. -/
def toList (s : RegSet) : List (BitVec 5) :=
  ((List.finRange 32).map fun i => BitVec.ofFin i).filter s.contains

def size (s : RegSet) : Nat := s.toList.length

/-- The member with the lowest number. -/
def lowest? (s : RegSet) : Option (BitVec 5) := s.toList.head?

def gprs (s : RegSet) : List Gpr := s.toList.map Gpr.mk

def vregs (s : RegSet) : List Vreg := s.toList.map Vreg.mk

@[simp] theorem contains_empty (c : BitVec 5) : empty.contains c = false := by
  simp [contains, empty]

@[simp] theorem contains_single (c d : BitVec 5) : (single c).contains d = decide (c = d) := by
  have hc : c.toNat < 32 := c.isLt
  simp only [contains, single, BitVec.getLsbD_twoPow, BitVec.toNat_inj, hc, decide_true,
    Bool.true_and]

@[simp] theorem contains_insert (s : RegSet) (c d : BitVec 5) :
    (s.insert c).contains d = (s.contains d || decide (c = d)) := by
  have h := contains_single c d
  unfold contains at h
  simp only [contains, insert, BitVec.getLsbD_or, h]

@[simp] theorem contains_erase (s : RegSet) (c d : BitVec 5) :
    (s.erase c).contains d = (s.contains d && !decide (c = d)) := by
  have hd : d.toNat < 32 := d.isLt
  have h := contains_single c d
  unfold contains at h
  simp only [contains, erase, BitVec.getLsbD_and, BitVec.getLsbD_not, h, hd, decide_true,
    Bool.true_and]

@[simp] theorem contains_inter (s t : RegSet) (c : BitVec 5) :
    (s.inter t).contains c = (s.contains c && t.contains c) := by
  simp only [contains, inter, BitVec.getLsbD_and]

@[simp] theorem contains_diff (s t : RegSet) (c : BitVec 5) :
    (s.diff t).contains c = (s.contains c && !t.contains c) := by
  have hc : c.toNat < 32 := c.isLt
  simp only [contains, diff, BitVec.getLsbD_and, BitVec.getLsbD_not, hc, decide_true, Bool.true_and]

@[simp] theorem mem_toList (s : RegSet) (c : BitVec 5) : c ∈ s.toList ↔ s.contains c = true := by
  simp [toList]

/-- Sets with the same members are equal. -/
theorem eq_of_contains_eq {s t : RegSet} (h : ∀ c, s.contains c = t.contains c) : s = t := by
  obtain ⟨m⟩ := s
  obtain ⟨n⟩ := t
  congr 1
  apply BitVec.eq_of_getLsbD_eq
  intro i hi
  have hc := h (BitVec.ofNat 5 i)
  simpa [contains, Nat.mod_eq_of_lt hi] using hc

end RegSet

/-! ### Classes of registers -/

/-- General registers that a called routine keeps. -/
def calleeSavedGprs : RegSet := .range 19 28
/-- Vector registers whose low halves a called routine keeps. -/
def calleeSavedVregs : RegSet := .range 8 15
/-- General registers that emitted code may lease. -/
def tempGprs : RegSet := .range 0 8
/-- Vector registers that emitted code may lease. -/
def tempVregs : RegSet := .range 0 7
/-- How many arguments a host call takes at most. -/
def maxCallArgs : Nat := 7

end Dynarec.Host
