import Dynarec.Host.Instr

/-! # Immediate branch words

Reading and changing the displacement of a branch that is already a word, and how far the two
kinds of displacement field reach. -/

namespace Dynarec.Host

/-- How many words an unconditional branch reaches back. -/
def reach26 : Int := 0x2000000

/-- How many words a conditional or compare branch reaches back. -/
def reach19 : Int := 0x40000

/-- Whether an unconditional branch reaches `disp` words (`fits_imm26`). -/
def fits26 (disp : Int) : Bool := decide (-reach26 ≤ disp) && decide (disp < reach26)

/-- Whether a conditional or compare branch reaches `disp` words (`fits_imm19`). -/
def fits19 (disp : Int) : Bool := decide (-reach19 ≤ disp) && decide (disp < reach19)

namespace Branch

def isB (w : Word) : Bool := w.extractLsb' 26 6 == 0b000101#6

def isBl (w : Word) : Bool := w.extractLsb' 26 6 == 0b100101#6

def isBCond (w : Word) : Bool := w.extractLsb' 24 8 == 0x54#8 && !w.getLsbD 4

/-- A compare branch, of either width and either sense (`is_cb`). -/
def isCompare (w : Word) : Bool := w.extractLsb' 25 6 == 0b011010#6

def isImmediate (w : Word) : Bool := isB w || isBl w || isBCond w || isCompare w

/-- The displacement in the long field. -/
def disp26 (w : Word) : Int := (w.extractLsb' 0 26).toInt

/-- The displacement in the short field. -/
def disp19 (w : Word) : Int := (w.extractLsb' 5 19).toInt

/-- The condition in the lowest bits (`cond_of`). -/
def cond? (w : Word) : Option Cond := Cond.ofCode? (w.extractLsb' 0 4)

/-- The displacement of an immediate branch (`branch_disp`). -/
def disp? (w : Word) : Option Int :=
  if isB w || isBl w then some (disp26 w)
  else if isBCond w || isCompare w then some (disp19 w)
  else none

/-- The word with another displacement; any word that is no long branch has its short field replaced
(`with_disp`). -/
def withDisp (w : Word) (disp : Int) : Word :=
  if isB w || isBl w then w.extractLsb' 26 6 ++ Instr.imm26 disp
  else w.extractLsb' 24 8 ++ Instr.imm19 disp ++ w.extractLsb' 0 5

/-- Whether the displacement fits the field that `withDisp` replaces (`disp_fits`). -/
def dispFits (w : Word) (disp : Int) : Bool := if isB w || isBl w then fits26 disp else fits19 disp

end Branch

end Dynarec.Host
