import Dynarec.Cond

/-! # If-then state

An if-then instruction puts up to four following instructions under one condition or its
opposite. The state is a byte: the condition in the high half, and in the low half a mask whose
lowest set bit marks how many instructions remain. -/

namespace Dynarec.Guest

structure ItState where
  bits : BitVec 8 := 0
  deriving DecidableEq, Repr, Inhabited

namespace ItState

/-- The state an if-then instruction starts from its two fields (`ItState.new`). -/
def start (firstcond mask : BitVec 8) : ItState :=
  ⟨firstcond.extractLsb' 0 4 ++ mask.extractLsb' 0 4⟩

/-- Whether some instruction is still covered. -/
def isActive (s : ItState) : Bool := s.bits.extractLsb' 0 4 != 0

/-- The condition of the next instruction, if one is covered and the field names a condition. -/
def current? (s : ItState) : Option Cond :=
  if s.isActive then Cond.ofCode? (s.bits.extractLsb' 4 4) else none

/-- The state after one covered instruction: the low five bits move up by one, and the block is over
once the three lowest bits are clear (`ItState.advance`). -/
def advance (s : ItState) : ItState :=
  if s.bits.extractLsb' 0 3 == 0 then ⟨0⟩
  else ⟨s.bits.extractLsb' 5 3 ++ (s.bits.extractLsb' 0 4 ++ 0#1)⟩

end ItState

end Dynarec.Guest
