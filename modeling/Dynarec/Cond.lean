/-! # Condition codes

The fifteen conditions that guard an instruction. Guest and host number them alike: the low bit
of the code tells a condition from its opposite, except for `al`, which always holds. -/

namespace Dynarec

inductive Cond where
  | eq | ne | cs | cc | mi | pl | vs | vc | hi | ls | ge | lt | gt | le | al
  deriving DecidableEq, Repr, Inhabited

namespace Cond

/-- The four-bit condition field. -/
def code : Cond → BitVec 4
  | eq => 0 | ne => 1 | cs => 2 | cc => 3 | mi => 4 | pl => 5 | vs => 6 | vc => 7
  | hi => 8 | ls => 9 | ge => 10 | lt => 11 | gt => 12 | le => 13 | al => 14

/-- The condition of a field; the field of all ones names no condition. -/
def ofCode? (b : BitVec 4) : Option Cond :=
  match b.toNat with
  | 0 => some eq | 1 => some ne | 2 => some cs | 3 => some cc
  | 4 => some mi | 5 => some pl | 6 => some vs | 7 => some vc
  | 8 => some hi | 9 => some ls | 10 => some ge | 11 => some lt
  | 12 => some gt | 13 => some le | 14 => some al | _ => none

/-- Whether the condition holds whatever the flags are. -/
def isAlways : Cond → Bool
  | al => true
  | _ => false

/-- The opposite condition; `al` has none and stays as it is. -/
def invert : Cond → Cond
  | eq => ne | ne => eq | cs => cc | cc => cs | mi => pl | pl => mi | vs => vc | vc => vs
  | hi => ls | ls => hi | ge => lt | lt => ge | gt => le | le => gt | al => al

def name : Cond → String
  | eq => "eq" | ne => "ne" | cs => "cs" | cc => "cc" | mi => "mi" | pl => "pl" | vs => "vs"
  | vc => "vc" | hi => "hi" | ls => "ls" | ge => "ge" | lt => "lt" | gt => "gt" | le => "le"
  | al => "al"

/-- All conditions in the order of their codes. -/
def all : List Cond := [eq, ne, cs, cc, mi, pl, vs, vc, hi, ls, ge, lt, gt, le, al]

/-- The condition with the given name. -/
def ofName? (s : String) : Option Cond := all.find? (·.name == s)

@[simp] theorem ofCode?_code (c : Cond) : ofCode? c.code = some c := by cases c <;> rfl

@[simp] theorem invert_invert (c : Cond) : c.invert.invert = c := by cases c <;> rfl

@[simp] theorem isAlways_iff (c : Cond) : c.isAlways = true ↔ c = al := by cases c <;> decide

end Cond

end Dynarec
