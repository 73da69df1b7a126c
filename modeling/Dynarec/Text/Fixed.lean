import Dynarec.Text.Hex

/-! # Fixed-point text

A double-precision number is an integer times a power of two, so its decimal expansion is exact.
It is cut to a number of places; the nearest text wins, and a tie goes to the even digit. -/

namespace Dynarec.Text

/-- The nearest integer to `num / den`, ties to even. -/
def roundDiv (num den : Nat) : Nat :=
  let q := num / den
  let twice := 2 * (num % den)
  if twice > den || (twice == den && q % 2 == 1) then q + 1 else q

/-- The value of a finite nonnegative double as a fraction with a power of two below. -/
def fractionOf (x : Float) : Nat × Nat :=
  let bits := x.toBits.toNat
  let hidden := 1 <<< 52
  let exponent := bits / hidden % 2048
  let low := bits % hidden
  let (significand, power) := if exponent == 0 then (low, 1) else (hidden + low, exponent)
  if power ≥ 1075 then (significand <<< (power - 1075), 1) else (significand, 1 <<< (1075 - power))

/-- A finite nonnegative double with the given number of places, at least one. -/
def fixed (places : Nat) (x : Float) : String :=
  let (num, den) := fractionOf x
  let unit := Nat.pow 10 places
  let scaled := roundDiv (num * unit) den
  toString (scaled / unit) ++ "." ++ padLeft places '0' (toString (scaled % unit))

end Dynarec.Text
