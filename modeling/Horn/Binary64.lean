import Horn.Power

/-!
# Double precision numbers as bit patterns

A float of the term language is its 64-bit pattern, so every NaN keeps its payload and the two
zeros stay apart. All arithmetic on floats is exact arithmetic on integers: the magnitude of a
pattern is counted in units of `2 ^ -1074`, the distance of the two least subnormals.

- `Binary64.units`: the signed magnitude; for all patterns but NaNs it is monotone in the value,
  the infinities being larger than every finite pattern.
- `Binary64.eqv`: numeric equality (zeros of either sign are equal, a NaN differs from itself).
- `Binary64.order`: numeric order, made total by the order of bit patterns when a NaN is involved.
- `Binary64.wholePart`, `Binary64.saturate`: rounding toward zero, and the cast to 64 bits.
-/

namespace Horn

/-- A double precision number, given by its bits. -/
structure Binary64 where
  bits : UInt64
  deriving DecidableEq, Repr, Inhabited

namespace Binary64

/-- The bits below the sign bit. -/
def unsignedBits (x : Binary64) : Nat := x.bits.toNat % 2 ^ 63

/-- The sign bit. -/
def isNegative (x : Binary64) : Bool := decide (2 ^ 63 ≤ x.bits.toNat)

/-- The eleven bits of the biased exponent. -/
def exponentField (x : Binary64) : Nat := x.bits.toNat / 2 ^ 52 % 2 ^ 11

/-- The 52 bits of the fraction. -/
def fraction (x : Binary64) : Nat := x.bits.toNat % 2 ^ 52

def isNaN (x : Binary64) : Bool := x.exponentField == 2047 && x.fraction != 0

def isInfinite (x : Binary64) : Bool := x.exponentField == 2047 && x.fraction == 0

def isFinite (x : Binary64) : Bool := x.exponentField != 2047

/-- The fraction, with the hidden bit unless the number is subnormal or zero. -/
def significand (x : Binary64) : Nat :=
  if x.exponentField = 0 then x.fraction else 2 ^ 52 + x.fraction

/-- The magnitude in units of `2 ^ -1074`. An infinity counts as `2 ^ 2098` units, more than any
finite number has. -/
def magnitude (x : Binary64) : Nat := x.significand * 2 ^ (x.exponentField - 1)

/-- How many units make one. -/
def unitsPerOne : Nat := 2 ^ 1074

/-- The number in units of `2 ^ -1074`, with its sign. -/
def units (x : Binary64) : Int :=
  if x.isNegative then -(x.magnitude : Int) else x.magnitude

/-- The integer between zero and `x` that is nearest to `x`. -/
def wholePart (x : Binary64) : Int := x.units.tdiv unitsPerOne

/-- The integer part is all of `x`. -/
def isWhole (x : Binary64) : Bool := x.isFinite && x.magnitude % unitsPerOne == 0

/-- The cast to a 64-bit integer: rounded toward zero, clamped to the range, zero for a NaN. -/
def saturate (x : Binary64) : Int64 :=
  if x.isNaN then 0
  else if x.wholePart < Int64.minValue.toInt then Int64.minValue
  else if Int64.maxValue.toInt < x.wholePart then Int64.maxValue
  else Int64.ofInt x.wholePart

/-- A single precision number, given by its bits, in double precision. All of them are exact; a NaN
keeps its payload and becomes quiet. -/
def ofSingle (bits : UInt32) : Binary64 :=
  let sign := bits.toNat / 2 ^ 31 * 2 ^ 63
  let exponent := bits.toNat / 2 ^ 23 % 2 ^ 8
  let fraction := bits.toNat % 2 ^ 23
  let pattern (field frac : Nat) : Binary64 := ⟨UInt64.ofNat (sign + field * 2 ^ 52 + frac)⟩
  if exponent = 255 then
    pattern 2047 (if fraction = 0 then 0 else 2 ^ 51 + fraction % 2 ^ 22 * 2 ^ 29)
  else if exponent ≠ 0 then pattern (exponent + 896) (fraction * 2 ^ 29)
  else if fraction = 0 then pattern 0 0
  else
    let top := fraction.log2
    pattern (top + 874) ((fraction - 2 ^ top) * 2 ^ (52 - top))

/-! ## Comparing -/

/-- Numeric equality: `0.0` and `-0.0` are equal and a NaN equals nothing. -/
def eqv (x y : Binary64) : Bool := !x.isNaN && !y.isNaN && x.units == y.units

/-- The place of a pattern in the total order of patterns: negative patterns downwards from `-1`,
the others upwards from `0`. -/
def patternKey (x : Binary64) : Int :=
  if x.isNegative then -(x.unsignedBits : Int) - 1 else x.unsignedBits

/-- The order of bit patterns, in which `-NaN < -∞ < -0.0 < 0.0 < ∞ < NaN`. -/
def patternOrder (x y : Binary64) : Ordering := compare x.patternKey y.patternKey

/-- Numeric order, with the two zeros equal; where a NaN is involved, the order of patterns. -/
def order (x y : Binary64) : Ordering :=
  if x.isNaN || y.isNaN then patternOrder x y else compare x.units y.units

/-- Compares an integer with a number exactly. A NaN is above every integer if its sign bit is
clear and below every integer if it is set; past the range of the integers the sign decides; in
range the whole part decides, and the part behind the point breaks a tie. -/
def orderInt (i : Int64) (x : Binary64) : Ordering :=
  if x.isNaN then (if x.isNegative then .gt else .lt)
  else if (2 ^ 63 : Int) * unitsPerOne ≤ x.units then .lt
  else if x.units < -(2 ^ 63 : Int) * unitsPerOne then .gt
  else (compare i x.saturate).then (compare 0 (x.units.tmod unitsPerOne))

end Binary64

end Horn
