import Horn.Binary64
import Horn.Decimal

/-!
# Floats as text

- `Binary64.text`: the form in printed terms. A float without a fraction is written as the exact
  integer it is, followed by `.0`; any other by the fewest digits that read back, never with an
  exponent.
- `Binary64.debugText`: the form in diagnostics. The fewest digits that read back, with an exponent
  for numbers below `1e-4` or from `1e16` on.
-/

namespace Horn

namespace Binary64

/-- The numbers that are nearer to `x` than to any other float, counted in quarters of a unit.
The gap below a power of two is half as wide as the one above it, and a number halfway between two
floats belongs to the one with the even significand. -/
def neighbourhood (x : Binary64) : Neighbourhood :=
  let gap := 2 ^ (x.exponentField - 1)
  let narrow := x.fraction == 0 && 1 < x.exponentField
  { low := 4 * x.magnitude - (if narrow then gap else 2 * gap)
    value := 4 * x.magnitude
    high := 4 * x.magnitude + 2 * gap
    unit := 4 * unitsPerOne
    closed := x.significand % 2 == 0 }

/-- The fewest digits that read back as the magnitude of `x`. -/
def shortest (x : Binary64) : Decimal :=
  if x.magnitude = 0 then ⟨0, 0⟩ else Decimal.shortest x.neighbourhood

/-- The sign, as written before the digits. -/
def signText (x : Binary64) : String := if x.isNegative then "-" else ""

/-- The form in printed terms. -/
def text (x : Binary64) : String :=
  if x.isNaN then "NaN"
  else if x.isInfinite then x.signText ++ "inf"
  else if x.isWhole then x.signText ++ toString (x.magnitude / unitsPerOne) ++ ".0"
  else x.signText ++ x.shortest.positional 0

/-- Whether diagnostics write `x` with an exponent: it is below `1e-4`, but not zero, or at least
`1e16`. -/
def needsExponent (x : Binary64) : Bool :=
  x.magnitude != 0 &&
    (x.magnitude * 10 ^ 4 < unitsPerOne || 10 ^ 16 * unitsPerOne ≤ x.magnitude)

/-- The form in diagnostics. -/
def debugText (x : Binary64) : String :=
  if x.isNaN then "NaN"
  else if x.isInfinite then x.signText ++ "inf"
  else if x.needsExponent then x.signText ++ x.shortest.scientific
  else x.signText ++ x.shortest.positional 1

end Binary64

end Horn
