import Horn.Power

/-!
# Shortest decimals

A positive rational number lies in an interval of numbers that all count as the same; among the
decimals in that interval one with the fewest digits is chosen, and among those the nearest.

- `Decimal`: an integer times a power of ten.
- `Decimal.shortest`: the choice above; of two equally near decimals the larger.
- `Decimal.positional`, `Decimal.scientific`: the two ways to write a decimal down.
-/

namespace Horn

/-- The number `digits * 10 ^ exponent`. -/
structure Decimal where
  digits : Nat
  exponent : Int
  deriving DecidableEq, Repr, Inhabited

/-- How many decimal digits a number has. -/
def digitCount (n : Nat) : Nat := (Nat.toDigits 10 n).length

/-- The numbers that read back as `value / unit`: those between `low / unit` and `high / unit`,
with the ends if `closed`. -/
structure Neighbourhood where
  low : Nat
  value : Nat
  high : Nat
  unit : Nat
  closed : Bool

namespace Neighbourhood

/-- The number `c / d` (with `d` in the place of `unit`) lies in the neighbourhood. -/
def contains (s : Neighbourhood) (c : Nat) : Bool :=
  if s.closed then s.low ≤ c && c ≤ s.high else s.low < c && c < s.high

/-- The exponent `e` with `10 ^ (e - 1) ≤ value / unit < 10 ^ e`. -/
def decimalExponent (s : Neighbourhood) : Int :=
  if s.unit ≤ s.value then digitCount (s.value / s.unit)
  else 1 - (digitCount ((s.unit - 1) / s.value) : Int)

/-- The neighbourhood with all numbers multiplied by `10 ^ (-k)`. -/
def rescale (s : Neighbourhood) (k : Int) : Neighbourhood :=
  let up := 10 ^ (-k).toNat
  { s with
    low := s.low * up
    value := s.value * up
    high := s.high * up
    unit := s.unit * 10 ^ k.toNat }

/-- The integer of the neighbourhood that is nearest to its value, if it holds one of the two
integers around the value; a tie goes up. -/
def nearestInteger? (s : Neighbourhood) : Option Nat :=
  let below := s.value / s.unit
  let above := below + 1
  match s.contains (below * s.unit), s.contains (above * s.unit) with
  | true, true =>
    if s.value - below * s.unit < above * s.unit - s.value then some below else some above
  | true, false => some below
  | false, true => some above
  | false, false => none

end Neighbourhood

namespace Decimal

/-- Tries `n` digits, then one more, at most `tries` times. -/
def search (s : Neighbourhood) (e : Int) : Nat → Nat → Decimal
  | 0, n => ⟨s.value / s.unit, e - n⟩
  | tries + 1, n =>
    match (s.rescale (e - n)).nearestInteger? with
    | some c => if c = 10 ^ n then ⟨1, e⟩ else ⟨c, e - n⟩
    | none => search s e tries (n + 1)

/-- The decimal with the fewest digits in the neighbourhood, and of those the nearest to its
value. Seventeen digits tell all double precision numbers apart. -/
def shortest (s : Neighbourhood) : Decimal := search s s.decimalExponent 17 1

/-- The digits as text. -/
def digitText (d : Decimal) : String := toString d.digits

/-- Written out in full, with at least `places` digits behind the point and no point if there is
nothing behind it. -/
def positional (d : Decimal) (places : Nat) : String :=
  let text := d.digitText
  let zeros (n : Nat) : String := "".pushn '0' n
  let before : Int := text.length + d.exponent
  if 0 ≤ d.exponent then
    text ++ zeros d.exponent.toNat ++ (if places = 0 then "" else "." ++ zeros places)
  else if before ≤ 0 then "0." ++ zeros (-before).toNat ++ text
  else String.ofList (text.toList.take before.toNat) ++ "." ++
    String.ofList (text.toList.drop before.toNat)

/-- Written with one digit before the point and an exponent. -/
def scientific (d : Decimal) : String :=
  let text := d.digitText.toList
  let exponent : Int := d.exponent + text.length - 1
  let mantissa :=
    match text with
    | [] => ""
    | [c] => c.toString
    | c :: rest => c.toString ++ "." ++ String.ofList rest
  mantissa ++ "e" ++ toString exponent

end Decimal

end Horn
