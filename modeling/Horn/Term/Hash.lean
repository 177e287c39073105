import Horn.SipHash
import Horn.Term

/-!
# Unify hashes

A cheap discriminator: two terms that are no variables and have different hashes never unify. The
low three bits of a hash hold a tag for the kind, so that terms of different kinds do not collide;
a variable hashes to zero, which no tag allows for any other kind.

- `Atom.hashBytes`: what is hashed of an atom.
- `Term.unifyHash`: the hash of a term's outermost symbol.
- `compatible`: two hashes do not exclude that their terms unify.
-/

namespace Horn

/-- The hash of every variable. -/
def variableHash : Int64 := 0

/-- `value` moved up by three bits, with a tag in their place. -/
def tagged (value : Int64) (tag : Int64) : Int64 := (value <<< 3) ||| tag

/-- A signed hash of bytes. -/
def byteHash (bytes : List UInt8) : Int64 := (SipHash.hash bytes).toInt64

/-- What an atom contributes to a hash: the bytes of its name. -/
def Atom.hashBytes (a : Atom) : List UInt8 := SipHash.textBytes a.name

namespace Binary64

/-- The significand with its top bit moved to place 52, where normal numbers have it. -/
def normalSignificand (x : Binary64) : Nat :=
  if x.significand = 0 then 0 else x.significand * 2 ^ (52 - x.significand.log2)

/-- The leading 28 bits of the significand, with the sign. The exponent does not count. Zeros and
NaNs give zero, an infinity the end of the range on its side. -/
def hashValue (x : Binary64) : Int64 :=
  if x.isFinite then
    let leading : Int := (x.normalSignificand / 2 ^ 25 : Nat)
    Int64.ofInt (if x.isNegative then -leading else leading)
  else x.saturate

end Binary64

namespace Term

/-- The hash of the outermost symbol. -/
def unifyHash : Term → Int64
  | var _ => variableHash
  | atom a => tagged (byteHash (SipHash.textBytes a.name)) 2
  | int n => tagged n 3
  | float x => tagged x.hashValue 4
  | box b => tagged (Int64.ofNat b.serial) 5
  | compound _ f _ xs =>
    tagged (byteHash (SipHash.textBytes f.name ++ SipHash.wordBytes (xs.length + 1))) 6

end Term

/-- Both hashes are of terms that are no variables, and they differ: only then the terms are known
not to unify. -/
def compatible (a b : Int64) : Bool := a == variableHash || b == variableHash || a == b

end Horn
