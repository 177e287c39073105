import Horn.Power

/-!
# SipHash-1-3

The keyed hash of a sequence of bytes with one mixing round per word and three at the end, both
keys zero. The message is cut into little-endian words of eight bytes; the last word holds the
bytes that are left over and, in its top byte, the length of the message modulo 256.
-/

namespace Horn.SipHash

/-- The four words of state. -/
structure State where
  v0 : UInt64
  v1 : UInt64
  v2 : UInt64
  v3 : UInt64

/-- Rotation to the left by `0 < k < 64` places. -/
def rotateLeft (x : UInt64) (k : UInt64) : UInt64 := (x <<< k) ||| (x >>> (64 - k))

/-- The initial state for two zero keys. -/
def start : State :=
  { v0 := 0x736f6d6570736575
    v1 := 0x646f72616e646f6d
    v2 := 0x6c7967656e657261
    v3 := 0x7465646279746573 }

/-- One mixing round. -/
def round (s : State) : State :=
  let a0 := s.v0 + s.v1
  let a1 := rotateLeft s.v1 13 ^^^ a0
  let a2 := s.v2 + s.v3
  let a3 := rotateLeft s.v3 16 ^^^ a2
  let b0 := rotateLeft a0 32 + a3
  let b3 := rotateLeft a3 21 ^^^ b0
  let b2 := a2 + a1
  let b1 := rotateLeft a1 17 ^^^ b2
  { v0 := b0, v1 := b1, v2 := rotateLeft b2 32, v3 := b3 }

/-- Takes in one word. -/
def absorb (s : State) (word : UInt64) : State :=
  let s := round { s with v3 := s.v3 ^^^ word }
  { s with v0 := s.v0 ^^^ word }

/-- The word of at most eight bytes, the first one lowest. -/
def wordOf : List UInt8 → UInt64
  | [] => 0
  | b :: bs => b.toUInt64 ||| (wordOf bs <<< 8)

/-- Takes in the bytes of a message of the given length, the closing word included. -/
def absorbAll (length : Nat) (s : State) (bytes : List UInt8) : State :=
  match bytes with
  | b0 :: b1 :: b2 :: b3 :: b4 :: b5 :: b6 :: b7 :: rest =>
    absorbAll length (absorb s (wordOf [b0, b1, b2, b3, b4, b5, b6, b7])) rest
  | left => absorb s (wordOf left ||| (UInt64.ofNat (length % 256) <<< 56))

/-- The hash of a message. -/
def hash (bytes : List UInt8) : UInt64 :=
  let s := absorbAll bytes.length start bytes
  let s := round (round (round { s with v2 := s.v2 ^^^ 0xff }))
  s.v0 ^^^ s.v1 ^^^ s.v2 ^^^ s.v3

/-- The bytes of a text: its UTF-8 form, closed by a byte that occurs in no UTF-8 text. -/
def textBytes (s : String) : List UInt8 := s.toUTF8.toList ++ [0xff]

/-- The eight bytes of a number below `2 ^ 64`, the lowest first. -/
def wordBytes (n : Nat) : List UInt8 :=
  (List.range 8).map fun i => UInt8.ofNat (n / 256 ^ i % 256)

end Horn.SipHash
