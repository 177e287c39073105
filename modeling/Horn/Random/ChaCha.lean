import Horn.Power
import Horn.Random.Chooser

/-!
# Choices from a keystream

A seed of 64 bits is stretched to a key of eight words, and the ChaCha keystream of that key, with
twelve rounds and a zero nonce, is the sequence of random words.

- `block`: sixteen words of the keystream.
- `WordStream`: the keystream from some word on.
- `WordStream.below`: uniform choice by a widening product; words that would favour some results
  are rejected.
-/

namespace Horn.Random

/-- A row of the four by four matrix of words. -/
structure Row where
  w0 : UInt32
  w1 : UInt32
  w2 : UInt32
  w3 : UInt32
  deriving DecidableEq, Repr, Inhabited

namespace Row

/-- The row moved by one place, the first word becoming the last. -/
def turn (r : Row) : Row := ⟨r.w1, r.w2, r.w3, r.w0⟩

def add (r s : Row) : Row := ⟨r.w0 + s.w0, r.w1 + s.w1, r.w2 + s.w2, r.w3 + s.w3⟩

def toList (r : Row) : List UInt32 := [r.w0, r.w1, r.w2, r.w3]

/-- Exclusive or, and a rotation of each word to the left by `0 < k < 32` places. -/
def xorTurn (r s : Row) (k : UInt32) : Row :=
  let f (x y : UInt32) : UInt32 := ((x ^^^ y) <<< k) ||| ((x ^^^ y) >>> (32 - k))
  ⟨f r.w0 s.w0, f r.w1 s.w1, f r.w2 s.w2, f r.w3 s.w3⟩

end Row

/-- The matrix. -/
structure Matrix where
  a : Row
  b : Row
  c : Row
  d : Row
  deriving DecidableEq, Repr, Inhabited

namespace Matrix

/-- The four quarter rounds on the columns. -/
def columnRound (m : Matrix) : Matrix :=
  let a := m.a.add m.b
  let d := m.d.xorTurn a 16
  let c := m.c.add d
  let b := m.b.xorTurn c 12
  let a := a.add b
  let d := d.xorTurn a 8
  let c := c.add d
  let b := b.xorTurn c 7
  ⟨a, b, c, d⟩

/-- Moves the diagonals into the columns. -/
def skew (m : Matrix) : Matrix := ⟨m.a, m.b.turn, m.c.turn.turn, m.d.turn.turn.turn⟩

/-- Moves the columns back into the diagonals. -/
def unskew (m : Matrix) : Matrix := ⟨m.a, m.b.turn.turn.turn, m.c.turn.turn, m.d.turn⟩

/-- A round on the columns and one on the diagonals. -/
def doubleRound (m : Matrix) : Matrix := m.columnRound.skew.columnRound.unskew

def add (m n : Matrix) : Matrix := ⟨m.a.add n.a, m.b.add n.b, m.c.add n.c, m.d.add n.d⟩

def toList (m : Matrix) : List UInt32 := m.a.toList ++ m.b.toList ++ m.c.toList ++ m.d.toList

end Matrix

/-- A key of 256 bits. -/
structure Key where
  low : Row
  high : Row
  deriving DecidableEq, Repr, Inhabited

/-- The block of the keystream with the given number. -/
def block (key : Key) (number : UInt64) : List UInt32 :=
  let start : Matrix :=
    { a := ⟨0x61707865, 0x3320646e, 0x79622d32, 0x6b206574⟩
      b := key.low
      c := key.high
      d := ⟨number.toUInt32, (number >>> 32).toUInt32, 0, 0⟩ }
  ((List.range 6).foldl (fun m _ => m.doubleRound) start |>.add start).toList

/-- One step of stretching a seed: the next state and the word it gives. -/
def stretch (state : UInt64) : UInt32 × UInt64 :=
  let state := state * 6364136223846793005 + 11634580027462260723
  let x := (((state >>> 18) ^^^ state) >>> 27).toUInt32
  let k := (state >>> 59).toUInt32
  ((x >>> k) ||| (x <<< ((32 - k) % 32)), state)

/-- Four words of a stretched seed. -/
def stretchRow (state : UInt64) : Row × UInt64 :=
  let (w0, state) := stretch state
  let (w1, state) := stretch state
  let (w2, state) := stretch state
  let (w3, state) := stretch state
  (⟨w0, w1, w2, w3⟩, state)

/-- The key of a seed. -/
def Key.ofSeed (seed : UInt64) : Key :=
  let (low, state) := stretchRow seed
  let (high, _) := stretchRow state
  { low, high }

/-- The keystream from some word on: what is left of a block, and the number of the next one. -/
structure WordStream where
  key : Key
  next : UInt64 := 0
  left : List UInt32 := []
  deriving Repr, Inhabited

namespace WordStream

def ofSeed (seed : UInt64) : WordStream := { key := .ofSeed seed }

/-- The next word. -/
def word : StateM WordStream UInt32 := fun s =>
  match s.left with
  | w :: left => (w, { s with left })
  | [] =>
    let words := block s.key s.next
    (words.headD 0, { s with next := s.next + 1, left := words.tail })

/-- The next two words as one number, the first one lowest. -/
def doubleWord : StateM WordStream UInt64 := do
  let low ← word
  let high ← word
  pure (low.toUInt64 ||| (high.toUInt64 <<< 32))

/-- The place of `v`, of `size` numbers, when they are divided evenly into `n` parts. -/
def share (size n v : Nat) (pos : 0 < n) (bound : v < size) : Fin n :=
  ⟨v * n / size, Nat.div_lt_of_lt_mul <| by
    rw [Nat.mul_comm size n, Nat.mul_comm v n]
    exact Nat.mul_lt_mul_of_pos_left bound pos⟩

/-- A number is rejected if the remainder of its product lies beyond the greatest multiple of `n`
by a power of two below `2 ^ bits`. -/
def accepts (bits n v : Nat) : Bool :=
  v * n % 2 ^ bits < n * 2 ^ (bits - 1 - n.log2)

/-- How often a rejected number is replaced by another. More than half of all numbers are accepted,
so a run of so many rejections does not happen. -/
def patience : Nat := 4096

/-- Uniform choice below `n` from numbers of the given width. -/
def choose (bits : Nat) (draw : StateM WordStream { v : Nat // v < 2 ^ bits }) (n : Nat)
    (pos : 0 < n) : Nat → StateM WordStream (Fin n)
  | 0 => do
    let v ← draw
    pure (share (2 ^ bits) n v.1 pos v.2)
  | tries + 1 => do
    let v ← draw
    if accepts bits n v.1 then pure (share (2 ^ bits) n v.1 pos v.2)
    else choose bits draw n pos tries

/-- The next word as a number below `2 ^ 32`. -/
def draw32 : StateM WordStream { v : Nat // v < 2 ^ 32 } := do
  let w ← word
  pure ⟨w.toNat, w.toNat_lt⟩

/-- The next two words as a number below `2 ^ 64`. -/
def draw64 : StateM WordStream { v : Nat // v < 2 ^ 64 } := do
  let w ← doubleWord
  pure ⟨w.toNat, w.toNat_lt⟩

/-- Four tenths of `2 ^ 64`, as near as a double precision number comes to it. -/
def coinThreshold : UInt64 := 0x6666666666666800

instance : Chooser WordStream where
  coin := do
    let w ← doubleWord
    pure (decide (w < coinThreshold))
  small n pos := choose 32 draw32 n pos patience
  large n pos := choose 64 draw64 n pos patience

end WordStream

end Horn.Random
