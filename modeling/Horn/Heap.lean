import Horn.Store

/-!
# Heaps

A heap keeps the cells of a store together with what is needed to take bindings back. Checkpoints
form a stack; the trail records what cells held before they were written, so that undoing to a
checkpoint is taking back the trail entries made since. Programs of the engine run on the cells
alone, and the heap replays the events they report.

- `Heap.apply`: what one event does to a heap; a write to a cell that the newest checkpoint does not
  know needs no trail entry, since undoing drops the cell.
- `Heap.checkpoint`, `Heap.undo`, `Heap.commit`, `Heap.clear`: backtracking.
- `Heap.run`: runs a program on the cells of a heap.
- `checkRoom`, `checkGrowth`: how much there can be room for.
-/

namespace Horn

/-- What a heap is made with. -/
structure HeapOptions where
  /-- How many cells are expected. -/
  varCapacity : Nat := 1024
  /-- How many trail entries are expected. -/
  trailCapacity : Nat := 256
  /-- Writes to cells allocated since the newest checkpoint are not trailed. -/
  conditionalTrailing : Bool := true
  deriving DecidableEq, Repr, Inhabited

namespace HeapOptions

/-- The options in diagnostics. -/
def debugText (o : HeapOptions) : String :=
  "HeapOptions \x7b var_capacity: " ++ toString o.varCapacity ++
    ", trail_capacity: " ++ toString o.trailCapacity ++
    ", conditional_trailing: " ++ toString o.conditionalTrailing ++ " \x7d"

end HeapOptions

/-- A mark in the history of a heap. Its stamp tells it from all other marks. -/
structure Checkpoint where
  stamp : Nat
  trailLength : Nat
  varCount : Nat
  deriving DecidableEq, Repr, Inhabited

/-- What a cell held before it was written. -/
structure TrailEntry where
  var : Nat
  previous : Option Term

/-- Cells that can be put back. The trail and the checkpoints have the newest first. -/
structure Heap where
  cells : Cells := #[]
  trail : List TrailEntry := []
  checkpoints : List Checkpoint := []
  conditionalTrailing : Bool := true
  deriving Inhabited

/-! ## Room

A cell takes 16 bytes and a trail entry 24. No sequence may take `2 ^ 63` bytes or more. A sequence
to which entries are added one by one asks for twice the room that it has whenever it is full, and
for room for four entries at least. -/

/-- The bytes of a cell. -/
def cellBytes : Nat := 16

/-- The bytes of a trail entry. -/
def trailEntryBytes : Nat := 24

/-- Makes sure that there can be room for a number of entries. -/
def checkRoom (entries entryBytes : Nat) : Except Fault Unit :=
  if entries * entryBytes < 2 ^ 63 then .ok () else .error .capacityOverflow

/-- How many entries there is room for after a sequence has asked for more a number of times. -/
def roomAfter (capacity : Nat) : Nat → Nat
  | 0 => capacity
  | times + 1 => max 4 (2 * roomAfter capacity times)

/-- Makes sure that a sequence with room for `capacity` entries to begin with can grow to a number
of entries. Asked for 64 times, the room would be for more entries than there may be bytes. -/
def checkGrowth (capacity entries entryBytes : Nat) : Except Fault Unit :=
  if (List.range 64).any fun times =>
      entries ≤ roomAfter capacity times && roomAfter capacity times * entryBytes < 2 ^ 63 then
    .ok ()
  else .error .capacityOverflow

namespace Heap

/-- An empty heap, if there can be room for what is expected. -/
def ofOptions (o : HeapOptions) : Except Fault Heap := do
  checkRoom o.varCapacity cellBytes
  checkRoom o.trailCapacity trailEntryBytes
  pure { conditionalTrailing := o.conditionalTrailing }

/-- How many variables are allocated. -/
def size (h : Heap) : Nat := h.cells.size

def isEmpty (h : Heap) : Bool := h.cells.isEmpty

def trailLength (h : Heap) : Nat := h.trail.length

/-- How many variables are bound. -/
def boundCount (h : Heap) : Nat := h.cells.countP Option.isSome

/-! ## Writing -/

/-- A write to the cell must be trailed. -/
def needsTrail (h : Heap) (v : Nat) : Bool :=
  match h.checkpoints with
  | [] => false
  | newest :: _ => !h.conditionalTrailing || v < newest.varCount

/-- A cell is written. -/
def write (h : Heap) (v : Nat) (value : Term) : Heap :=
  let trail :=
    if h.needsTrail v then { var := v, previous := (h.cells[v]?).join } :: h.trail else h.trail
  { h with cells := h.cells.setIfInBounds v (some value), trail }

/-- What an event does to a heap. -/
def apply (h : Heap) : Event → Heap
  | .alloc _ => { h with cells := h.cells.push none }
  | .bind v value => h.write v value

/-- Replays events, the oldest first. -/
def replay (h : Heap) (events : List Event) : Heap := events.foldl apply h

/-- Runs a program on the cells, replays what it reports, and returns the events, the oldest
first. -/
def run {α : Type} (h : Heap) (program : Run Store α) : Except Fault (α × Heap × List Event) :=
  match program { cells := h.cells } with
  | .ok (result, store) =>
    let events := store.journal.reverse
    .ok (result, h.replay events, events)
  | .error f => .error f

/-- Allocates a number of variables, which are unbound, if there can be room for a list of them, and
the cells of a heap that was made with the options can grow by as many. -/
def allocate (h : Heap) (n : Nat) (o : HeapOptions := {}) : Except Fault Heap := do
  checkRoom n cellBytes
  checkGrowth o.varCapacity (h.size + n) cellBytes
  pure { h with cells := h.cells ++ Array.replicate n none }

/-- Makes sure that the cells and the trail of a heap that was made with the options can have grown
to what they are. While a program runs neither gets any shorter, so it is enough to look at what the
program leaves. -/
def checkGrown (h : Heap) (o : HeapOptions := {}) : Except Fault Unit := do
  checkGrowth o.varCapacity h.size cellBytes
  checkGrowth o.trailCapacity h.trailLength trailEntryBytes

/-! ## Backtracking -/

/-- Makes the present state the newest checkpoint. The stamp must be one never used before. -/
def checkpoint (h : Heap) (stamp : Nat) : Checkpoint × Heap :=
  let cp := { stamp, trailLength := h.trailLength, varCount := h.size }
  (cp, { h with checkpoints := cp :: h.checkpoints })

/-- A cell gets back what it held. -/
def restore (cells : Cells) (e : TrailEntry) : Cells := cells.setIfInBounds e.var e.previous

/-- Takes back every binding made since a live checkpoint, drops the variables allocated since and
the checkpoints taken since. The checkpoint stays live. -/
def undo (h : Heap) (cp : Checkpoint) : Except TermError Heap :=
  if cp ∈ h.checkpoints then
    -- the newest entries stand first, so what a cell held at the checkpoint is put back last
    let undone := h.trailLength - cp.trailLength
    .ok { h with
      cells := ((h.trail.take undone).foldl restore h.cells).take cp.varCount
      trail := h.trail.drop undone
      checkpoints := h.checkpoints.dropWhile (· ≠ cp) }
  else .error .invalidCheckpoint

/-- Drops a live checkpoint and those taken since, and keeps all bindings. Without checkpoints
there is no use for a trail. -/
def commit (h : Heap) (cp : Checkpoint) : Except TermError Heap :=
  if cp ∈ h.checkpoints then
    let checkpoints := (h.checkpoints.dropWhile (· ≠ cp)).tail
    .ok { h with checkpoints, trail := if checkpoints.isEmpty then [] else h.trail }
  else .error .invalidCheckpoint

/-- Drops all variables and checkpoints. -/
def clear (h : Heap) : Heap := { h with cells := #[], trail := [], checkpoints := [] }

end Heap

end Horn
