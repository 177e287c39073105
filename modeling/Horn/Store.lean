import Horn.Fault

/-!
# The store of bindings

A store has a cell for each allocated variable, empty or holding the term the variable is bound to,
and a journal of all that was allocated and bound, the newest event first. Reading leaves the store
alone; every change goes through `alloc` and `bind`, and the journal tells them all.

- `Run σ`: programs with a state `σ` that may end in a fault.
- `resolve`: follows the bindings of a variable to an unbound variable or another term, without
  writing. A chain of bindings that closes is noticed, as it is longer than there are cells.
- `deref`: the same, after which every variable of the chain is bound to the result itself.
-/

namespace Horn

/-- Programs with a state that may end in a fault. -/
abbrev Run (σ : Type) := StateT σ (Except Fault)

/-- Ends a run. -/
def Run.fail {σ α : Type} (f : Fault) : Run σ α := fun _ => .error f

/-- The cells of the variables, by index. -/
abbrev Cells := Array (Option Term)

/-- One change of a store. -/
inductive Event where
  /-- The variable was allocated. -/
  | alloc (v : Nat)
  /-- The variable was bound, whatever it was bound to before. -/
  | bind (v : Nat) (value : Term)

/-- Cells and the changes that led to them, the newest first. -/
structure Store where
  cells : Cells := #[]
  journal : List Event := []

namespace Cells

/-- What a variable is bound to. -/
def read (cells : Cells) (v : Nat) : Except Fault (Option Term) :=
  match cells[v]? with
  | some binding => .ok binding
  | none => .error (.outOfRange cells.size v)

/-- Follows bindings from a variable, over at most the given number of cells. -/
def chase (cells : Cells) : Nat → Nat → Except Fault Term
  | 0, _ => .error .endlessChain
  | cellsLeft + 1, v => do
    match ← cells.read v with
    | none => .ok (.var v)
    | some (.var next) => cells.chase cellsLeft next
    | some value => .ok value

/-- The unbound variable, or the term that is no variable, to which bindings lead. A chain that
visits more cells than there are has visited one twice. -/
def resolve (cells : Cells) : Term → Except Fault Term
  | .var v => cells.chase (cells.size + 1) v
  | t => .ok t

end Cells

namespace Store

/-- How many variables are allocated. -/
def size : Run Store Nat := fun s => .ok (s.cells.size, s)

/-- What a variable is bound to. -/
def read (v : Nat) : Run Store (Option Term) := fun s =>
  match s.cells.read v with
  | .ok binding => .ok (binding, s)
  | .error f => .error f

/-- What bindings lead to from a term. -/
def resolve (t : Term) : Run Store Term := fun s =>
  match s.cells.resolve t with
  | .ok result => .ok (result, s)
  | .error f => .error f

/-- A new variable, which is unbound. Indices are given out in order. -/
def alloc : Run Store Nat := fun s =>
  let v := s.cells.size
  .ok (v, { cells := s.cells.push none, journal := .alloc v :: s.journal })

/-- Binds a variable, whatever it was bound to before. -/
def bind (v : Nat) (value : Term) : Run Store Unit := fun s =>
  if v < s.cells.size then
    let cells := s.cells.setIfInBounds v (some value)
    .ok ((), { cells, journal := .bind v value :: s.journal })
  else .error (.neverAllocated v)

end Store

/-- Binds the variables of a chain to its result, from the start on, over at most the given number
of cells. A variable that is bound to the result already is the last one. -/
def shorten (result : Term) : Nat → Nat → Run Store Unit
  | 0, _ => pure ()
  | cellsLeft + 1, v => do
    match ← Store.read v with
    | some (.var next) =>
      if result.same (.var next) then pure ()
      else do
        Store.bind v result
        shorten result cellsLeft next
    | _ => pure ()

/-- What bindings lead to, with the chain shortened. -/
def deref (t : Term) : Run Store Term := do
  match t with
  | .var v =>
    let result ← Store.resolve t
    shorten result ((← Store.size) + 1) v
    pure result
  | _ => pure t

namespace Term

/-- The printed form with bindings followed at every level, without writing. -/
def display (t : Term) (cells : Cells) : Except Fault String :=
  t.render cells.resolve (printedDepth + 1)

end Term

end Horn
