import Horn.Instantiate
import Horn.Term.Hash

/-!
# Clauses

A clause is a head with an optional body. Its variables are numbered densely, in order of their
first occurrence in the head and then the body, so that it shares no variables with any store; each
use makes an instance of it.

- `Clause.make`: the clause of a callable head and body.
- `Clause.mayUnify`: a quick test by hashes, which no matching goal fails.
- `Clause.call`: one resolution step, which unifies the head with a goal and returns the body.
-/

namespace Horn

/-- The name of the cut. -/
def cutName : String := "!"

/-- A stored clause. -/
structure Clause where
  head : Term
  body : Option Term
  /-- How many variables there are in head and body together. -/
  varCount : Nat
  signature : Signature
  /-- The hashes of the arguments of the head. -/
  argHashes : List Int64
  /-- The cut is mentioned in the body. -/
  hasCut : Bool

/-- The signature of a term that has one. -/
def Term.callable (t : Term) : Except TermError Signature :=
  match t with
  | .var _ => .error .instantiation
  | _ =>
    match t.signature? with
    | some s => .ok s
    | none => .error (.notCallable t.kind)

namespace Clause

/-- The signature of the head of a clause whose parts are callable. -/
def checkParts (head : Term) (body : Option Term) : Except TermError Signature := do
  let signature ← head.callable
  match body with
  | none => pure signature
  | some body => do
    discard body.callable
    pure signature

/-- Numbers the variables of a head and a body together. -/
def renumberBoth (head : Term) (body : Option Term) : Build Numbering (Term × Option Term) := do
  let head ← renumber 0 head
  match body with
  | none => pure (head, none)
  | some body => do
    let body ← renumber 0 body
    pure (head, some body)

/-- A head and a body with their variables numbered, and the numbers given. -/
def numbered (head : Term) (body : Option Term) :
    StateT Supply (Except Fault) ((Term × Option Term) × Numbering) := fun supply =>
  match renumberBoth head body supply {} with
  | .ok ((parts, supply), numbering) => .ok ((parts, numbering), supply)
  | .error f => .error f

/-- The clause of a head and a body, which must be callable. -/
def make (head : Term) (body : Option Term) :
    ExceptT TermError (StateT Supply (Except Fault)) Clause := do
  match checkParts head body with
  | .error e => throw e
  | .ok signature => do
    let ((head, body), numbering) ← (numbered head body : StateT Supply (Except Fault) _)
    pure
      { head
        body
        varCount := numbering.size
        signature
        argHashes := head.arguments.map Term.unifyHash
        hasCut := body.any (Term.mentions cutName) }

/-- There is no body. -/
def isFact (c : Clause) : Bool := c.body.isNone

/-- The clause as text. -/
def text (c : Clause) : String :=
  match c.body with
  | none => c.head.text ++ "."
  | some body => c.head.text ++ " :- " ++ body.text ++ "."

/-- All hashes are compatible with those of the terms beside them, with bindings followed. The
first one that is not ends the test. -/
def hashesAllow : List (Int64 × Term) → Run Store Bool
  | [] => pure true
  | (hash, arg) :: rest => do
    let arg ← deref arg
    if compatible hash arg.unifyHash then hashesAllow rest else pure false

/-- If not, the head does not unify with the goal. -/
def mayUnify (c : Clause) (goal : Term) : Run Store Bool := do
  let goal ← deref goal
  hashesAllow (c.argHashes.zip goal.arguments)

/-- Unifies copies of the terms on the left with the goals on the right, pair by pair. -/
def matchAll (fuel : Nat) : List (Term × Term) → Instantiation Unit
  | [] => pure ()
  | (source, goal) :: rest => do
    discard (copyAndUnify fuel source goal)
    matchAll fuel rest

/-- Unifies an instance of the head with a goal that has its arity, and makes the body of the same
instance. -/
def instantiate (fuel : Nat) (c : Clause) (goal : Term) : Instantiation (Option Term) := do
  matchAll fuel (c.head.arguments.zip goal.arguments)
  match c.body with
  | none => pure none
  | some body => some <$> (copy body : Build Instance Term)

/-- Runs a program with an empty memo. -/
def withNewMemo {α : Type} (x : Build Instance α) : Build Store α := Prod.fst <$> withMemo {} x

/-- Unifies a new instance of the head with a goal and returns the body of that instance, or nothing
for a fact. The goal must have the arity of the head; bindings made before a failure stay. -/
def call (fuel : Nat) (c : Clause) (goal : Term) :
    ExceptT UnifyError (Build Store) (Option Term) := do
  let goal ← (deref goal : Run Store Term)
  if c.head.arity = goal.arity then
    ExceptT.mk (withNewMemo (instantiate fuel c goal))
  else
    (Run.fail (.wrongArity goal c.signature c.head.arity goal.arity) : Run Store (Option Term))

end Clause

end Horn
