import Horn.Log
import Horn.Order
import Horn.Random.ChaCha
import Horn.Stress.Generator

/-!
# Stress runs

Random term pairs are put through unification in both directions, the standard order, and use as a
clause and a goal; properties that should hold are counted when they do not.

- `Stress.Config`, `Stress.Report`: what a run is told and what it tells.
- `Stress.checkPair`: the checks of one pair.
- `Stress.run`: a run, for any source of choices.
-/

namespace Horn.Stress

open Horn.Random (Chooser WordStream)

/-- The parameters of a run. -/
structure Config where
  seed : UInt64 := 0
  /-- How many pairs are made. -/
  pairs : Nat := 1000
  /-- How deep the terms may be. -/
  depth : Nat := 4
  /-- How many variables the terms draw from. -/
  vars : Nat := 4
  occursCheck : Bool := false
  deriving DecidableEq, Repr, Inhabited

/-- Counts are below `2 ^ 64`. -/
abbrev Count := Fin (2 ^ 64)

/-- The count of a number, if there is one. -/
def checkCount (n : Nat) : Except Fault Count :=
  if h : n < 2 ^ 64 then .ok ⟨n, h⟩ else .error .countOverflow

/-- What a run counts. -/
structure Report where
  pairs : Count := 0
  /-- Pairs that unified. -/
  unified : Count := 0
  /-- Pairs tried as head of a clause and goal. -/
  instantiated : Count := 0
  /-- Checks left out since unifying the pair would make a cyclic term. -/
  cyclic : Count := 0
  symmetryViolations : Count := 0
  equalityViolations : Count := 0
  orderViolations : Count := 0
  instantiationMismatches : Count := 0
  prefilterRejections : Count := 0
  deriving DecidableEq, Repr, Inhabited

namespace Report

/-- How many properties were found not to hold. -/
def violations (r : Report) : Nat :=
  r.symmetryViolations + r.equalityViolations + r.orderViolations + r.instantiationMismatches +
    r.prefilterRejections

/-- The report as text, a line for each count. -/
def text (r : Report) : String :=
  "\n".intercalate
    [ "pairs:                    " ++ toString r.pairs
    , "unified:                  " ++ toString r.unified
    , "instantiated:             " ++ toString r.instantiated
    , "cyclic (skipped):         " ++ toString r.cyclic
    , "symmetry violations:      " ++ toString r.symmetryViolations
    , "equality violations:      " ++ toString r.equalityViolations
    , "order violations:         " ++ toString r.orderViolations
    , "instantiation mismatches: " ++ toString r.instantiationMismatches
    , "pre-filter rejections:    " ++ toString r.prefilterRejections ]

end Report

/-- Why a command on stress runs did not succeed. -/
inductive Failure where
  /-- An operation was refused. -/
  | refused (e : TermError)
  /-- Properties do not hold. -/
  | violated (count pairs : Nat)

/-- The text of a failure. -/
def Failure.message : Failure → String
  | refused e => e.message
  | violated count pairs =>
    toString count ++ " property violation(s) in " ++ toString pairs ++ " term pairs"

/-- What a run works on: a heap, the node identities, the counts, and the records made so far, the
newest first. -/
structure Bench where
  heap : Heap := {}
  supply : Supply := {}
  report : Report := {}
  records : List Record := []

/-- Programs of a run. -/
abbrev Check := StateT Bench (ExceptT Failure (Except Fault))

/-- Runs a program on the heap, if there can be room for what it makes of the heap. -/
def onHeap {α : Type} (program : Run Store α) : Check α := fun s =>
  match s.heap.run program with
  | .ok (result, heap, _) =>
    match heap.checkGrown with
    | .ok () => .ok (.ok (result, { s with heap }))
    | .error f => .error f
  | .error f => .error f

/-- Runs a program that builds nodes on the heap. -/
def building {α : Type} (program : Build Store α) : Check α := do
  let (result, supply) ← onHeap (program (← get).supply)
  modify ({ · with supply })
  pure result

/-- Takes a new heap with a number of unbound variables. -/
def startHeap (vars : Nat) : Check Unit := fun s =>
  match ({} : Heap).allocate vars with
  | .ok heap => .ok (.ok ((), { s with heap }))
  | .error f => .error f

/-- Takes the only checkpoint of the heap. -/
def mark : Check Checkpoint :=
  modifyGet fun s => let (cp, heap) := s.heap.checkpoint 0; (cp, { s with heap })

/-- Goes back to a checkpoint. -/
def undo (cp : Checkpoint) : Check Unit := fun s =>
  match s.heap.undo cp with
  | .ok heap => .ok (.ok ((), { s with heap }))
  | .error e => .ok (.error (.refused e))

/-- Raises a count by one. -/
def count (read : Report → Count) (write : Report → Count → Report) : Check Unit := fun s =>
  match checkCount ((read s.report).val + 1) with
  | .ok raised => .ok (.ok ((), { s with report := write s.report raised }))
  | .error f => .error f

/-- Adds a record. -/
def note (r : Record) : Check Unit := modify fun s => { s with records := r :: s.records }

/-- Unifies two terms and tells how it went. -/
def tryUnify (fuel : Nat) (occursCheck : Bool) (a b : Term) : Check (Except UnifyError Unit) :=
  onHeap (unify fuel occursCheck a b)

/-- The occurs check stopped a unification. -/
def stoppedByOccursCheck {α : Type} : Except UnifyError α → Bool
  | .error .occursCheck => true
  | _ => false

/-- The unification succeeded. -/
def succeeded {α : Type} : Except UnifyError α → Bool
  | .ok _ => true
  | .error _ => false

/-- Unifying the pair in some direction would make a cyclic term. -/
def isCyclic (fuel : Nat) (cp : Checkpoint) (a b : Term) : Check Bool := do
  let forward ← tryUnify fuel true a b
  undo cp
  let backward ← tryUnify fuel true b a
  undo cp
  pure (stoppedByOccursCheck forward || stoppedByOccursCheck backward)

/-- Unification makes the terms equal, and succeeds in both directions or in none. -/
def checkUnification (fuel : Nat) (occursCheck : Bool) (cp : Checkpoint) (a b : Term) :
    Check Unit := do
  let forward := succeeded (← tryUnify fuel occursCheck a b)
  if forward then
    let x ← building (value fuel a)
    let y ← building (value fuel b)
    if !x.eqv y then
      note (.unequal a b)
      count Report.equalityViolations fun r n => { r with equalityViolations := n }
  undo cp
  let backward := succeeded (← tryUnify fuel occursCheck b a)
  undo cp
  if forward then
    count Report.unified fun r n => { r with unified := n }
  if forward != backward then
    note (.asymmetric a b)
    count Report.symmetryViolations fun r n => { r with symmetryViolations := n }

/-- Exchanging two terms reverses their order. -/
def checkOrder (fuel : Nat) (a b : Term) : Check Unit := do
  let ab ← onHeap (compareTerms fuel a b)
  let ba ← onHeap (compareTerms fuel b a)
  if ab != ba.swap then
    note (.unordered a b)
    count Report.orderViolations fun r n => { r with orderViolations := n }

/-- Makes a fact. -/
def makeFact (head : Term) : Check Clause := fun s =>
  match Clause.make head none s.supply with
  | .ok (.ok c, supply) => .ok (.ok (c, { s with supply }))
  | .ok (.error e, _) => .ok (.error (.refused e))
  | .error f => .error f

/-- Calling a fact with a goal succeeds just when the goal unifies with a copy of the fact, and then
the hashes do not exclude it. -/
def checkInstantiation (fuel : Nat) (cp : Checkpoint) (head goal : Term) : Check Unit := do
  let c ← makeFact head
  let copied ← building (Clause.withNewMemo (copy c.head))
  -- the copy has variables of its own, so it shares none with the goal
  let separate ← tryUnify fuel true copied goal
  undo cp
  if stoppedByOccursCheck separate then
    count Report.cyclic fun r n => { r with cyclic := n }
  else
    count Report.instantiated fun r n => { r with instantiated := n }
    let fused := succeeded (← building (c.call fuel goal))
    undo cp
    if fused != succeeded separate then
      note (.mismatched c goal)
      count Report.instantiationMismatches fun r n => { r with instantiationMismatches := n }
    if fused then
      if !(← onHeap (c.mayUnify goal)) then
        note (.excluded c goal)
        count Report.prefilterRejections fun r n => { r with prefilterRejections := n }

/-- All checks of a pair, on a heap of its own. Without the occurs check, unifying terms that become
cyclic may never end; such pairs are left out. -/
def checkPair (fuel : Nat) (config : Config) (a b : Term) : Check Unit := do
  startHeap config.vars
  let cp ← mark
  let cyclic ← if config.occursCheck then pure false else isCyclic fuel cp a b
  if cyclic then
    count Report.cyclic fun r n => { r with cyclic := n }
  else checkUnification fuel config.occursCheck cp a b
  checkOrder fuel a b
  if a.isCallable && a.sameSignature b then
    checkInstantiation fuel cp a b
  count Report.pairs fun r n => { r with pairs := n }

/-- Makes and checks a number of pairs. -/
def checkPairs {ρ : Type} [Chooser ρ] (fuel : Nat) (config : Config) : Nat → ρ → Check Unit
  | 0, _ => pure ()
  | pairs + 1, source => do
    let ((a, supply), source) := termWithin config.vars config.depth (← get).supply source
    let ((b, supply), source) := termWithin config.vars config.depth supply source
    modify ({ · with supply })
    checkPair fuel config a b
    checkPairs fuel config pairs source

/-- A run on a source of choices: its report, and the records made on the way. -/
def runWith {ρ : Type} [Chooser ρ] (fuel : Nat) (config : Config) (source : ρ) :
    ExceptT Failure (Except Fault) (Report × List Record) := do
  let (_, s) ← checkPairs fuel config config.pairs source {}
  let violations ← (checkCount s.report.violations : Except Fault Count)
  let last := Record.finished config.seed s.report.pairs violations
  pure (s.report, (last :: s.records).reverse)

/-- A run on the keystream of the seed. -/
def run (fuel : Nat) (config : Config) : ExceptT Failure (Except Fault) (Report × List Record) :=
  runWith fuel config (WordStream.ofSeed config.seed)

end Horn.Stress
