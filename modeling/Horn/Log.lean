import Horn.Clause
import Horn.Heap

/-!
# Log records

What the library reports on the way, beside its results. A record is a value; who runs an operation
decides what becomes of it.
-/

namespace Horn

/-- How much a record matters. -/
inductive Level where
  | trace | debug | info | warn
  deriving DecidableEq, Repr, Inhabited

/-- The name of a level. -/
def Level.text : Level → String
  | trace => "TRACE"
  | debug => "DEBUG"
  | info => "INFO"
  | warn => "WARN"

/-- What is reported. -/
inductive Record where
  /-- A clause was made. -/
  | built (signature : Signature) (varCount : Nat)
  /-- A heap went back to a checkpoint, over so many trail entries. -/
  | undone (entries varCount : Nat)
  /-- A goal did not unify with the head of a clause. -/
  | rejected (signature : Signature) (reason : UnifyError)
  /-- Two terms were unified and are not equal. -/
  | unequal (a b : Term)
  /-- Two terms unify one way round only. -/
  | asymmetric (a b : Term)
  /-- The order of two terms depends on which comes first. -/
  | unordered (a b : Term)
  /-- Calling a clause and unifying with a copy of its head differ. -/
  | mismatched (c : Clause) (goal : Term)
  /-- The hashes excluded a goal that unifies. -/
  | excluded (c : Clause) (goal : Term)
  /-- A series of random checks is over. -/
  | finished (seed : UInt64) (pairs violations : Nat)

namespace Record

def level : Record → Level
  | built .. => .debug
  | undone .. => .trace
  | rejected .. => .trace
  | finished .. => .info
  | _ => .warn

/-- The record without its level. -/
def message : Record → String
  | built s n => "built rule " ++ s.text ++ " with " ++ toString n ++ " variables"
  | undone entries vars =>
    "undo to EpochID(_): " ++ toString entries ++ " trail entries, " ++
      toString vars ++ " vars live"
  | rejected s e => "head of " ++ s.text ++ " rejected goal: " ++ e.message
  | unequal a b => "unified but unequal: " ++ a.text ++ " = " ++ b.text
  | asymmetric a b => "asymmetric unification: " ++ a.text ++ " = " ++ b.text
  | unordered a b => "order not antisymmetric: " ++ a.text ++ " vs " ++ b.text
  | mismatched c goal => "instantiation mismatch: " ++ c.text ++ " against " ++ goal.text
  | excluded c goal => "pre-filter rejected matching goal: " ++ c.text ++ " against " ++ goal.text
  | finished seed pairs violations =>
    "stress run with seed " ++ toString seed ++ ": " ++ toString pairs ++ " pairs, " ++
      toString violations ++ " violations"

/-- The record as one line. -/
def text (r : Record) : String := r.level.text ++ " " ++ r.message

end Record

/-- What making a clause reports. -/
def Clause.record (c : Clause) : Record := .built c.signature c.varCount

/-- What going back to a live checkpoint of the heap reports. -/
def Heap.undoRecord (h : Heap) (cp : Checkpoint) : Record :=
  .undone (h.trailLength - cp.trailLength) cp.varCount

end Horn
