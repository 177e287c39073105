import Horn.Term.Text

/-!
# What can go wrong

Three kinds of failure are kept apart. A `Fault` is a defect of the caller, or a run without end;
nothing can be done with the state afterwards. A `TermError` is the refusal of an operation whose
state is left as it was. A `UnifyError` is the expected outcome of a failed unification, and the
bindings made before it stay.
-/

namespace Horn

/-- Defects that end a run. -/
inductive Fault where
  /-- An entry of a sequence was read past its end. -/
  | outOfRange (length index : Nat)
  /-- A binding for a variable without a cell. -/
  | neverAllocated (index : Nat)
  /-- The hash of an argument of a term that has none. -/
  | noArguments (kind : Kind)
  /-- A clause called with a goal of another arity. -/
  | wrongArity (goal : Term) (clause : Signature) (headArity goalArity : Nat)
  /-- Room was asked for more entries than a sequence can have. -/
  | capacityOverflow
  /-- Room was asked for more entries than a table can have. -/
  | tableOverflow
  /-- A count was raised that could not be any higher. -/
  | countOverflow
  /-- A chain of variables bound to each other that closes. -/
  | endlessChain
  /-- The run took more steps than it was allowed. -/
  | outOfFuel

namespace Fault

/-- The text of a fault. -/
def message : Fault → String
  | outOfRange length index =>
    "index out of bounds: the len is " ++ toString length ++ " but the index is " ++ toString index
  | neverAllocated index => "variable " ++ toString index ++ " was never allocated"
  | noArguments kind => "unify_hash_of_child on " ++ kind.text ++ " term"
  | wrongArity goal clause headArity goalArity =>
    "assertion `left == right` failed: goal " ++ goal.debugText ++
      " called against rule for " ++ clause.text ++
      "\n  left: " ++ toString headArity ++ "\n right: " ++ toString goalArity
  | capacityOverflow => "capacity overflow"
  | tableOverflow => "Hash table capacity overflow"
  | countOverflow => "attempt to add with overflow"
  | endlessChain => "variables are bound in a circle"
  | outOfFuel => "step limit reached"

end Fault

/-- Why two terms do not unify. -/
inductive UnifyError where
  | atomMismatch
  | numberMismatch
  | floatMismatch
  | functorMismatch
  | kindMismatch
  | blackBoxMismatch
  | occursCheck
  deriving DecidableEq, Repr, Inhabited

namespace UnifyError

/-- The text of a reason. -/
def message : UnifyError → String
  | atomMismatch => "atoms differ"
  | numberMismatch => "integers differ"
  | floatMismatch => "floats differ"
  | functorMismatch => "functor mismatch"
  | kindMismatch => "kind mismatch"
  | blackBoxMismatch => "distinct black boxes"
  | occursCheck => "occurs check"

end UnifyError

/-- Refusals in building clauses and in backtracking. -/
inductive TermError where
  /-- A variable stands where a callable term must stand. -/
  | instantiation
  /-- A term of another kind stands where a callable term must stand. -/
  | notCallable (found : Kind)
  /-- The checkpoint is not live on this heap. -/
  | invalidCheckpoint
  deriving DecidableEq, Repr, Inhabited

namespace TermError

/-- The text of a refusal. -/
def message : TermError → String
  | instantiation => "instantiation error"
  | notCallable found => "Type mismatch: expected callable, found " ++ found.text
  | invalidCheckpoint => "Invalid checkpoint"

end TermError

end Horn
