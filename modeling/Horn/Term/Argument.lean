import Horn.Fault
import Horn.Term.Hash

/-!
# Arguments by position

Reading an argument that a term does not have is a defect of the caller.
-/

namespace Horn.Term

/-- The argument at a position, counted from zero. -/
def argument (t : Term) (i : Nat) : Except Fault Term :=
  match t.arguments[i]? with
  | some x => .ok x
  | none => .error (.outOfRange t.arity i)

/-- The hash of the argument at a position of a compound term. -/
def argumentHash (t : Term) (i : Nat) : Except Fault Int64 :=
  match t with
  | compound .. => unifyHash <$> t.argument i
  | _ => .error (.noArguments t.kind)

end Horn.Term
