import Horn.Store

/-!
# Unification

Two terms are unified by a list of pairs still to be made equal, worked off from its head. Each
step follows the bindings of one pair, and binds a variable, compares two leaves, or puts the pairs
of arguments of two nodes in front of the rest, so that arguments are unified from left to right
and the first failure ends the run. Bindings made before a failure stay.

Following a cyclic binding may take forever, so the loops count the steps they may still take.

- `containsVar`: an unbound variable is reachable from a term.
- `unify`: makes two terms equal by binding variables.
-/

namespace Horn

/-- Programs on a store that may fail to unify. The store is kept on failure. -/
abbrev Attempt := ExceptT UnifyError (Run Store)

/-- Whether the variable is reached from one of the terms once bindings are followed. The terms are
searched from the head of the list on, the arguments of a node from the last to the first. -/
def searchVar (v : Nat) : Nat → List Term → Run Store Bool
  | _, [] => pure false
  | 0, _ :: _ => Run.fail .outOfFuel
  | fuel + 1, t :: rest => do
    match ← deref t with
    | .var w => if w == v then pure true else searchVar v fuel rest
    | .compound _ _ x xs => searchVar v fuel ((x :: xs).reverse ++ rest)
    | _ => searchVar v fuel rest

/-- Whether the variable is reached from the term once bindings are followed. -/
def containsVar (fuel : Nat) (v : Nat) (t : Term) : Run Store Bool := searchVar v fuel [t]

/-- Binds an unbound variable, unless it is to be checked that the value does not contain it and
the value does. -/
def bindVar (fuel : Nat) (occursCheck : Bool) (v : Nat) (value : Term) : Attempt Unit := do
  if occursCheck then
    if ← (containsVar fuel v value : Run Store Bool) then
      throw .occursCheck
  Store.bind v value

/-- The reason why two terms that are no variables and have different outermost symbols do not
unify. -/
def mismatch (a b : Term) : UnifyError :=
  match a, b with
  | .atom _, .atom _ => .atomMismatch
  | .int _, .int _ => .numberMismatch
  | .float _, .float _ => .floatMismatch
  | .compound .., .compound .. => .functorMismatch
  | .box _, .box _ => .blackBoxMismatch
  | _, _ => .kindMismatch

/-- Two leaves that are no variables unify if they are equal: atoms by name, floats numerically,
black boxes by identity. -/
def leavesAgree (a b : Term) : Bool :=
  match a, b with
  | .atom x, .atom y => x.eqv y
  | .int m, .int n => m == n
  | .float x, .float y => x.eqv y
  | .box x, .box y => x.serial == y.serial
  | _, _ => false

/-- One pair: what is left to be done for it are the pairs returned. A variable on the left is
bound before one on the right, and a node unifies with itself. -/
def unifyStep (fuel : Nat) (occursCheck : Bool) (a b : Term) : Attempt (List (Term × Term)) := do
  let a ← (deref a : Run Store Term)
  let b ← (deref b : Run Store Term)
  match a, b with
  | .var v, .var w =>
    if v == w then pure []
    else do
      bindVar fuel occursCheck v b
      pure []
  | .var v, _ => do
    bindVar fuel occursCheck v b
    pure []
  | _, .var w => do
    bindVar fuel occursCheck w a
    pure []
  | .compound i f x xs, .compound j g y ys =>
    if xs.length == ys.length && f.eqv g then
      -- the arguments of one and the same node are not visited
      pure (if i == j then [] else (x, y) :: xs.zip ys)
    else throw .functorMismatch
  | _, _ => if leavesAgree a b then pure [] else throw (mismatch a b)

/-- Works off a list of pairs. -/
def unifyPairs (occursCheck : Bool) : Nat → List (Term × Term) → Attempt Unit
  | _, [] => pure ()
  | 0, _ :: _ => (Run.fail .outOfFuel : Run Store Unit)
  | fuel + 1, (a, b) :: rest => do
    let more ← unifyStep fuel occursCheck a b
    -- pairs of arguments go first, so the whole is worked off from left to right
    unifyPairs occursCheck fuel (more ++ rest)

/-- Makes two terms equal by binding variables. With the occurs check, a variable is never bound to
a term that contains it. -/
def unify (fuel : Nat) (occursCheck : Bool) (a b : Term) : Attempt Unit :=
  unifyPairs occursCheck fuel [(a, b)]

end Horn
