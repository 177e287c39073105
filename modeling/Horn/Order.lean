import Horn.Store

/-!
# The standard order of terms

Variables come before atoms, atoms before numbers, numbers before compound terms and these before
black boxes. Variables are ordered by index, atoms by the code points of their names, numbers by
value whether integer or float, compound terms by arity, then name, then their arguments from left
to right, black boxes by serial number. Bindings are followed at every level.

- `compareOutermost`: the order of two terms as far as their outermost symbols decide it.
- `compareTerms`: the standard order.
-/

namespace Horn

/-- The order of two terms with their bindings followed, leaving the arguments of nodes aside. -/
def compareOutermost (a b : Term) : Ordering :=
  (compare a.kind.rank b.kind.rank).then <|
    match a, b with
    | .var v, .var w => compare v w
    | .atom x, .atom y => compare x.name y.name
    | .int m, .int n => compare m n
    | .float x, .float y => x.order y
    | .int n, .float x => Binary64.orderInt n x
    | .float x, .int n => (Binary64.orderInt n x).swap
    | .compound _ f _ xs, .compound _ g _ ys =>
      (compare xs.length ys.length).then (compare f.name g.name)
    | .box x, .box y => compare x.serial y.serial
    | _, _ => .eq

/-- The pairs of arguments to be compared after two nodes with equal outermost symbols: none if
they are one node. -/
def argumentPairs (a b : Term) : List (Term × Term) :=
  match a, b with
  | .compound i _ x xs, .compound j _ y ys => if i == j then [] else (x, y) :: xs.zip ys
  | _, _ => []

/-- The first pair of the list that is not equal decides. -/
def comparePairs : Nat → List (Term × Term) → Run Store Ordering
  | _, [] => pure .eq
  | 0, _ :: _ => Run.fail .outOfFuel
  | fuel + 1, (a, b) :: rest => do
    let a ← deref a
    let b ← deref b
    match compareOutermost a b with
    | .eq => comparePairs fuel (argumentPairs a b ++ rest)
    | decided => pure decided

/-- The standard order. -/
def compareTerms (fuel : Nat) (a b : Term) : Run Store Ordering := comparePairs fuel [(a, b)]

end Horn
