import Horn.Random.Chooser
import Horn.Term

/-!
# Random terms

Terms over a small vocabulary, so that two of them unify often enough to be of interest. The
generator asks a source of choices and is otherwise determined: the leaf or node, the functor, the
arguments from left to right. The atoms are the entries of a table of their own.

- `leaf`, `termWithin`: a term without nodes, and a term of bounded depth.
- `terms`: a number of terms.
-/

namespace Horn.Stress

open Horn.Random (Chooser)

/-- The constants. -/
def constants : Vector Atom 4 :=
  #v[⟨"a", .interned 0⟩, ⟨"b", .interned 1⟩, ⟨"[]", .interned 2⟩, ⟨"!", .interned 3⟩]

/-- The functors with their arities. -/
def functors : Vector (Atom × Nat) 4 :=
  #v[(⟨"f", .interned 4⟩, 1), (⟨"f", .interned 4⟩, 2), (⟨"g", .interned 5⟩, 2),
    (⟨".", .interned 6⟩, 2)]

/-- The floats `0.0`, `-0.0`, `1.5` and `-2.0`. -/
def floats : Vector Binary64 4 :=
  #v[⟨0⟩, ⟨0x8000000000000000⟩, ⟨0x3ff8000000000000⟩, ⟨0xc000000000000000⟩]

/-- Programs that make terms from choices. -/
abbrev Gen (ρ : Type) := StateT Supply (StateM ρ)

variable {ρ : Type} [Chooser ρ]

/-- A constant. -/
def constant : Gen ρ Term := do
  let i ← (Chooser.large 4 (by decide) : StateM ρ (Fin 4))
  pure (.atom constants[i])

/-- A term that is no node: a variable below `vars` in two cases of five, a number from `-2` to `2`,
a float or a constant in one case each. Without variables there are constants in their place. -/
def leaf (vars : Nat) : Gen ρ Term := do
  let which ← (Chooser.small 5 (by decide) : StateM ρ (Fin 5))
  if which.val ≤ 1 then
    if pos : 0 < vars then do
      let v ← (Chooser.large vars pos : StateM ρ (Fin vars))
      pure (.var v.val)
    else constant
  else if which.val = 2 then do
    let n ← (Chooser.large 5 (by decide) : StateM ρ (Fin 5))
    pure (.int (Int64.ofNat n.val - 2))
  else if which.val = 3 then do
    let i ← (Chooser.large 4 (by decide) : StateM ρ (Fin 4))
    pure (.float floats[i])
  else constant

/-- A term with at most `depth` nodes above any subterm. -/
def termWithin (vars : Nat) : Nat → Gen ρ Term
  | 0 => leaf vars
  | depth + 1 => do
    if ← (Chooser.coin : StateM ρ Bool) then leaf vars
    else do
      let i ← (Chooser.large 4 (by decide) : StateM ρ (Fin 4))
      let (functor, arity) := functors[i]
      let args ← (List.replicate arity ()).mapM fun _ => termWithin vars depth
      modifyGet (Term.apply functor args)

/-- A number of terms, one after the other. -/
def terms (vars depth : Nat) : Nat → Gen ρ (List Term)
  | 0 => pure []
  | count + 1 => do
    let t ← termWithin vars depth
    let ts ← terms vars depth count
    pure (t :: ts)

end Horn.Stress
