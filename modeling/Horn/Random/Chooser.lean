/-!
# Sources of choices

What random generation needs of its source: a biased coin and uniform choices. Whatever a source
answers is in range by its type, so what holds of the generated things for every source holds for
every random source.
-/

namespace Horn.Random

/-- States that answer choices. -/
class Chooser (ρ : Type) where
  /-- True about four times in ten. -/
  coin : StateM ρ Bool
  /-- A choice among few. -/
  small (n : Nat) (pos : 0 < n) : StateM ρ (Fin n)
  /-- A choice among any number. -/
  large (n : Nat) (pos : 0 < n) : StateM ρ (Fin n)

end Horn.Random
