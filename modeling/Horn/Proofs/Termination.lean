import Horn.Proofs.StandardOrder
import Horn.Proofs.Values

/-!
# Termination

In a proper store everything that can be asked about a term is found in finitely many steps.
Unification with the occurs check ends as well, and keeps the store proper even if it fails after
some variables have been bound, so the same holds of the store that it leaves.

- `Store.Answers`: values, occurrences of variables and the order of terms are found.
- `Store.answers_of_proper`: proper stores answer.
- `unify_proper`: unification with the occurs check ends in a proper store.
-/

namespace Horn

variable {s : Store} {a b : Term}

/-- What can be asked about the terms over a store is found in finitely many steps, and the store
stays proper. -/
structure Store.Answers (s : Store) : Prop where
  value : ∀ t supply, t.Below s.cells.size → ∃ result supply' s',
    Settles (fun fuel => value fuel t supply s) ((result, supply'), s') ∧ s'.cells.Proper
  containsVar : ∀ v t, t.Below s.cells.size → ∃ found s',
    Settles (fun fuel => containsVar fuel v t s) (found, s') ∧ s'.cells.Proper
  compareTerms : ∀ t u, t.Below s.cells.size → u.Below s.cells.size → ∃ found s',
    Settles (fun fuel => compareTerms fuel t u s) (found, s') ∧ s'.cells.Proper

/-- **In a proper store the reading operations end.** -/
theorem Store.answers_of_proper (hs : s.cells.Proper) : s.Answers := by
  obtain ⟨τ, hτ⟩ := hs.acyclic.exists_resolves Reading.exact id
  constructor
  · intro t supply ht
    obtain ⟨result, supply', s', hsettles, hcomp⟩ := value_ends hs ht supply
    exact ⟨result, supply', s', hsettles, hcomp.proper hs⟩
  · intro v t ht
    have hbelow : ∀ u ∈ [t], u.Below s.cells.size := by simpa using ht
    obtain ⟨found, s', hsettles, hcomp, -⟩ := searchVar_settles (v := v) hτ hs hbelow
    exact ⟨found, s', hsettles, hcomp.proper hs⟩
  · intro t u ht hu
    obtain ⟨found, s', hsettles, hcomp, -⟩ :=
      comparePairs_settles hτ hs (pairsBelow_single ht hu)
    exact ⟨found, s', hsettles, hcomp.proper hs⟩

/-- **Unification with the occurs check ends in a proper store.** Whether it succeeds or fails, with
however many variables bound by then, no variable has been bound to a term that contains it, so that
all that is asked about the store afterwards is answered. -/
theorem unify_proper (hs : s.cells.Proper) (ha : a.Below s.cells.size)
    (hb : b.Below s.cells.size) :
    ∃ result s', Settles (fun fuel => unify fuel true a b s) (result, s') ∧
      s'.cells.size = s.cells.size ∧ s'.cells.Proper ∧ s'.Answers := by
  have hbelow : PairsBelow s.cells.size [(a, b)] := by simpa [PairsBelow] using ⟨ha, hb⟩
  obtain ⟨result, s', hsettles, h⟩ := unifyPairs_settles hs hbelow (.inl rfl)
  exact ⟨result, s', hsettles, h.size, h.proper, Store.answers_of_proper h.proper⟩

/-- Let `X2` be an alias of `X0`. Then `f(X1, X2)` and `f(7, g(X0))` do not unify, but this is found
out when `X1` has been bound. -/
theorem unify_proper_failing :
    ∃ s', Settles (fun fuel => unify fuel true
        (.compound 0 ⟨"f", .interned 0⟩ (.var 1) [.var 2])
        (.compound 2 ⟨"f", .interned 0⟩ (.int 7) [.compound 1 ⟨"g", .interned 1⟩ (.var 0) []])
        { cells := aliasedCells }) (.error .occursCheck, s') ∧
      s'.cells.Bound 1 (.int 7) ∧ s'.cells.Proper ∧ s'.Answers := by
  let a : Term := .compound 0 ⟨"f", .interned 0⟩ (.var 1) [.var 2]
  let b : Term :=
    .compound 2 ⟨"f", .interned 0⟩ (.int 7) [.compound 1 ⟨"g", .interned 1⟩ (.var 0) []]
  let left : Store :=
    { cells := #[none, some (.int 7), some (.var 0)], journal := [.bind 1 (.int 7)] }
  have hs : Store.Sound Term.var 0 { cells := aliasedCells } := sound_aliasedCells _ _
  have ha : a.Below aliasedCells.size := by simp [a, aliasedCells, Term.Bounded]
  have hb : b.Below aliasedCells.size := by simp [b, aliasedCells, Term.Bounded]
  obtain ⟨result, s', hsettles, -, hproper, hanswers⟩ := unify_proper hs.proper ha hb
  have hrun : Settles (fun fuel => unify fuel true a b { cells := aliasedCells })
      (.error .occursCheck, left) := by
    refine ⟨10, fun fuel hfuel => ?_⟩
    obtain ⟨more, rfl⟩ := Nat.exists_eq_add_of_le' hfuel
    rfl
  cases hsettles.unique hrun
  exact ⟨left, hrun, rfl, hproper, hanswers⟩

end Horn
