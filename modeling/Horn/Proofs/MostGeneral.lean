import Horn.Proofs.Unification
import Horn.Proofs.Values

/-!
# Most general unifiers

Unification with the occurs check computes a most general unifier: it ends, it succeeds if and only
if the two terms can be made equal at all, and then the store that it leaves has exactly those of
the solutions of the original store that make them equal. In particular the values of the two terms
are then equal.

- `unify_mostGeneral`: the statement about `unify`.
-/

namespace Horn

variable {s s' : Store} {a b : Term} {nodes : Nat → Term} {next : Nat}

/-- In a store all of whose solutions make two terms equal, their values are equal. The second value
may be built on any store with the cells that are left when the first one has been built. -/
theorem values_equal {supply : Supply} (hs : s.Sound nodes next) (ha : s.Over nodes next a)
    (hb : s.Over nodes next b) (hnext : next ≤ supply.next)
    (heq : ∀ σ, s.cells.Solves .numeric σ → a.under .numeric σ = b.under .numeric σ) :
    ∃ x supply₁ s₁, Settles (fun fuel => value fuel a supply s) ((x, supply₁), s₁) ∧
      supply.next ≤ supply₁.next ∧ ∀ s' : Store, s'.cells = s₁.cells →
        ∃ y supply₂ s₂, Settles (fun fuel => value fuel b supply₁ s') ((y, supply₂), s₂) ∧
          supply₁.next ≤ supply₂.next ∧ x.eqv y = true := by
  obtain ⟨τ, hτ⟩ := hs.proper.acyclic.exists_resolves Reading.numeric id
  have hnan : ∀ {t : Term}, t.Comparable nodes → t.Every Term.NotNaN := fun h => h.nanFree
  have hreadable : Readable .numeric τ next Term.NotNaN s :=
    ⟨hs.proper, hτ, hs.older, fun v t hv => hnan (hs.plain v t hv)⟩
  have hcompound : ∀ i f x xs, Term.NotNaN (.compound i f x xs) := fun _ _ _ _ => trivial
  obtain ⟨x, supply₁, s₁, hx, hcomp, hle, hvx⟩ :=
    value_settles hcompound hreadable ha.below ha.older (hnan ha.plain) hnext
  refine ⟨x, supply₁, s₁, hx, hle, fun s' hs' => ?_⟩
  have hcomp' : s.cells.Compressed s'.cells := hs' ▸ hcomp
  -- the first value has shortened chains at most, which does not change the second one
  obtain ⟨y, supply₂, s₂, hy, -, hle', hvy⟩ :=
    value_settles hcompound (hreadable.compressed hcomp') (hcomp'.size ▸ hb.below) hb.older
      (hnan hb.plain) (Nat.le_trans hnext hle)
  refine ⟨y, supply₂, s₂, hy, hle', Term.eqv_of_under_eq hvx.leaves hvy.leaves ?_⟩
  rw [hvx.tree, hvy.tree, heq τ hτ.solves]

/-- The values of two such terms, built one after the other. -/
theorem values_eqv {supply : Supply} (hs : s.Sound nodes next) (ha : s.Over nodes next a)
    (hb : s.Over nodes next b) (hnext : next ≤ supply.next)
    (heq : ∀ σ, s.cells.Solves .numeric σ → a.under .numeric σ = b.under .numeric σ) :
    ∃ x y supply₁ supply₂ s₁ s₂,
      Settles (fun fuel => value fuel a supply s) ((x, supply₁), s₁) ∧
        Settles (fun fuel => value fuel b supply₁ s₁) ((y, supply₂), s₂) ∧ x.eqv y = true := by
  obtain ⟨x, supply₁, s₁, hx, -, hlater⟩ := values_equal hs ha hb hnext heq
  obtain ⟨y, supply₂, s₂, hy, -, heqv⟩ := hlater s₁ rfl
  exact ⟨x, y, supply₁, supply₂, s₁, s₂, hx, hy, heqv⟩

/-- **Unification with the occurs check computes a most general unifier.** It ends. It succeeds if
and only if some solution of the store makes the terms equal, and then the solutions of the store
that it leaves are the solutions of the original store that make them equal, so that afterwards the
values of the two terms are equal. -/
theorem unify_mostGeneral {supply : Supply} (hs : s.Sound nodes supply.next)
    (ha : s.Over nodes supply.next a) (hb : s.Over nodes supply.next b) :
    ∃ result s', Settles (fun fuel => unify fuel true a b s) (result, s') ∧
      (result = .ok () ↔
        ∃ σ, s.cells.Solves .numeric σ ∧ a.under .numeric σ = b.under .numeric σ) ∧
      (result = .ok () →
        (∀ σ, s'.cells.Solves .numeric σ ↔
          s.cells.Solves .numeric σ ∧ a.under .numeric σ = b.under .numeric σ) ∧
        ∃ x y supply₁ supply₂ s₁ s₂,
          Settles (fun fuel => value fuel a supply s') ((x, supply₁), s₁) ∧
            Settles (fun fuel => value fuel b supply₁ s₁) ((y, supply₂), s₂) ∧
              x.eqv y = true) := by
  have hbelow : PairsBelow s.cells.size [(a, b)] := by
    simpa [PairsBelow] using ⟨ha.below, hb.below⟩
  have hevery : ∀ {p : Term → Prop}, a.Every p → b.Every p → PairsEvery p [(a, b)] := by
    intro p hpa hpb
    simpa [PairsEvery] using ⟨hpa, hpb⟩
  obtain ⟨result, s', hsettles, h⟩ := unifyPairs_settles hs.proper hbelow (.inl rfl)
  -- the solutions that make the pair equal are those of the store that is left, if unification
  -- succeeds
  have hexact : ∀ σ, s.cells.Solves .numeric σ ∧ a.under .numeric σ = b.under .numeric σ ↔
      result = .ok () ∧ s'.cells.Solves .numeric σ := by
    intro σ
    simpa [Satisfies] using h.exact nodes hs.plain (hevery ha.plain hb.plain) σ
  have hs' : s'.Sound nodes supply.next :=
    ⟨h.proper, h.every _ hs.plain (hevery ha.plain hb.plain),
      h.every _ hs.older (hevery ha.older hb.older)⟩
  refine ⟨result, s', hsettles, ⟨fun hok => ?_, fun h => ?_⟩, fun hok => ?_⟩
  · -- an acyclic store has a solution, and if unification succeeds it makes the terms equal
    obtain ⟨σ, hσ⟩ := h.proper.acyclic.exists_resolves Reading.numeric id
    exact ⟨σ, (hexact σ).mpr ⟨hok, hσ.solves⟩⟩
  · obtain ⟨σ, hσ⟩ := h
    exact ((hexact σ).mp hσ).1
  · have hiff : ∀ σ, s'.cells.Solves .numeric σ ↔
        s.cells.Solves .numeric σ ∧ a.under .numeric σ = b.under .numeric σ :=
      fun σ => ((hexact σ).trans (and_iff_right hok)).symm
    exact ⟨hiff, values_eqv hs' ⟨h.size ▸ ha.below, ha.plain, ha.older⟩
      ⟨h.size ▸ hb.below, hb.plain, hb.older⟩ (Nat.le_refl _) fun σ hσ => ((hiff σ).mp hσ).2⟩

/-- The term `f(X2, X1)` unifies with `f(g(X1), 7)` if `X2` is an alias of `X0`. -/
theorem unify_mostGeneral_aliased :
    ∃ s', Settles (fun fuel => unify fuel true
        (.compound 0 ⟨"f", .interned 0⟩ (.var 2) [.var 1])
        (.compound 2 ⟨"f", .interned 0⟩ (.compound 1 ⟨"g", .interned 1⟩ (.var 1) []) [.int 7])
        { cells := aliasedCells }) (.ok (), s') ∧
      s'.cells.Solves .numeric fun v => if v = 1 then .leaf (.int 7) else
        .node () "g" [.leaf (.int 7)] := by
  let nodes : Nat → Term
    | 0 => .compound 0 ⟨"f", .interned 0⟩ (.var 2) [.var 1]
    | 1 => .compound 1 ⟨"g", .interned 1⟩ (.var 1) []
    | _ => .compound 2 ⟨"f", .interned 0⟩ (.compound 1 ⟨"g", .interned 1⟩ (.var 1) []) [.int 7]
  let supply : Supply := ⟨3⟩
  let σ : Nat → Tree Unit := fun v => if v = 1 then .leaf (.int 7) else
    .node () "g" [.leaf (.int 7)]
  have hσ : aliasedCells.Solves .numeric σ := by
    intro v t hv
    obtain ⟨rfl, rfl⟩ := bound_aliasedCells hv
    rfl
  have hs : Store.Sound nodes supply.next { cells := aliasedCells } := sound_aliasedCells _ _
  have ha : Store.Over nodes supply.next { cells := aliasedCells } (nodes 0) :=
    ⟨by simp [nodes, aliasedCells, Term.Bounded], by simp [nodes, Term.Plain],
      by simp [nodes, supply, Term.Dated]⟩
  have hb : Store.Over nodes supply.next { cells := aliasedCells } (nodes 2) :=
    ⟨by simp [nodes, aliasedCells, Term.Bounded], by simp [nodes, Term.Plain],
      by simp [nodes, supply, Term.Dated]⟩
  obtain ⟨result, s', hsettles, hok, hsolves⟩ := unify_mostGeneral hs ha hb
  have hresult := hok.mpr ⟨σ, hσ, rfl⟩
  subst hresult
  exact ⟨s', hsettles, ((hsolves rfl).1 σ).mpr ⟨hσ, rfl⟩⟩

end Horn
