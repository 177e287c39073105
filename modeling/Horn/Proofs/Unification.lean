import Horn.Proofs.Moves

/-!
# What unification computes

The bindings of a store and a list of pairs are one set of equations. Every move of unification
keeps its solutions, so a run that succeeds turns the pairs into bindings, and a run that fails
shows that there is no solution.

- `Satisfies`: a substitution solves the store and makes the pairs equal.
- `Unifies`: what a run has made of a store and a list of pairs.
- `Finishes`: the run ends, and `Unifies` describes what it leaves.
- `unifyPairs_settles`: it does so with the occurs check, or without it if there is a solution.
-/

namespace Horn

/-! ## The states that the engine is called in -/

/-- A store whose bindings are closed and acyclic, without NaNs, and whose nodes are those of a
table for the identities below `next`. There is such a table because no identity is given out
twice. -/
structure Store.Sound (nodes : Nat → Term) (next : Nat) (s : Store) : Prop where
  proper : s.cells.Proper
  plain : s.cells.Every (Term.Plain nodes)
  older : s.cells.Every (Term.Dated next)

/-- A term over such a store. -/
structure Store.Over (nodes : Nat → Term) (next : Nat) (s : Store) (t : Term) : Prop where
  below : t.Below s.cells.size
  plain : t.Comparable nodes
  older : t.Older next

/-- Two variables and an alias of the first one. -/
def aliasedCells : Cells := #[none, none, some (.var 0)]

theorem bound_aliasedCells {v : Nat} {t : Term} (h : aliasedCells.Bound v t) :
    v = 2 ∧ t = .var 0 := by
  match v, h with
  | 0, h => cases h
  | 1, h => cases h
  | 2, h => cases h; exact ⟨rfl, rfl⟩
  | v + 3, h => cases h

theorem sound_aliasedCells (nodes : Nat → Term) (n : Nat) :
    Store.Sound nodes n { cells := aliasedCells } where
  proper := Cells.proper_of_below fun v t hv => by
    obtain ⟨rfl, rfl⟩ := bound_aliasedCells hv
    simp [Term.Bounded]
  plain v t hv := by
    obtain ⟨rfl, rfl⟩ := bound_aliasedCells hv
    simp [Term.Plain]
  older v t hv := by
    obtain ⟨rfl, rfl⟩ := bound_aliasedCells hv
    simp [Term.Dated]

/-! ## Equations -/

variable {s s₁ s' : Store} {a b ra rb t : Term} {v : Nat} {rest more : List (Term × Term)}
  {σ : Nat → Tree Unit} {nodes : Nat → Term}

/-- The substitution solves the store and makes the terms of each pair equal, floats being compared
as numbers. -/
def Satisfies (s : Store) (pairs : List (Term × Term)) (σ : Nat → Tree Unit) : Prop :=
  s.cells.Solves .numeric σ ∧ Equal .numeric σ σ pairs

/-- What a run of unification has made of a store and a list of pairs. -/
structure Unifies (s : Store) (pairs : List (Term × Term)) (result : Except UnifyError Unit)
    (s' : Store) : Prop where
  proper : s'.cells.Proper
  size : s'.cells.size = s.cells.size
  /-- Nothing is bound but subterms of what was there. -/
  every : ∀ p, s.cells.Every p → PairsEvery p pairs → s'.cells.Every p
  /-- Success keeps the solutions, and failure means that there is none. -/
  exact : ∀ nodes, s.cells.Every (Term.Plain nodes) → PairsEvery (Term.Plain nodes) pairs → ∀ σ,
    Satisfies s pairs σ ↔ result = .ok () ∧ s'.cells.Solves .numeric σ

/-! ## A move and the solutions -/

namespace Reduces

/-- A solution holds of every move but a failure. -/
theorem holds_of_satisfies (h : Reduces s a b ra rb s₁)
    (hm : ∀ e, Move.ofRoots ra rb ≠ .fail e) (hσ : Satisfies s ((a, b) :: rest) σ) :
    s₁.cells.Solves .numeric σ ∧ (Move.ofRoots ra rb).Holds .numeric σ ∧
      Equal .numeric σ σ rest := by
  obtain ⟨hsolves, heq⟩ := hσ
  rw [equal_cons] at heq
  have hroots := (h.equal_iff hsolves).mp heq.1
  exact ⟨h.solves_iff.mpr hsolves, (Move.made_ofRoots ra rb).holds hm hroots, heq.2⟩

/-- A move keeps the solutions. -/
theorem satisfies_iff (h : Reduces s a b ra rb s₁) (hs : s.cells.Every (Term.Plain nodes))
    (ha : a.Comparable nodes) (hb : b.Comparable nodes) :
    Satisfies s ((a, b) :: rest) σ ↔
      s₁.cells.Solves .numeric σ ∧ (Move.ofRoots ra rb).Holds .numeric σ ∧
        Equal .numeric σ σ rest := by
  obtain ⟨hra, hrb⟩ := h.every hs ha hb
  rw [Satisfies, equal_cons, h.solves_iff, (Move.made_ofRoots ra rb).holds_iff hra hrb]
  exact and_congr_right fun hσ => and_congr_left fun _ => h.equal_iff hσ

end Reduces

namespace Unifies

/-- Nothing is left to be done. -/
theorem nil (hs : s.cells.Proper) : Unifies s [] (.ok ()) s where
  proper := hs
  size := rfl
  every _ h _ := h
  exact _ _ _ σ := by simp [Satisfies]

/-- A pair is replaced by others. -/
theorem pairs {result : Except UnifyError Unit} (h : Reduces s a b ra rb s₁)
    (hm : Move.ofRoots ra rb = .pairs more) (hrest : Unifies s₁ (more ++ rest) result s') :
    Unifies s ((a, b) :: rest) result s' where
  proper := hrest.proper
  size := hrest.size.trans h.compressed.size
  every p hs hp := hrest.every p (h.compressed.every hs) (h.every_pairs hm hs hp)
  exact nodes hs hp σ := by
    obtain ⟨⟨ha, hb⟩, -⟩ := pairsEvery_cons.mp hp
    rw [h.satisfies_iff hs ha hb, hm, Move.Holds, ← equal_append]
    exact hrest.exact nodes (h.compressed.every hs) (h.every_pairs hm hs hp) σ

/-- A variable is bound. -/
theorem bind {result : Except UnifyError Unit} {s₂ : Store} (h : Reduces s a b ra rb s₁)
    (hm : Move.ofRoots ra rb = .bind v t) (hcomp : s₁.cells.Compressed s₂.cells)
    (hrest : Unifies (s₂.bound v t) rest result s') : Unifies s ((a, b) :: rest) result s' := by
  refine ⟨hrest.proper, ?_, fun p hs hp => ?_, fun nodes hs hp σ => ?_⟩
  · exact hrest.size.trans (Store.size_bound.trans (h.compressed.trans hcomp).size)
  · exact hrest.every p (h.every_bind hm hcomp hs hp) (pairsEvery_cons.mp hp).2
  · obtain ⟨⟨ha, hb⟩, hrest'⟩ := pairsEvery_cons.mp hp
    have hv := hcomp.unbound.mpr (h.bind hm).1
    -- the new binding is the equation of the pair
    have hset : (s₂.bound v t).cells.Solves .numeric σ ↔
        s₁.cells.Solves .numeric σ ∧ σ v = t.under .numeric σ := by
      rw [← hcomp.solves h.proper₁.rooted]
      exact Cells.solves_set hv
    rw [h.satisfies_iff hs ha hb, hm, Move.Holds, ← and_assoc, ← hset]
    exact hrest.exact nodes (h.every_bind hm hcomp hs hp) hrest' σ

/-- The pair cannot be made equal. -/
theorem fail {e : UnifyError} (h : Reduces s a b ra rb s₁) (hm : Move.ofRoots ra rb = .fail e) :
    Unifies s ((a, b) :: rest) (.error e) s₁ where
  proper := h.proper₁
  size := h.compressed.size
  every p hs _ := h.compressed.every hs
  exact nodes hs hp σ := by
    obtain ⟨⟨ha, hb⟩, -⟩ := pairsEvery_cons.mp hp
    rw [h.satisfies_iff hs ha hb, hm]
    simp [Move.Holds]

/-- A variable would have to be bound to a term that it occurs in. -/
theorem occurs {s₂ : Store} {τ : Nat → Tree Unit} (h : Reduces s a b ra rb s₁)
    (hm : Move.ofRoots ra rb = .bind v t) (hcomp : s₁.cells.Compressed s₂.cells)
    (hτ : s₁.cells.Resolves .numeric id τ) (hocc : (t.under .numeric τ).Occurs v) :
    Unifies s ((a, b) :: rest) (.error .occursCheck) s₂ where
  proper := hcomp.proper h.proper₁
  size := (h.compressed.trans hcomp).size
  every p hs _ := (h.compressed.trans hcomp).every hs
  exact nodes hs hp σ := by
    obtain ⟨⟨ha, hb⟩, -⟩ := pairsEvery_cons.mp hp
    rw [h.satisfies_iff hs ha hb, hm]
    -- a finite tree cannot stand for a variable and for a larger tree in which the variable occurs
    have hnot : ¬(s₁.cells.Solves .numeric σ ∧ σ v = t.under .numeric σ) := by
      rintro ⟨hσ, heq⟩
      obtain ⟨-, hend, hbelow, hne⟩ := h.bind hm
      rw [hτ.factor_under h.proper₁ hσ hbelow] at heq
      refine Tree.subst_ne_of_occurs hocc (fun htree => ?_) σ heq
      obtain ⟨w, rfl, -, hw⟩ := hτ.of_under_eq_var hend htree
      exact hne (congrArg Term.var hw)
    simp only [Move.Holds]
    tauto

/-- What a run for two terms leaves is sound if the store and the terms were. -/
theorem sound {next : Nat} {result : Except UnifyError Unit} (h : Unifies s [(a, b)] result s')
    (hs : s.Sound nodes next) (ha : s.Over nodes next a) (hb : s.Over nodes next b) :
    s'.Sound nodes next where
  proper := h.proper
  plain := h.every _ hs.plain (pairsEvery_single ha.plain hb.plain)
  older := h.every _ hs.older (pairsEvery_single ha.older hb.older)

end Unifies

/-! ## Running -/

/-- The run ends and has made of store and pairs what unification is to make of them. -/
def Finishes (occursCheck : Bool) (s : Store) (pairs : List (Term × Term)) : Prop :=
  ∃ result s', Settles (fun fuel => unifyPairs occursCheck fuel pairs s) (result, s') ∧
    Unifies s pairs result s'

namespace Finishes

variable {occursCheck : Bool}

theorem nil (hs : s.cells.Proper) : Finishes occursCheck s [] := by
  refine ⟨.ok (), s, .of_forall fun fuel => ?_, .nil hs⟩
  cases fuel <;> rfl

/-- A round that leaves pairs goes on with them. -/
theorem pairs (h : Reduces s a b ra rb s₁) (hm : Move.ofRoots ra rb = .pairs more)
    (hrest : Finishes occursCheck s₁ (more ++ rest)) : Finishes occursCheck s ((a, b) :: rest) := by
  obtain ⟨result, s', hsettles, hunifies⟩ := hrest
  refine ⟨result, s', .of_succ ?_, .pairs h hm hunifies⟩
  simpa only [h.run_pairs hm] using hsettles

theorem fail {e : UnifyError} (h : Reduces s a b ra rb s₁) (hm : Move.ofRoots ra rb = .fail e) :
    Finishes occursCheck s ((a, b) :: rest) :=
  ⟨.error e, s₁, .of_succ (.of_forall fun _ => h.run_fail hm), .fail h hm⟩

/-- With the check, the variable is bound unless it occurs in the resolved term. -/
theorem bind_checked (h : Reduces s a b ra rb s₁) (hm : Move.ofRoots ra rb = .bind v t)
    (hnext : ∀ s₂ : Store, s₁.cells.Compressed s₂.cells → (s₂.bound v t).cells.Proper →
      Finishes true (s₂.bound v t) rest) : Finishes true s ((a, b) :: rest) := by
  obtain ⟨hv, -, hbelow, -⟩ := h.bind hm
  obtain ⟨τ, hτ⟩ := h.proper₁.acyclic.exists_resolves Reading.numeric id
  obtain ⟨s₂, hcomp, ⟨hocc, hrun⟩ | ⟨hocc, hrun⟩⟩ := bindVar_checked hτ h.proper₁ hv hbelow
  · refine ⟨.error .occursCheck, s₂, ?_, .occurs h hm hcomp hτ hocc⟩
    exact .of_succ (hrun.map fun fuel => h.run_bind_fail hm)
  · obtain ⟨result, s', hsettles, hunifies⟩ :=
      hnext s₂ hcomp (h.proper_bound hm hcomp hτ hocc)
    refine ⟨result, s', .of_succ ?_, .bind h hm hcomp hunifies⟩
    exact hrun.and_then hsettles fun fuel => h.run_bind hm

/-- Without the check, a solution of the equations is a solution after the variable is bound. -/
theorem bind_unchecked (h : Reduces s a b ra rb s₁) (hm : Move.ofRoots ra rb = .bind v t)
    (hσ : Satisfies s ((a, b) :: rest) σ)
    (hnext : (s₁.bound v t).cells.Proper → Satisfies (s₁.bound v t) rest σ →
      Finishes false (s₁.bound v t) rest) : Finishes false s ((a, b) :: rest) := by
  obtain ⟨hv, hend, hbelow, hne⟩ := h.bind hm
  obtain ⟨hsolves, heq, hequal⟩ := h.holds_of_satisfies (by simp [hm]) hσ
  rw [hm] at heq
  have hset : (s₁.bound v t).cells.Solves .numeric σ := (Cells.solves_set hv).mpr ⟨hsolves, heq⟩
  obtain ⟨result, s', hsettles, hunifies⟩ :=
    hnext (h.proper₁.set_of_solves hv hend hbelow hne hsolves heq) ⟨hset, hequal⟩
  refine ⟨result, s', .of_succ ?_, .bind h hm (.refl _) hunifies⟩
  simpa only [h.run_bind hm (bindVar_unchecked _ hv)] using hsettles

end Finishes

/-- **Unification ends**, with the occurs check always, without it if the equations have a
solution. What it leaves has the same solutions. -/
theorem unifyPairs_settles {occursCheck : Bool} {pairs : List (Term × Term)}
    (hs : s.cells.Proper) (hpairs : PairsBelow s.cells.size pairs)
    (hsolvable : occursCheck = true ∨ ∃ σ, Satisfies s pairs σ) :
    Finishes occursCheck s pairs := by
  revert hsolvable
  refine unify_induction
    (motive := fun s pairs => (occursCheck = true ∨ ∃ σ, Satisfies s pairs σ) →
      Finishes occursCheck s pairs)
    (fun s hs _ => .nil hs) (fun s a b rest ra rb s₁ h hrest ihpairs ihbind hsolvable => ?_) hs
    hpairs
  cases hm : Move.ofRoots ra rb with
  | pairs more =>
    refine .pairs h hm (ihpairs more hm (hsolvable.imp_right fun hsome => ?_))
    obtain ⟨σ, hσ⟩ := hsome
    obtain ⟨hsolves, hmore, hequal⟩ := h.holds_of_satisfies (by simp [hm]) hσ
    rw [hm] at hmore
    exact ⟨σ, hsolves, equal_append.mpr ⟨hmore, hequal⟩⟩
  | fail e => exact .fail h hm
  | bind v t =>
    -- with the check the resolved term decides, without it the solution does
    cases occursCheck with
    | true =>
      exact .bind_checked h hm fun s₂ hcomp hproper => ihbind v t s₂ hm hcomp hproper (.inl rfl)
    | false =>
      obtain ⟨σ, hσ⟩ := hsolvable.resolve_left Bool.false_ne_true
      exact .bind_unchecked h hm hσ fun hproper hσ' =>
        ihbind v t s₁ hm (.refl _) hproper (.inr ⟨σ, hσ'⟩)

end Horn
