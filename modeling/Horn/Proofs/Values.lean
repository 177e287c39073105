import Horn.Proofs.Substitution

/-!
# Values

The value of a term in a proper store is built in finitely many steps and denotes the tree of the
term with all bindings resolved. Building it only shortens chains. A node is kept exactly when it
has no bound variable below it, so the identities of kept and new nodes never meet.

- `HasValue`: what a term and its value have in common.
- `value_evaluates`, `value_ends`: values are built in every proper store.
- `value_settles`: what they denote.
- `value_shares`: what is substituted in them, and what is kept.
-/

namespace Horn

variable {r : Reading Unit} {τ : Nat → Tree Unit} {s s' : Store} {k : Nat} {p : Term → Prop}
  {t result : Term}

/-- A store that values can be built in: all its nodes have identities below `k`, and all leaves
the property `p`. -/
structure Readable (r : Reading Unit) (τ : Nat → Tree Unit) (k : Nat) (p : Term → Prop)
    (s : Store) : Prop where
  proper : s.cells.Proper
  resolves : s.cells.Resolves r id τ
  older : s.cells.Every (Term.Dated k)
  leaves : s.cells.Every p

/-- What can be read stays readable when chains are shortened. -/
theorem Readable.compressed (h : Readable r τ k p s) (hcomp : s.cells.Compressed s'.cells) :
    Readable r τ k p s' where
  proper := hcomp.proper h.proper
  resolves := (hcomp.resolves h.proper.rooted).mpr h.resolves
  older := hcomp.every h.older
  leaves := hcomp.every h.leaves

/-- The result denotes the resolved term, is the term itself if it is the same object, and has
leaves with the property. -/
structure HasValue (r : Reading Unit) (τ : Nat → Tree Unit) (p : Term → Prop) (t result : Term) :
    Prop where
  tree : result.under r .var = t.under r τ
  eq_of_same : result.same t = true → result = t
  leaves : result.Every p

/-- Leaves of a value come from the term or from what is bound. -/
theorem Cells.Value.every {cells : Cells} (hp : ∀ i f x xs, p (.compound i f x xs))
    (h : cells.Value k t result) (hcells : cells.Every p) (ht : t.Every p) : result.Every p := by
  induction h with
  | free _ => exact ht
  | bound hbound _ ih => exact ih (hcells _ _ hbound)
  | leaf _ _ => exact ht
  | kept _ => exact ht
  | rebuilt _ _ hlength _ ih =>
    refine .intro (hp _ _ _ _) fun y hy => ?_
    obtain ⟨x, hx, hxy⟩ := exists_left_of_mem hlength hy
    exact ih hxy (ht.arg hx)

/-- The value denotes the tree of the term with the solution of the bindings put in. -/
theorem Cells.Value.under {cells : Cells} (h : cells.Value k t result)
    (hτ : cells.Resolves r id τ) : result.under r .var = t.under r τ := by
  -- a term without bound variables has the tree that it has by itself
  have hfixed : ∀ {u : Term}, cells.Fixes u → u.under r .var = u.under r τ := fun hu =>
    Term.under_congr fun v hv => (hτ.unbound v (hu v hv)).symm
  induction h with
  | free h => exact hfixed (Cells.fixes_var.mpr h)
  | bound hbound _ ih => exact ih.trans (hτ.solves _ _ hbound).symm
  | leaf hvar hargs => exact hfixed (Cells.fixes_leaf hvar hargs)
  | kept h => exact hfixed h
  | @rebuilt i j f x y xs ys _ _ hlength _ ih =>
    rw [Term.under_compound, Term.under_compound, Term.map_eq_of_zip hlength ih]

theorem HasValue.of_value (hp : ∀ i f x xs, p (.compound i f x xs)) (hs : Readable r τ k p s)
    (hold : t.Older k) (ht : t.Every p) (h : s.cells.Value k t result) :
    HasValue r τ p t result where
  tree := h.under hs.resolves
  eq_of_same hsame := h.eq_of_fixes ((h.same_iff hold).mp hsame)
  leaves := h.every hp hs.leaves ht

/-! ## Building values -/

/-- **Building the value of a term ends** in every proper store, with the value of the term if the
nodes that were there before can be told from new ones. -/
theorem value_evaluates (hs : s.cells.Proper) (hbelow : t.Below s.cells.size) (supply : Supply) :
    ∃ result supply' s', Settles (fun fuel => value fuel t supply s) ((result, supply'), s') ∧
      s.cells.Compressed s'.cells ∧ supply.next ≤ supply'.next ∧
      (s.cells.Every (Term.Dated k) → t.Older k → k ≤ supply.next →
        s.cells.Value k t result) := by
  obtain ⟨m, result, supply', s', hrebuilds, hcomp, hle, hvalue⟩ :=
    Cells.Evaluates.of_proper (k := k) hs hbelow s supply (.refl _)
  exact ⟨result, supply', s', ⟨m, fun fuel hfuel => hrebuilds.run hfuel⟩, hcomp, hle, hvalue⟩

/-- It ends whatever the identities of nodes are. -/
theorem value_ends (hs : s.cells.Proper) (hbelow : t.Below s.cells.size) (supply : Supply) :
    ∃ result supply' s', Settles (fun fuel => value fuel t supply s) ((result, supply'), s') ∧
      s.cells.Compressed s'.cells := by
  obtain ⟨result, supply', s', hsettles, hcomp, -, -⟩ := value_evaluates (k := 0) hs hbelow supply
  exact ⟨result, supply', s', hsettles, hcomp⟩

/-- What it ends in denotes the tree of the resolved term. -/
theorem value_settles (hp : ∀ i f x xs, p (.compound i f x xs)) {supply : Supply}
    (hs : Readable r τ k p s) (hbelow : t.Below s.cells.size) (holder : t.Older k)
    (hleaves : t.Every p) (hk : k ≤ supply.next) :
    ∃ result supply' s', Settles (fun fuel => value fuel t supply s) ((result, supply'), s') ∧
      s.cells.Compressed s'.cells ∧ supply.next ≤ supply'.next ∧ HasValue r τ p t result := by
  obtain ⟨result, supply', s', hsettles, hcomp, hle, hvalue⟩ :=
    value_evaluates (k := k) hs.proper hbelow supply
  exact ⟨result, supply', s', hsettles, hcomp, hle,
    .of_value hp hs holder hleaves (hvalue hs.older holder hk)⟩

/-- A term without bound variables is its own value, for which nothing is built or written. -/
theorem value_of_fixes (supply : Supply) (h : s.cells.Fixes t) :
    Settles (fun fuel => value fuel t supply s) ((t, supply), s) := by
  obtain ⟨m, hrebuilds⟩ := Rebuilds.of_fixes supply h
  exact ⟨m, fun fuel hfuel => hrebuilds.run hfuel⟩

/-- **The value of a term is the term with its bindings substituted**, and it shares with it all
that it can. In a proper store it is built in finitely many steps, whatever the term. No bound
variable occurs in it. It is the same object as the term if and only if none occurs there, and the
nodes in which none occurs are found in it as the nodes that they are, wherever bindings lead to
them. It is its own value, and all variables are dereferenced to what they were before. -/
theorem value_shares {supply : Supply} (hs : s.cells.Proper)
    (hcells : s.cells.Every (Term.Dated supply.next)) (ht : t.Below s.cells.size)
    (hold : t.Older supply.next) :
    ∃ result supply' s', Settles (fun fuel => value fuel t supply s) ((result, supply'), s') ∧
      s.cells.Value supply.next t result ∧
      (∀ v b, s.cells.Bound v b → ¬Term.Within (.var v) result) ∧
      (result.same t = true ↔ ∀ v b, s.cells.Bound v b → ¬Term.Within (.var v) t) ∧
      (∀ u, u.kind = .compound → s.cells.Shows u t →
        (∀ v b, s.cells.Bound v b → ¬Term.Within (.var v) u) → Term.Within u result) ∧
      Settles (fun fuel => value fuel result supply' s') ((result, supply'), s') ∧
      ∀ v r, s'.Derefs v r ↔ s.Derefs v r := by
  obtain ⟨m, result, supply', s', hrebuilds, hcomp, -, hvalue⟩ :=
    Cells.Evaluates.of_proper (k := supply.next) hs ht s supply (.refl _)
  have hv := hvalue hcells hold (Nat.le_refl _)
  refine ⟨result, supply', s', ⟨m, fun fuel hfuel => hrebuilds.run hfuel⟩, hv,
    fun v b hb hw => hb.not_unbound (hv.fixes v hw),
    (hv.same_iff hold).trans (Cells.fixes_iff_not_bound ht), fun u hu hshows hnot => ?_, ?_,
    fun v r => ?_⟩
  · have hbelow : u.Below s.cells.size := hshows.every hs.closed ht
    exact hv.within hu ((Cells.fixes_iff_not_bound hbelow).mpr hnot) hshows
  · exact value_of_fixes supply' fun v hw => hcomp.unbound.mpr (hv.fixes v hw)
  · rw [Store.derefs_iff, Store.derefs_iff]
    exact hcomp.leads v r

/-- Let `X1` be bound to a node `g(X0)`, and `X2` to `X1`. The value of `f(X2, h(X0), k(X1))` has
new nodes for `f` and `k` and shares the other two. -/
theorem value_shares_nested :
    let g : Term := .compound 3 ⟨"g", .interned 1⟩ (.var 0) []
    let h : Term := .compound 1 ⟨"h", .interned 2⟩ (.var 0) []
    let t : Term := .compound 0 ⟨"f", .interned 0⟩ (.var 2)
      [h, .compound 2 ⟨"k", .interned 3⟩ (.var 1) []]
    let result : Term := .compound 5 ⟨"f", .interned 0⟩ g
      [h, .compound 4 ⟨"k", .interned 3⟩ g []]
    let s : Store := { cells := #[none, some g, some (.var 1)] }
    ∃ s', Settles (fun fuel => value fuel t ⟨4⟩ s) ((result, ⟨6⟩), s') ∧
      Term.Within g result ∧ Term.Within h result ∧
      Settles (fun fuel => value fuel result ⟨6⟩ s') ((result, ⟨6⟩), s') ∧
      ∀ v r, s'.Derefs v r ↔ s.Derefs v r := by
  intro g h t result s
  have hbound : ∀ v b, s.cells.Bound v b → v = 1 ∧ b = g ∨ v = 2 ∧ b = .var 1 := fun v b hv => by
    match v, hv with
    | 1, hv => cases hv; exact .inl ⟨rfl, rfl⟩
    | 2, hv => cases hv; exact .inr ⟨rfl, rfl⟩
  have hs : s.cells.Proper := Cells.proper_of_below fun v b hv => by
    obtain ⟨rfl, rfl⟩ | ⟨rfl, rfl⟩ := hbound v b hv <;> simp [g, Term.Bounded]
  let supply : Supply := ⟨4⟩
  have hcells : s.cells.Every (Term.Dated supply.next) := fun v b hv => by
    obtain ⟨-, rfl⟩ | ⟨-, rfl⟩ := hbound v b hv <;> simp [g, supply, Term.Dated]
  have ht : t.Below s.cells.size := by simp [t, h, s, Term.Bounded]
  have hold : t.Older supply.next := by simp [t, h, supply, Term.Dated]
  obtain ⟨_, _, s', hsettles, -, -, -, hkept, hagain, hderefs⟩ := value_shares hs hcells ht hold
  have hrun : Settles (fun fuel => value fuel t supply s)
      ((result, ⟨6⟩), { cells := #[none, some g, some g], journal := [.bind 2 g] }) :=
    .of_add 10 fun _ => rfl
  cases hsettles.unique hrun
  -- the one variable of the two nodes is not bound
  have hfree : ∀ i f v b, s.cells.Bound v b →
      ¬Term.Within (.var v) (.compound i f (.var 0) []) := by
    intro i f v b hv hw
    have hzero : (Term.compound i f (.var 0) []).Below 1 := by simp [Term.Bounded]
    obtain ⟨rfl, -⟩ | ⟨rfl, -⟩ := hbound v b hv <;> exact absurd (hzero.lt hw) (by decide)
  have hk : Term.Within (.var 1) t :=
    .arg (x := .compound 2 ⟨"k", .interned 3⟩ (.var 1) []) (by simp [t, Term.arguments])
      (.arg (List.mem_singleton_self _) .here)
  have hg : s.cells.Shows g t := .bound hk rfl (.within .here)
  have hh : s.cells.Shows h t := .within (.arg (by simp [t, Term.arguments]) .here)
  exact ⟨_, hsettles, hkept g rfl hg (hfree _ _), hkept h rfl hh (hfree _ _), hagain, hderefs⟩

end Horn
