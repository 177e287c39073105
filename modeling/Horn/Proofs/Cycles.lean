import Horn.Proofs.OccursCheck
import Horn.Proofs.Values

/-!
# Cyclic bindings

Binding a variable closes a cycle if and only if the variable shows in what it is bound to, once
the bindings there are followed. The search for a variable finds out whether it does, so that the
bindings stay acyclic if and only if the search fails.

- `Cells.acyclic_set_iff`: which bindings close a cycle.
- `Cells.Resolves.occurs_iff`: what shows in a term is what occurs in the resolved term.
- `containsVar_decides`: what the search decides, and what it leaves alone.
-/

namespace Horn

variable {ν : Type} {ρ : Reading ν} {τ : Nat → Tree ν} {cells : Cells} {k v w : Nat}
  {t u result : Term}

namespace Cells

/-- What shows in a variable of a term shows in the term. -/
theorem Shows.of_var (hw : Term.Within (.var w) t) (h : cells.Shows u (.var w)) :
    cells.Shows u t := by
  cases h with
  | within hu => exact .within (hu.trans hw)
  | bound hx hbound h =>
    cases hx.eq_of_arguments_nil rfl
    exact .bound hw hbound h

/-- **A binding closes a cycle** if and only if the variable shows in what it is bound to. -/
theorem acyclic_set_iff (h : cells.Acyclic) (hv : cells.Unbound v) :
    Acyclic (cells.setIfInBounds v (some t)) ↔ ¬cells.Shows (.var v) t := by
  have hset : ∀ x b, Bound (cells.setIfInBounds v (some t)) x b ↔
      if x = v then b = t else cells.Bound x b := fun x b => bound_set hv.lt
  have hnew : Bound (cells.setIfInBounds v (some t)) v t := (hset v t).mpr (by rw [if_pos rfl])
  constructor
  -- from a variable whose term shows `v`, the new bindings lead back to `v` and on from there
  · intro hacyclic hshows
    have hnone : ∀ x b, Bound (cells.setIfInBounds v (some t)) x b →
        ¬cells.Shows (.var v) b := by
      intro x
      induction x using hacyclic.induction with
      | _ x ih =>
        intro b hx hb
        cases hb with
        | within hw => exact ih v ⟨b, hx, hw⟩ t hnew hshows
        | @bound w _ c hw hbound hc =>
          have hne : w ≠ v := fun hwv => hbound.not_unbound (hwv ▸ hv)
          exact ih w ⟨b, hx, hw⟩ c ((hset w c).mpr (by rwa [if_neg hne])) hc
    exact hnone v t hnew hshows
  · intro hnot
    -- variables that do not lead to `v` use what they used before
    have hother : ∀ x, ¬cells.Shows (.var v) (.var x) →
        Acc (fun w x => Uses (cells.setIfInBounds v (some t)) x w) x := by
      intro x
      induction x using h.induction with
      | _ x ih =>
        intro hx
        have hne : x ≠ v := fun hxv => hx (.within (hxv ▸ .here))
        refine ⟨_, fun w ⟨b, hb, hw⟩ => ?_⟩
        rw [hset, if_neg hne] at hb
        exact ih w ⟨b, hb, hw⟩ fun hshows => hx (.bound .here hb (hshows.of_var hw))
    have hself : Acc (fun w x => Uses (cells.setIfInBounds v (some t)) x w) v := by
      refine ⟨_, fun w ⟨b, hb, hw⟩ => ?_⟩
      rw [hset, if_pos rfl] at hb
      subst hb
      exact hother w fun hshows => hnot (hshows.of_var hw)
    refine ⟨fun x => ?_⟩
    induction x using h.induction with
    | _ x ih =>
      by_cases hxv : x = v
      · exact hxv ▸ hself
      · refine ⟨_, fun w ⟨b, hb, hw⟩ => ?_⟩
        rw [hset, if_neg hxv] at hb
        exact ih w ⟨b, hb, hw⟩

/-- What occurs in the resolved terms are the unbound variables that show in the terms. -/
theorem Resolves.occurs_iff (hτ : cells.Resolves ρ id τ) (hs : cells.Proper)
    (ht : t.Below cells.size) :
    (t.under ρ τ).Occurs v ↔ cells.Unbound v ∧ cells.Shows (.var v) t := by
  have hvar : ∀ w, w < cells.size → (τ w).Occurs v →
      cells.Unbound v ∧ cells.Shows (.var v) (.var w) := by
    intro w
    induction w using hs.acyclic.induction with
    | _ w ih =>
      intro hw hocc
      rcases bound_or_unbound hw with ⟨b, hb⟩ | hfree
      · rw [hτ.solves w b hb, Term.occurs_under] at hocc
        obtain ⟨x, hx, hocc⟩ := hocc
        obtain ⟨hunbound, hshows⟩ := ih x ⟨b, hb, hx⟩ (Term.Below.lt (hs.closed w b hb) hx) hocc
        exact ⟨hunbound, .bound .here hb (hshows.of_var hx)⟩
      · rw [hτ.unbound w hfree] at hocc
        cases hocc
        exact ⟨hfree, .within .here⟩
  constructor
  · intro hocc
    obtain ⟨w, hw, hocc⟩ := Term.occurs_under.mp hocc
    obtain ⟨hunbound, hshows⟩ := hvar w (ht.lt hw) hocc
    exact ⟨hunbound, hshows.of_var hw⟩
  · rintro ⟨hunbound, hshows⟩
    induction hshows with
    | within hw =>
      refine Term.occurs_under.mpr ⟨v, hw, ?_⟩
      rw [hτ.unbound v hunbound]
      exact .here
    | @bound w _ b hw hbound _ ih =>
      refine Term.occurs_under.mpr ⟨w, hw, ?_⟩
      rw [hτ.solves w b hbound]
      exact ih (hs.closed w b hbound)

/-- A binding closes a cycle if and only if the variable occurs in the resolved term. -/
theorem Resolves.acyclic_set_iff (hτ : cells.Resolves ρ id τ) (hs : cells.Proper)
    (hv : cells.Unbound v) (ht : t.Below cells.size) :
    Acyclic (cells.setIfInBounds v (some t)) ↔ ¬(t.under ρ τ).Occurs v := by
  rw [hτ.occurs_iff hs ht, Cells.acyclic_set_iff hs.acyclic hv]
  simp [hv]

/-- The variables of a value are those of the resolved term, and they are unbound. -/
theorem Value.occurs_iff {ρ : Reading Unit} {τ : Nat → Tree Unit}
    (h : cells.Value k t result) (hτ : cells.Resolves ρ id τ) :
    (t.under ρ τ).Occurs v ↔ cells.Unbound v ∧ Term.Within (.var v) result := by
  rw [← h.under hτ, Term.occurs_under]
  constructor
  · rintro ⟨w, hw, hocc⟩
    cases hocc
    exact ⟨h.fixes v hw, hw⟩
  · rintro ⟨-, hw⟩
    exact ⟨v, hw, .here⟩

end Cells

/-- **The search for a variable decides whether a binding is cyclic.** In a proper store it ends,
whatever the term and the variable, and changes nothing that variables are dereferenced to. Before
it as after it, the variable is found if and only if it is unbound and occurs in the value of the
term; and binding it, if it is unbound, leaves the bindings acyclic if and only if it was not
found. -/
theorem containsVar_decides {s : Store} {supply : Supply} (hs : s.cells.Proper)
    (hcells : s.cells.Every (Term.Dated supply.next)) (ht : t.Below s.cells.size)
    (hold : t.Older supply.next) (v : Nat) :
    ∃ found s', Settles (fun fuel => containsVar fuel v t s) (found, s') ∧
      (∀ w r, s'.Derefs w r ↔ s.Derefs w r) ∧
      ∀ s₁, s₁ = s ∨ s₁ = s' →
        (∃ result supply' s₂,
          Settles (fun fuel => value fuel t supply s₁) ((result, supply'), s₂) ∧
          (found = true ↔ s₁.cells.Unbound v ∧ Term.Within (.var v) result)) ∧
        (s₁.cells.Unbound v →
          ∃ s₂, Store.bind v t s₁ = .ok ((), s₂) ∧ (s₂.cells.Acyclic ↔ found = false)) := by
  obtain ⟨τ, hτ⟩ := hs.acyclic.exists_resolves Reading.exact id
  obtain ⟨found, s', hsearch, hcomp, hfound⟩ :=
    searchVar_settles (v := v) hτ hs (List.forall_mem_singleton.mpr ht)
  have hocc : found = true ↔ (t.under .exact τ).Occurs v := by simpa using hfound
  refine ⟨found, s', hsearch, fun w r => ?_, fun s₁ hs₁ => ?_⟩
  · rw [Store.derefs_iff, Store.derefs_iff]
    exact hcomp.leads w r
  -- the resolved terms are the same before the search and after it
  · have hcomp₁ : s.cells.Compressed s₁.cells := by
      rcases hs₁ with rfl | rfl
      · exact .refl _
      · exact hcomp
    have hproper := hcomp₁.proper hs
    have hτ₁ := (hcomp₁.resolves hs.rooted).mpr hτ
    have hbelow : t.Below s₁.cells.size := hcomp₁.size ▸ ht
    constructor
    · obtain ⟨result, supply', s₂, hsettles, -, -, hvalue⟩ :=
        value_evaluates (k := supply.next) hproper hbelow supply
      have hv := hvalue (hcomp₁.every hcells) hold (Nat.le_refl _)
      exact ⟨result, supply', s₂, hsettles, hocc.trans (hv.occurs_iff hτ₁)⟩
    · intro hunbound
      refine ⟨s₁.bound v t, Store.bind_run t hunbound.lt, ?_⟩
      rw [← Bool.not_eq_true, hocc]
      exact hτ₁.acyclic_set_iff hproper hunbound hbelow

/-- Let `X1` be bound to `g(X0)`, `X2` to `X1`, and `X3` be unbound. In `f(X2, X1)` the search
finds `X0`, which must not be bound to it, and does not find `X3`, which may be. -/
theorem containsVar_decides_shared :
    let g : Term := .compound 1 ⟨"g", .interned 1⟩ (.var 0) []
    let t : Term := .compound 0 ⟨"f", .interned 0⟩ (.var 2) [.var 1]
    let s : Store := { cells := #[none, some g, some (.var 1), none] }
    (∃ s', Settles (fun fuel => containsVar fuel 0 t s) (true, s') ∧
      (∀ w r, s'.Derefs w r ↔ s.Derefs w r) ∧
      ∃ s₂, Store.bind 0 t s = .ok ((), s₂) ∧ ¬s₂.cells.Acyclic) ∧
    ∃ s', Settles (fun fuel => containsVar fuel 3 t s) (false, s') ∧
      (∀ w r, s'.Derefs w r ↔ s.Derefs w r) ∧
      ∃ s₂, Store.bind 3 t s = .ok ((), s₂) ∧ s₂.cells.Acyclic := by
  intro g t s
  have hbound : ∀ v b, s.cells.Bound v b → v = 1 ∧ b = g ∨ v = 2 ∧ b = .var 1 := fun v b hv => by
    match v, hv with
    | 1, hv => cases hv; exact .inl ⟨rfl, rfl⟩
    | 2, hv => cases hv; exact .inr ⟨rfl, rfl⟩
    | 3, hv => cases hv
  have hs : s.cells.Proper := Cells.proper_of_below fun v b hv => by
    obtain ⟨rfl, rfl⟩ | ⟨rfl, rfl⟩ := hbound v b hv <;> simp [g, Term.Bounded]
  let supply : Supply := ⟨2⟩
  have hcells : s.cells.Every (Term.Dated supply.next) := fun v b hv => by
    obtain ⟨-, rfl⟩ | ⟨-, rfl⟩ := hbound v b hv <;> simp [g, supply, Term.Dated]
  have ht : t.Below s.cells.size := by simp [t, s, Term.Bounded]
  have hold : t.Older supply.next := by simp [t, supply, Term.Dated]
  constructor
  · obtain ⟨found, s', hsettles, hderefs, hdecides⟩ := containsVar_decides hs hcells ht hold 0
    -- the arguments are searched from the last on, and `X1` leads to the node that holds `X0`
    have hrun : Settles (fun fuel => containsVar fuel 0 t s) (true, s) := .of_add 10 fun _ => rfl
    cases hsettles.unique hrun
    obtain ⟨s₂, hbind, hacyclic⟩ := (hdecides s (.inl rfl)).2 rfl
    exact ⟨s, hsettles, hderefs, s₂, hbind, fun h => Bool.noConfusion (hacyclic.mp h)⟩
  · obtain ⟨found, s', hsettles, hderefs, hdecides⟩ := containsVar_decides hs hcells ht hold 3
    have hrun : Settles (fun fuel => containsVar fuel 3 t s)
        (false, { cells := #[none, some g, some g, none], journal := [.bind 2 g] }) :=
      .of_add 10 fun _ => rfl
    cases hsettles.unique hrun
    obtain ⟨s₂, hbind, hacyclic⟩ := (hdecides s (.inl rfl)).2 rfl
    exact ⟨_, hsettles, hderefs, s₂, hbind, hacyclic.mpr rfl⟩

end Horn
