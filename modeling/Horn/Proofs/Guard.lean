import Horn.Proofs.Equivalence
import Horn.Proofs.Unification

/-!
# The occurs check is a guard

The occurs check decides whether a run of unification goes on, and nothing else. The search that it
makes shortens chains, so a run with the check and one without it come to hold different cells; but
all chains keep the same ends, so both runs make the same moves until the check fails. A run in
which it does not fail is therefore followed by one without it, which ends as well.

- `Guarded`: a checked run and what an unchecked one makes of a store with the same ends.
- `unifyPairs_guarded`: every run is guarded.
- `unify_unchecked`: the statement about `unify`.
-/

namespace Horn

variable {s s₁ s₂ u u₁ : Store} {a b ra rb t : Term} {v : Nat} {rest more : List (Term × Term)}

/-- The run from `s` with the occurs check ends, and if the check does not fail, the run from `u`
without it ends in the same way, with the same ends of all chains. -/
def Guarded (s u : Store) (pairs : List (Term × Term)) : Prop :=
  ∃ result s', Settles (fun fuel => unifyPairs true fuel pairs s) (result, s') ∧
    (result ≠ .error .occursCheck → ∃ u',
      Settles (fun fuel => unifyPairs false fuel pairs u) (result, u') ∧
        s'.cells.SameEnds u'.cells)

/-- In stores with the same ends a pair has the same roots. -/
theorem Reduces.exists_sameEnds (h : Reduces s a b ra rb s₁) (hu : s.cells.SameEnds u.cells) :
    ∃ u₁, Reduces u a b ra rb u₁ ∧ s₁.cells.SameEnds u₁.cells := by
  obtain ⟨ra', rb', u₁, h'⟩ := exists_reduces (hu.equivalent.proper h.proper)
    (hu.size ▸ h.belowLeft) (hu.size ▸ h.belowRight)
  cases (hu.root.mp h'.rootLeft).unique h.rootLeft
  cases (hu.root.mp h'.rootRight).unique h.rootRight
  exact ⟨u₁, h', hu.compressed h.compressed h'.compressed⟩

namespace Guarded

theorem nil (hu : s.cells.SameEnds u.cells) : Guarded s u [] := by
  refine ⟨.ok (), s, .of_forall fun fuel => ?_, fun _ => ⟨u, .of_forall fun fuel => ?_, hu⟩⟩ <;>
    cases fuel <;> rfl

section Steps

variable (h : Reduces s a b ra rb s₁) (h' : Reduces u a b ra rb u₁)
include h h'

/-- The guarded run and the other one go on with the same pairs. -/
theorem pairs (hm : Move.ofRoots ra rb = .pairs more) (hrest : Guarded s₁ u₁ (more ++ rest)) :
    Guarded s u ((a, b) :: rest) := by
  obtain ⟨result, s', hchecked, hguard⟩ := hrest
  refine ⟨result, s', .of_succ ?_, fun hresult => ?_⟩
  · simpa only [h.run_pairs hm] using hchecked
  · obtain ⟨u', hunchecked, hends⟩ := hguard hresult
    refine ⟨u', .of_succ ?_, hends⟩
    simpa only [h'.run_pairs hm] using hunchecked

theorem fail {e : UnifyError} (hm : Move.ofRoots ra rb = .fail e)
    (hu : s₁.cells.SameEnds u₁.cells) : Guarded s u ((a, b) :: rest) :=
  ⟨.error e, s₁, .of_succ (.of_forall fun _ => h.run_fail hm), fun _ =>
    ⟨u₁, .of_succ (.of_forall fun _ => h'.run_fail hm), hu⟩⟩

/-- The check fails, or it only shortens chains before the variable is bound. -/
theorem bind (hm : Move.ofRoots ra rb = .bind v t) (hu : s₁.cells.SameEnds u₁.cells)
    (hnext : ∀ s₂ : Store, s₁.cells.Compressed s₂.cells → (s₂.bound v t).cells.Proper →
      (s₂.bound v t).cells.SameEnds (u₁.bound v t).cells →
        Guarded (s₂.bound v t) (u₁.bound v t) rest) :
    Guarded s u ((a, b) :: rest) := by
  obtain ⟨hv, hend, hbelow, hne⟩ := h.bind hm
  obtain ⟨τ, hτ⟩ := h.proper₁.acyclic.exists_resolves Reading.exact id
  -- if the check fails the guarded run ends, and nothing is said of the other one
  obtain ⟨s₂, hcomp, ⟨hocc, hrun⟩ | ⟨hocc, hrun⟩⟩ := bindVar_checked hτ h.proper₁ hv hbelow
  · exact ⟨.error .occursCheck, s₂, .of_succ (hrun.map fun fuel => h.run_bind_fail hm),
      fun hresult => absurd rfl hresult⟩
  have hv₂ : s₂.cells.Unbound v := hcomp.unbound.mpr hv
  have hend₂ : s₂.cells.IsEnd t := fun w hw => hcomp.unbound.mpr (hend w hw)
  have hproper : (s₂.bound v t).cells.Proper := (hcomp.proper h.proper₁).set hv₂ hend₂
    (hcomp.size ▸ hbelow) ((hcomp.resolves h.proper₁.rooted).mpr hτ) hocc
  have hends : (s₂.bound v t).cells.SameEnds (u₁.bound v t).cells :=
    (hu.compressed hcomp (.refl _)).set hv₂ hend₂ hne
  obtain ⟨result, s', hchecked, hguard⟩ := hnext s₂ hcomp hproper hends
  refine ⟨result, s', .of_succ (hrun.and_then hchecked fun fuel => h.run_bind hm),
    fun hresult => ?_⟩
  obtain ⟨u', hunchecked, hends'⟩ := hguard hresult
  refine ⟨u', .of_succ ?_, hends'⟩
  simpa only [h'.run_bind hm (bindVar_unchecked _ (h'.bind hm).1)] using hunchecked

end Steps

end Guarded

/-- **Every run is guarded.** The induction is on the moves of the checked run, which the unchecked
one makes as well. -/
theorem unifyPairs_guarded {pairs : List (Term × Term)} (hs : s.cells.Proper)
    (hpairs : PairsBelow s.cells.size pairs) (hu : s.cells.SameEnds u.cells) :
    Guarded s u pairs := by
  revert u
  refine unify_induction
    (motive := fun s pairs => ∀ {u : Store}, s.cells.SameEnds u.cells → Guarded s u pairs)
    (fun s _ u hu => .nil hu) (fun s a b rest ra rb s₁ h _ ihpairs ihbind u hu => ?_) hs hpairs
  obtain ⟨u₁, h', hu₁⟩ := h.exists_sameEnds hu
  cases hm : Move.ofRoots ra rb with
  | pairs more => exact .pairs h h' hm (ihpairs more hm hu₁)
  | fail e => exact .fail h h' hm hu₁
  | bind v t =>
    exact .bind h h' hm hu₁ fun s₂ hcomp hproper hends => ihbind v t s₂ hm hcomp hproper hends

/-- In two stores with the same ends a variable is dereferenced to the same term. -/
theorem Cells.SameEnds.deref (h : s.cells.SameEnds u.cells) (hs : s.cells.Rooted)
    (hv : v < s.cells.size) :
    ∃ r s' u', deref (.var v) s = .ok (r, s') ∧ deref (.var v) u = .ok (r, u') := by
  obtain ⟨r, hr⟩ := hs v hv
  obtain ⟨s', hrun, -⟩ := deref_shortens (Cells.root_var.mpr hr)
  obtain ⟨u', hrun', -⟩ := deref_shortens (Cells.root_var.mpr ((h.leads v r).mpr hr))
  exact ⟨r, s', u', hrun, hrun'⟩

/-- **The occurs check is only a guard.** Unification with the check ends. If the check does not
fail, unification without it ends as well, with the same outcome. The same variables are left
unbound, and every variable is dereferenced to the same term, so that the two stores differ at most
in how chains get to their ends. -/
theorem unify_unchecked (hs : s.cells.Proper) (ha : a.Below s.cells.size)
    (hb : b.Below s.cells.size) :
    ∃ result s', Settles (fun fuel => unify fuel true a b s) (result, s') ∧
      (result ≠ .error .occursCheck → ∃ u',
        Settles (fun fuel => unify fuel false a b s) (result, u') ∧
          s'.cells.size = s.cells.size ∧ u'.cells.size = s.cells.size ∧
          (∀ v, u'.cells.Unbound v ↔ s'.cells.Unbound v) ∧
          (∀ v < s.cells.size, ∃ r s₁ u₁,
            deref (.var v) s' = .ok (r, s₁) ∧ deref (.var v) u' = .ok (r, u₁)) ∧
          s'.cells.SameEnds u'.cells) := by
  have hbelow := pairsBelow_single ha hb
  obtain ⟨result, s', hchecked, hguard⟩ :=
    unifyPairs_guarded hs hbelow (Cells.Compressed.refl _).sameEnds
  obtain ⟨result', s'', hsettles, h⟩ := unifyPairs_settles hs hbelow (.inl rfl)
  cases hsettles.unique hchecked
  refine ⟨result, s', hchecked, fun hresult => ?_⟩
  obtain ⟨u', hunchecked, hends⟩ := hguard hresult
  exact ⟨u', hunchecked, h.size, hends.size.trans h.size, fun v => hends.unbound,
    fun v hv => hends.deref h.proper.rooted (h.size ▸ hv), hends⟩

/-- The terms `f(X0, X3, 7)` and `f(X1, g(X2), 8)` do not unify, where `X2` is an alias of `X0`.
Before that is found out `X0` is bound to `X1` and `X3` to `g(X2)`, and the check on `X3` has
shortened the chain of `X2`. -/
theorem unify_unchecked_shortening :
    let g : Term := .compound 1 ⟨"g", .interned 1⟩ (.var 2) []
    let a : Term := .compound 0 ⟨"f", .interned 0⟩ (.var 0) [.var 3, .int 7]
    let b : Term := .compound 2 ⟨"f", .interned 0⟩ (.var 1) [g, .int 8]
    let s : Store := { cells := #[none, none, some (.var 0), none] }
    ∃ s' u', Settles (fun fuel => unify fuel true a b s) (.error .numberMismatch, s') ∧
      Settles (fun fuel => unify fuel false a b s) (.error .numberMismatch, u') ∧
      s'.cells.Bound 2 (.var 1) ∧ u'.cells.Bound 2 (.var 0) ∧
      ∀ v < 4, ∃ r s₁ u₁,
        deref (.var v) s' = .ok (r, s₁) ∧ deref (.var v) u' = .ok (r, u₁) := by
  intro g a b s
  have hs : s.cells.Proper := Cells.proper_of_below fun v t hv => by
    match v, hv with
    | 0, hv => cases hv
    | 1, hv => cases hv
    | 2, hv => cases hv; simp [Term.Bounded]
    | 3, hv => cases hv
    | v + 4, hv => cases hv
  have ha : a.Below s.cells.size := by simp [a, s, Term.Bounded]
  have hb : b.Below s.cells.size := by simp [b, g, s, Term.Bounded]
  let checked : Store :=
    { cells := #[some (.var 1), none, some (.var 1), some g]
      journal := [.bind 3 g, .bind 2 (.var 1), .bind 0 (.var 1)] }
  let unchecked : Store :=
    { cells := #[some (.var 1), none, some (.var 0), some g]
      journal := [.bind 3 g, .bind 0 (.var 1)] }
  obtain ⟨result, s', hchecked, hguard⟩ := unify_unchecked hs ha hb
  have hrun : Settles (fun fuel => unify fuel true a b s) (.error .numberMismatch, checked) :=
    .of_succ <| .of_succ <| .of_succ <| .of_succ <| .of_succ <| .of_succ <| .of_forall fun _ => rfl
  cases hchecked.unique hrun
  obtain ⟨u', hunchecked, -, -, -, hderef, -⟩ := hguard (by simp)
  have hrun' : Settles (fun fuel => unify fuel false a b s) (.error .numberMismatch, unchecked) :=
    .of_succ <| .of_succ <| .of_succ <| .of_succ <| .of_succ <| .of_succ <| .of_forall fun _ => rfl
  cases hunchecked.unique hrun'
  exact ⟨checked, unchecked, hrun, hrun', rfl, rfl, hderef⟩

end Horn
