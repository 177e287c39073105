import Mathlib.Data.List.Zip
import Horn.Proofs.Guard

/-!
# Unification is symmetric

Unifying a pair of terms and unifying it with its sides exchanged come to the same, down to the
error. Of two unbound variables the left one is bound, so the two runs choose different
representatives, and all that they dereference afterwards may differ. What stays is that their
stores are equivalent: the moves that the two runs make for a pair are mirror images of each other,
and mirror images keep stores equivalent.

- `Move.Mirrors`: moves for a pair and for the pair with its sides exchanged.
- `Move.mirrors_of_counterparts`: in equivalent stores the two runs make such moves.
- `Mirrored`: the two runs end alike, in equivalent stores.
- `unifyPairs_mirrored`, `unify_symmetric`: they do, for a list of pairs and for two terms.
-/

namespace Horn

variable {s s₁ s₂ u u₁ u₂ : Store} {a a' b b' ra rb ra' rb' t t' : Term} {v v' : Nat}
  {rest more : List (Term × Term)} {cells cells' left right : Cells}

theorem Binary64.eqv_comm (x y : Binary64) : x.eqv y = y.eqv x := by
  rw [Binary64.eqv, Binary64.eqv, Bool.and_comm (!x.isNaN), Bool.beq_comm]

/-- Leaves are compared without regard to their sides, and so is the reason why they differ. -/
theorem leavesAgree_comm (a b : Term) : leavesAgree a b = leavesAgree b a := by
  cases a <;> cases b <;> try rfl
  case atom.atom x y => exact Bool.beq_comm
  case int.int m n => exact Bool.beq_comm
  case float.float x y => exact Binary64.eqv_comm x y
  case box.box b c => exact Bool.beq_comm

theorem mismatch_comm (a b : Term) : mismatch a b = mismatch b a := by
  cases a <;> cases b <;> rfl

/-- The pairs with their sides exchanged. -/
def swapped (pairs : List (Term × Term)) : List (Term × Term) := pairs.map Prod.swap

@[simp]
theorem swapped_cons : swapped ((a, b) :: rest) = (b, a) :: swapped rest := rfl

@[simp]
theorem swapped_append : swapped (more ++ rest) = swapped more ++ swapped rest :=
  List.map_append

/-! ## Moves and their mirror images -/

namespace Move

open Cells (Counterparts)

/-- The moves of two runs for one pair, when the second run has its sides exchanged: variables that
are bound are counterparts, and of two variables each run binds another one. -/
inductive Mirrors (cells cells' : Cells) : Move → Move → Prop where
  | pairs (more : List (Term × Term)) : Mirrors cells cells' (.pairs more) (.pairs (swapped more))
  | fail (e : UnifyError) : Mirrors cells cells' (.fail e) (.fail e)
  | term {x x' : Nat} {t : Term} (hx : Counterparts cells cells' (.var x) (.var x'))
      (ht : t.kind ≠ .var) : Mirrors cells cells' (.bind x t) (.bind x' t)
  | vars {x x' y y' : Nat} (hx : Counterparts cells cells' (.var x) (.var x'))
      (hy : Counterparts cells cells' (.var y) (.var y')) (hxy : x ≠ y) (hxy' : x' ≠ y') :
      Mirrors cells cells' (.bind x (.var y)) (.bind y' (.var x'))

/-- Nodes and leaves are compared without regard to their sides. -/
theorem mirrors_terms (ha : a.kind ≠ .var) (hb : b.kind ≠ .var) :
    Mirrors cells cells' (ofRoots a b) (ofRoots b a) := by
  by_cases hleaf : a.kind ≠ .compound ∨ b.kind ≠ .compound
  · rw [ofRoots_leaves ha hb hleaf, ofRoots_leaves hb ha hleaf.symm, leavesAgree_comm b a,
      mismatch_comm b a]
    split
    · exact .pairs []
    · exact .fail _
  · obtain ⟨hnode, hnode'⟩ : a.kind = .compound ∧ b.kind = .compound := by simpa using hleaf
    cases a with
    | compound i f x xs =>
      cases b with
      | compound j g y ys =>
        by_cases hfunctor : xs.length = ys.length ∧ f.name = g.name
        · obtain ⟨hlength, hname⟩ := hfunctor
          by_cases hij : i = j
          · subst hij
            rw [ofRoots_shared hname hlength, ofRoots_shared hname.symm hlength.symm]
            exact .pairs []
          · have hzip : swapped ((x :: xs).zip (y :: ys)) = (y :: ys).zip (x :: xs) :=
              List.zip_swap _ _
            rw [ofRoots_nodes hij hname hlength,
              ofRoots_nodes (Ne.symm hij) hname.symm hlength.symm, ← hzip]
            exact .pairs _
        · rw [ofRoots_functors hfunctor,
            ofRoots_functors fun h => hfunctor ⟨h.1.symm, h.2.symm⟩]
          exact .fail _
      | _ => cases hnode'
    | _ => cases hnode

/-- **In equivalent stores the two runs make mirror images of moves.** -/
theorem mirrors_of_counterparts (ha : Counterparts cells cells' a a')
    (hb : Counterparts cells cells' b b') :
    Mirrors cells cells' (ofRoots a b) (ofRoots b' a') := by
  have hne : ∀ {c : Term}, c.kind ≠ .var → ∀ x, c ≠ .var x := fun hc _ h =>
    hc (congrArg Term.kind h)
  cases ha with
  | term ha =>
    cases hb with
    | term hb => exact mirrors_terms ha hb
    | vars hy hy' hclass =>
      rw [ofRoots_var_right ha, ofRoots_var (hne ha _)]
      exact .term (.vars hy hy' hclass) ha
  | @vars x x' hx hx' hclassx =>
    cases hb with
    | term hb =>
      rw [ofRoots_var (hne hb _), ofRoots_var_right hb]
      exact .term (.vars hx hx' hclassx) hb
    | @vars y y' hy hy' hclassy =>
      -- counterparts of different variables are different
      have hiff : x = y ↔ x' = y' := by
        constructor
        · rintro rfl
          exact Term.var.inj (((hclassy x').mpr ((hclassx x').mp hx'.leads)).unique hx'.leads).symm
        · rintro rfl
          exact Term.var.inj (((hclassy x).mp ((hclassx x).mpr hx.leads)).unique hx.leads).symm
      by_cases hxy : x = y
      · have hxy' := hiff.mp hxy
        subst hxy hxy'
        simp only [ofRoots, beq_self_eq_true, if_true]
        exact .pairs []
      · have hxy' := mt hiff.mpr hxy
        rw [ofRoots_var fun h => hxy (Term.var.inj h).symm,
          ofRoots_var fun h => hxy' (Term.var.inj h)]
        exact .vars (.vars hx hx' hclassx) (.vars hy hy' hclassy) hxy hxy'

namespace Mirrors

/-- What mirrors a move does so in any stores with the same ends. -/
theorem sameEnds {m m' : Move} (h : Mirrors cells cells' m m') (hl : cells.SameEnds left)
    (hr : cells'.SameEnds right) : Mirrors left right m m' := by
  cases h with
  | pairs more => exact .pairs more
  | fail e => exact .fail e
  | term hx ht => exact .term (hx.sameEnds hl hr) ht
  | vars hx hy hxy hxy' => exact .vars (hx.sameEnds hl hr) (hy.sameEnds hl hr) hxy hxy'

/-- Bindings that are mirror images keep stores equivalent. -/
theorem bound (hm : Mirrors cells cells' (.bind v t) (.bind v' t'))
    (h : cells.Equivalent cells') :
    Cells.Equivalent (cells.setIfInBounds v (some t)) (cells'.setIfInBounds v' (some t')) := by
  cases hm with
  | term hx ht => exact h.set_term hx ht
  | vars hx hy hxy _ => exact h.set_var hx hy hxy

/-- The occurs check fails in both runs or in none. -/
theorem occurs_iff {ν : Type} {r : Reading ν} {τ τ' : Nat → Tree ν}
    (hm : Mirrors cells cells' (.bind v t) (.bind v' t')) (h : cells.Equivalent cells')
    (hp : cells.Proper) (hτ : cells.Resolves r id τ) (hτ' : cells'.Resolves r id τ')
    (ht : t.Below cells.size) : (t'.under r τ').Occurs v' ↔ (t.under r τ).Occurs v := by
  cases hm with
  | term hx _ => exact h.occurs_iff hp hτ hτ' hx ht
  | vars hx hy hxy hxy' =>
    -- an unbound variable occurs in no other one
    cases hx with
    | term hkind => exact absurd rfl hkind
    | vars _ hx' _ =>
      cases hy with
      | term hkind => exact absurd rfl hkind
      | vars hy _ _ =>
        have hleft : ¬(Tree.var _ : Tree ν).Occurs _ := mt Tree.occurs_var.mp hxy
        have hright : ¬(Tree.var _ : Tree ν).Occurs _ := mt Tree.occurs_var.mp (Ne.symm hxy')
        rw [Term.under_var, Term.under_var, hτ.unbound _ hy, hτ'.unbound _ hx']
        exact iff_of_false hright hleft

end Mirrors

end Move

/-! ## The two runs -/

/-- The terms of a pair have counterparts for roots in equivalent stores. -/
theorem Reduces.exists_mirror (h : Reduces s a b ra rb s₁) (hu : s.cells.Equivalent u.cells) :
    ∃ ra' rb' u₁, Reduces u b a rb' ra' u₁ ∧ s₁.cells.Equivalent u₁.cells ∧
      Move.Mirrors s₁.cells u₁.cells (Move.ofRoots ra rb) (Move.ofRoots rb' ra') := by
  obtain ⟨rb', ra', u₁, h'⟩ := exists_reduces (hu.proper h.proper) (hu.size ▸ h.belowRight)
    (hu.size ▸ h.belowLeft)
  have ha := hu.counterparts h.rootLeft h'.rootRight
  have hb := hu.counterparts h.rootRight h'.rootLeft
  exact ⟨ra', rb', u₁, h', hu.compressed h.compressed h'.compressed,
    (Move.mirrors_of_counterparts ha hb).sameEnds h.compressed.sameEnds h'.compressed.sameEnds⟩

/-- With the occurs check, the run for the pairs from `s` and the run for the pairs with their sides
exchanged from `u` end alike, in equivalent stores. -/
def Mirrored (s u : Store) (pairs : List (Term × Term)) : Prop :=
  ∃ result s' u', Settles (fun fuel => unifyPairs true fuel pairs s) (result, s') ∧
    Settles (fun fuel => unifyPairs true fuel (swapped pairs) u) (result, u') ∧
      s'.cells.Equivalent u'.cells

namespace Mirrored

theorem nil (hu : s.cells.Equivalent u.cells) : Mirrored s u [] := by
  refine ⟨.ok (), s, u, .of_forall fun fuel => ?_, .of_forall fun fuel => ?_, hu⟩ <;>
    cases fuel <;> rfl

section Steps

variable (h : Reduces s a b ra rb s₁) (h' : Reduces u b a rb' ra' u₁)
include h h'

/-- Both directions go on with the same pairs. -/
theorem pairs (hm : Move.ofRoots ra rb = .pairs more)
    (hm' : Move.ofRoots rb' ra' = .pairs (swapped more)) (hrest : Mirrored s₁ u₁ (more ++ rest)) :
    Mirrored s u ((a, b) :: rest) := by
  obtain ⟨result, s', u', hs, hu, hends⟩ := hrest
  rw [swapped_append] at hu
  refine ⟨result, s', u', .of_succ ?_, .of_succ ?_, hends⟩
  · simpa only [h.run_pairs hm] using hs
  · simpa only [swapped_cons, h'.run_pairs hm'] using hu

/-- Both directions fail. -/
theorem fail {e : UnifyError} (hm : Move.ofRoots ra rb = .fail e)
    (hm' : Move.ofRoots rb' ra' = .fail e) (hends : s₁.cells.Equivalent u₁.cells) :
    Mirrored s u ((a, b) :: rest) :=
  ⟨.error e, s₁, u₁, .of_succ (.of_forall fun _ => h.run_fail hm),
    .of_succ (.of_forall fun _ => h'.run_fail hm'), hends⟩

/-- The occurs check fails in both runs, or both go on after they have bound a variable. -/
theorem bind (hm : Move.ofRoots ra rb = .bind v t) (hm' : Move.ofRoots rb' ra' = .bind v' t')
    (hmirrors : Move.Mirrors s₁.cells u₁.cells (.bind v t) (.bind v' t'))
    (hequiv : s₁.cells.Equivalent u₁.cells)
    (hnext : ∀ s₂ u₂ : Store, s₁.cells.Compressed s₂.cells → (s₂.bound v t).cells.Proper →
      (s₂.bound v t).cells.Equivalent (u₂.bound v' t').cells →
        Mirrored (s₂.bound v t) (u₂.bound v' t') rest) :
    Mirrored s u ((a, b) :: rest) := by
  obtain ⟨hv, hend, hbelow, -⟩ := h.bind hm
  obtain ⟨hv', -, hbelow', -⟩ := h'.bind hm'
  obtain ⟨τ, hτ⟩ := h.proper₁.acyclic.exists_resolves Reading.exact id
  obtain ⟨τ', hτ'⟩ := h'.proper₁.acyclic.exists_resolves Reading.exact id
  have hiff := hmirrors.occurs_iff hequiv h.proper₁ hτ hτ' hbelow
  obtain ⟨s₂, hcomp, hs⟩ := bindVar_checked hτ h.proper₁ hv hbelow
  obtain ⟨u₂, hcomp', hu⟩ := bindVar_checked hτ' h'.proper₁ hv' hbelow'
  have hequiv₂ := hequiv.compressed hcomp hcomp'
  rcases hs with ⟨hocc, hrun⟩ | ⟨hocc, hrun⟩
  · have hrun' := (hu.resolve_right fun hright => hright.1 (hiff.mpr hocc)).2
    exact ⟨.error .occursCheck, s₂, u₂, .of_succ (hrun.map fun fuel => h.run_bind_fail hm),
      .of_succ (hrun'.map fun fuel => h'.run_bind_fail hm'), hequiv₂⟩
  · have hrun' := (hu.resolve_left fun hleft => hocc (hiff.mp hleft.1)).2
    have hproper : (s₂.bound v t).cells.Proper :=
      (hcomp.proper h.proper₁).set (hcomp.unbound.mpr hv)
        (fun w hw => hcomp.unbound.mpr (hend w hw)) (hcomp.size ▸ hbelow)
        ((hcomp.resolves h.proper₁.rooted).mpr hτ) hocc
    obtain ⟨result, s', u', hs', hu', hends⟩ := hnext s₂ u₂ hcomp hproper
      ((hmirrors.sameEnds hcomp.sameEnds hcomp'.sameEnds).bound hequiv₂)
    exact ⟨result, s', u', .of_succ (hrun.and_then hs' fun fuel => h.run_bind hm),
      .of_succ (hrun'.and_then hu' fun fuel => h'.run_bind hm'), hends⟩

end Steps

end Mirrored

/-- **The two runs end alike.** The induction is on the moves of the first run, of which the second
one makes the mirror images. -/
theorem unifyPairs_mirrored {pairs : List (Term × Term)} (hs : s.cells.Proper)
    (hpairs : PairsBelow s.cells.size pairs) (hu : s.cells.Equivalent u.cells) :
    Mirrored s u pairs := by
  revert u
  refine unify_induction
    (motive := fun s pairs => ∀ {u : Store}, s.cells.Equivalent u.cells → Mirrored s u pairs)
    (fun s _ u hu => .nil hu) (fun s a b rest ra rb s₁ h _ ihpairs ihbind u hu => ?_) hs hpairs
  obtain ⟨ra', rb', u₁, h', hequiv, hmirrors⟩ := h.exists_mirror hu
  generalize hm : Move.ofRoots ra rb = m, hm' : Move.ofRoots rb' ra' = m' at hmirrors
  cases m with
  | pairs more =>
    cases hmirrors
    exact .pairs h h' hm hm' (ihpairs more hm hequiv)
  | fail e =>
    cases hmirrors
    exact .fail h h' hm hm' hequiv
  | bind v t =>
    obtain ⟨v', t', rfl⟩ : ∃ v' t', m' = .bind v' t' := by
      cases hmirrors <;> exact ⟨_, _, rfl⟩
    exact .bind h h' hm hm' hmirrors hequiv fun s₂ u₂ hcomp hproper hequiv₂ =>
      ihbind v t s₂ hm hcomp hproper hequiv₂

/-- **Unification is symmetric, down to the error.** With the occurs check, both orders of the terms
end with the same outcome, in stores with the same aliases in which every variable leads to the same
node or leaf, or to none. Without the check the same is true if the check would not fail. -/
theorem unify_symmetric (hs : s.cells.Proper) (ha : a.Below s.cells.size)
    (hb : b.Below s.cells.size) :
    ∃ result s₁ s₂, Settles (fun fuel => unify fuel true a b s) (result, s₁) ∧
      Settles (fun fuel => unify fuel true b a s) (result, s₂) ∧
      s₁.cells.Equivalent s₂.cells ∧
      (result ≠ .error .occursCheck → ∃ u₁ u₂,
        Settles (fun fuel => unify fuel false a b s) (result, u₁) ∧
          Settles (fun fuel => unify fuel false b a s) (result, u₂) ∧
          u₁.cells.Equivalent u₂.cells) := by
  have hbelow := pairsBelow_single ha hb
  have hbelow' := pairsBelow_single hb ha
  obtain ⟨result, s₁, s₂, hrun, hrun', hequiv⟩ := unifyPairs_mirrored hs hbelow (.refl _)
  refine ⟨result, s₁, s₂, hrun, hrun', hequiv, fun hresult => ?_⟩
  have hsame := (Cells.Compressed.refl s.cells).sameEnds
  -- each of the checked runs is followed by an unchecked one
  obtain ⟨_, _, hchecked, hguard⟩ := unifyPairs_guarded hs hbelow hsame
  cases hchecked.unique hrun
  obtain ⟨_, _, hchecked', hguard'⟩ := unifyPairs_guarded hs hbelow' hsame
  cases hchecked'.unique hrun'
  obtain ⟨u₁, hu₁, hends₁⟩ := hguard hresult
  obtain ⟨u₂, hu₂, hends₂⟩ := hguard' hresult
  exact ⟨u₁, u₂, hu₁, hu₂, hequiv.sameEnds hends₁ hends₂⟩

/-- The terms `f(X2, X0, 7)` and `f(X1, X1, 8)` do not unify, where `X2` is an alias of `X0`. In one
order `X0` is bound to `X1` before that is found out, in the other one `X1` to `X0`. -/
theorem unify_symmetric_aliased :
    let a : Term := .compound 0 ⟨"f", .interned 0⟩ (.var 2) [.var 0, .int 7]
    let b : Term := .compound 1 ⟨"f", .interned 0⟩ (.var 1) [.var 1, .int 8]
    let s : Store := { cells := aliasedCells }
    ∃ s₁ s₂, Settles (fun fuel => unify fuel true a b s) (.error .numberMismatch, s₁) ∧
      Settles (fun fuel => unify fuel true b a s) (.error .numberMismatch, s₂) ∧
      s₁.cells.Bound 0 (.var 1) ∧ s₂.cells.Bound 1 (.var 0) ∧ s₁.cells.Equivalent s₂.cells := by
  intro a b s
  have hs : Store.Sound Term.var 0 s := sound_aliasedCells _ _
  have ha : a.Below s.cells.size := by simp [a, s, aliasedCells, Term.Bounded]
  have hb : b.Below s.cells.size := by simp [b, s, aliasedCells, Term.Bounded]
  let forward : Store :=
    { cells := #[some (.var 1), none, some (.var 0)], journal := [.bind 0 (.var 1)] }
  let backward : Store :=
    { cells := #[none, some (.var 0), some (.var 0)], journal := [.bind 1 (.var 0)] }
  have hrun : Settles (fun fuel => unify fuel true a b s) (.error .numberMismatch, forward) :=
    .of_succ <| .of_succ <| .of_succ <| .of_succ <| .of_forall fun fuel => rfl
  have hrun' : Settles (fun fuel => unify fuel true b a s) (.error .numberMismatch, backward) :=
    .of_succ <| .of_succ <| .of_succ <| .of_succ <| .of_forall fun fuel => rfl
  obtain ⟨result, s₁, s₂, hsettles, hsettles', hequiv, -⟩ := unify_symmetric hs.proper ha hb
  cases hsettles.unique hrun
  cases hsettles'.unique hrun'
  exact ⟨forward, backward, hrun, hrun', rfl, rfl, hequiv⟩

end Horn
