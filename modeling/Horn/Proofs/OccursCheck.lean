import Horn.Proofs.Solutions

/-!
# The occurs check

The search for a variable looks at a term with all bindings followed. In a proper store it ends,
and finds the variable if and only if it occurs in the tree that the term stands for; on the way it
shortens chains and does nothing else.

- `Searches`: what the search through a list of terms comes to.
- `searchVar_settles`: it does so in every proper store.
- `bindVar_checked`, `bindVar_unchecked`: binding with and without the check.
-/

namespace Horn

variable {ν : Type} {r : Reading ν} {τ : Nat → Tree ν} {s : Store} {v : Nat}

/-- The search for `v` through the terms ends. It finds the variable in the resolved terms, and
shortens chains on the way. -/
def Searches (r : Reading ν) (τ : Nat → Tree ν) (v : Nat) (ts : List Term) (s : Store) : Prop :=
  ∃ found s', Settles (fun fuel => searchVar v fuel ts s) (found, s') ∧
    s.cells.Compressed s'.cells ∧ (found = true ↔ ∃ t ∈ ts, (t.under r τ).Occurs v)

section Steps

variable {s₁ : Store} {t : Term} {ts us rest : List Term}

/-- The search goes on with other terms in which the variable occurs if it did in those before. -/
theorem Searches.of_step (hcomp : s.cells.Compressed s₁.cells)
    (hocc : (∃ u ∈ us, (u.under r τ).Occurs v) ↔ ∃ t ∈ ts, (t.under r τ).Occurs v)
    (hrun : ∀ fuel, searchVar v (fuel + 1) ts s = searchVar v fuel us s₁)
    (h : Searches r τ v us s₁) : Searches r τ v ts s := by
  obtain ⟨found, s', hsettles, hcomp', hfound⟩ := h
  refine ⟨found, s', .of_succ ?_, hcomp.trans hcomp', hfound.trans hocc⟩
  simpa only [hrun] using hsettles

/-- A term in which the variable does not occur is passed over. -/
theorem exists_occurs_cons (h : ¬(t.under r τ).Occurs v) :
    (∃ u ∈ rest, (u.under r τ).Occurs v) ↔ ∃ u ∈ t :: rest, (u.under r τ).Occurs v := by
  simp [h]

/-- In place of a node its arguments are searched, from the last to the first. -/
theorem exists_occurs_arguments {i : Nat} {f : Atom} {x : Term} {xs : List Term}
    (h : t.under r τ = (Term.compound i f x xs).under r τ) :
    (∃ u ∈ (x :: xs).reverse ++ rest, (u.under r τ).Occurs v) ↔
      ∃ u ∈ t :: rest, (u.under r τ).Occurs v := by
  have hnode : (t.under r τ).Occurs v ↔ ∃ y ∈ x :: xs, (y.under r τ).Occurs v := by
    rw [h, Term.under_compound, Tree.occurs_node]
    simp only [List.mem_map, exists_exists_and_eq_and]
  rw [List.exists_mem_cons_iff, hnode]
  simp only [List.mem_append, List.mem_reverse, or_and_right, exists_or]

/-- The arguments of a node are smaller than the node. -/
theorem sizeAll_arguments_lt {i : Nat} {f : Atom} {x : Term} {xs : List Term}
    (h : t.under r τ = (Term.compound i f x xs).under r τ) :
    Tree.sizeAll (((x :: xs).reverse ++ rest).map (Term.under r τ)) <
      Tree.sizeAll ((t :: rest).map (Term.under r τ)) := by
  rw [List.map_cons, Tree.sizeAll, h, Term.under_compound, Tree.size, List.map_append,
    Tree.sizeAll_append, List.map_reverse, Tree.sizeAll_reverse]
  omega

end Steps

/-- **The search for a variable ends**, and finds it in the resolved terms. The induction is on the
size of what is still to be searched, which bindings that are followed do not change. -/
theorem searchVar_settles (hτ : s.cells.Resolves r id τ) (hs : s.cells.Proper) {ts : List Term}
    (hts : ∀ t ∈ ts, t.Below s.cells.size) : Searches r τ v ts s := by
  generalize hn : Tree.sizeAll (ts.map (Term.under r τ)) = n
  induction n using Nat.strong_induction_on generalizing s ts with
  | _ n ih =>
    cases ts with
    | nil =>
      refine ⟨false, s, .of_forall fun fuel => ?_, .refl _, by simp⟩
      cases fuel <;> rfl
    | cons t rest =>
      have ht := hts t List.mem_cons_self
      have hrest := fun u hu => hts u (List.mem_cons_of_mem t hu)
      obtain ⟨root, hroot⟩ := hs.rooted.root ht
      obtain ⟨s₁, hderef, hcomp⟩ := deref_run hroot
      have hunder : t.under r τ = root.under r τ := hτ.solves.root hroot
      -- dereferencing changes neither the resolved terms nor what is said of the store
      have hgo : ∀ us : List Term, (∀ u ∈ us, u.Below s.cells.size) →
          Tree.sizeAll (us.map (Term.under r τ)) < n → Searches r τ v us s₁ := fun us hus hlt =>
        ih _ hlt ((hcomp.resolves hs.rooted).mpr hτ) (hcomp.proper hs)
          (fun u hu => hcomp.size ▸ hus u hu) rfl
      have hlt : Tree.sizeAll (rest.map (Term.under r τ)) < n := by
        have hsize := Tree.size_pos (t.under r τ)
        rw [List.map_cons, Tree.sizeAll] at hn
        omega
      cases root with
      | var w =>
        have hw : t.under r τ = .var w := hunder.trans (hτ.unbound w (hroot.isEnd w rfl))
        by_cases hwv : w = v
        · subst hwv
          refine ⟨true, s₁, .of_succ (.of_forall fun fuel => ?_), hcomp, by simp [hw]⟩
          rw [searchVar, Run.bind_ok hderef]
          simp [Run.pure_run]
        · have hnot : ¬(t.under r τ).Occurs v := by simp [hw, Ne.symm hwv]
          refine (hgo rest hrest hlt).of_step hcomp (exists_occurs_cons hnot) fun fuel => ?_
          rw [searchVar, Run.bind_ok hderef]
          simp [hwv]
      | compound i f x xs =>
        have hbelow := hroot.every hs.closed ht
        have hmem : ∀ u ∈ (x :: xs).reverse ++ rest, u.Below s.cells.size := by
          intro u hu
          rcases List.mem_append.mp hu with hu | hu
          · exact hbelow.arg (List.mem_reverse.mp hu)
          · exact hrest u hu
        refine (hgo _ hmem (hn ▸ sizeAll_arguments_lt hunder)).of_step hcomp
          (exists_occurs_arguments hunder) fun fuel => ?_
        rw [searchVar, Run.bind_ok hderef]
      | _ =>
        have hnot : ¬(t.under r τ).Occurs v := hunder ▸ Tree.not_occurs_leaf
        refine (hgo rest hrest hlt).of_step hcomp (exists_occurs_cons hnot) fun fuel => ?_
        rw [searchVar, Run.bind_ok hderef]

/-- Without the occurs check, binding an unbound variable always succeeds. -/
theorem bindVar_unchecked {t : Term} (fuel : Nat) (hv : s.cells.Unbound v) :
    bindVar fuel false v t s = .ok (.ok (), s.bound v t) :=
  Attempt.lift_run (Store.bind_run t hv.lt)

/-- **Binding with the check.** The variable is bound, unless it occurs in what it was to be bound
to; chains may have been shortened either way. -/
theorem bindVar_checked (hτ : s.cells.Resolves r id τ) (hs : s.cells.Proper) {t : Term}
    (hv : s.cells.Unbound v) (ht : t.Below s.cells.size) :
    ∃ s', s.cells.Compressed s'.cells ∧
      ((t.under r τ).Occurs v ∧
          Settles (fun fuel => bindVar fuel true v t s) (.error .occursCheck, s') ∨
        ¬(t.under r τ).Occurs v ∧
          Settles (fun fuel => bindVar fuel true v t s) (.ok (), s'.bound v t)) := by
  have hbelow : ∀ u ∈ [t], u.Below s.cells.size := by simpa using ht
  obtain ⟨found, s', hsearch, hcomp, hfound⟩ := searchVar_settles (v := v) hτ hs hbelow
  have hocc : found = true ↔ (t.under r τ).Occurs v := by simpa using hfound
  refine ⟨s', hcomp, ?_⟩
  cases found with
  | true =>
    refine .inl ⟨hocc.mp rfl, hsearch.map fun fuel hrun => ?_⟩
    exact Attempt.lift_bind hrun
  | false =>
    refine .inr ⟨fun h => Bool.noConfusion (hocc.mpr h), hsearch.map fun fuel hrun => ?_⟩
    have hv' : v < s'.cells.size := hcomp.size ▸ hv.lt
    exact (Attempt.lift_bind hrun).trans (Attempt.lift_run (Store.bind_run t hv'))

end Horn
