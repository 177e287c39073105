import Horn.Proofs.Rebuilding

/-!
# Rebuilding by recursion

Rebuilding a term keeps the nodes that have been entered and not yet finished on a list of frames.
It does what a recursion does that rebuilds the arguments of an entered node from left to right and
then the node. The recursion is over the terms that the visitor is shown, which need not be subterms
of the first one, so it counts its steps.

- `rebuildTerm`, `rebuildEach`: the recursion, for a term and for several ones.
- `Unwinds`: a walk inside frames has first got to the result of its term.
- `rebuild_iff`: the walk returns what the recursion returns.
-/

namespace Horn

variable {σ : Type}

/-- Rebuilding by recursion. -/
def rebuildTerm (share : Bool) (visit : Term → Run σ Visit) : Nat → Term → Build σ Term
  | 0, _ => (Run.fail .outOfFuel : Run σ Term)
  | fuel + 1, t => do
    match ← (visit t : Run σ Visit) with
    | .leaf result => pure result
    | .enter node =>
      let results ← node.arguments.mapM (rebuildTerm share visit fuel)
      modifyGet (node.rebuilt share results)

/-- The results of terms that are rebuilt one after the other. -/
def rebuildEach (share : Bool) (visit : Term → Run σ Visit) (fuel : Nat) (ts : List Term) :
    Build σ (List Term) :=
  ts.mapM (rebuildTerm share visit fuel)

variable {share : Bool} {visit : Term → Run σ Visit} {fuel : Nat} {t result : Term}
  {ts results : List Term} {node : Node} {supply supply' : Supply} {s s' : σ}

/-! ## What the recursion returns -/

/-- What is returned is the result of a leaf, or the node that is entered with its arguments
rebuilt. -/
theorem rebuildTerm_eq_ok {out : (Term × Supply) × σ} :
    rebuildTerm share visit (fuel + 1) t supply s = .ok out ↔
      (∃ result s', visit t s = .ok (.leaf result, s') ∧ out = ((result, supply), s')) ∨
        ∃ node s₁ results supply₁ s', visit t s = .ok (.enter node, s₁) ∧
          rebuildEach share visit fuel node.arguments supply s₁ = .ok ((results, supply₁), s') ∧
          out = (node.rebuilt share results supply₁, s') := by
  rw [rebuildTerm, Build.lift_bind_eq_ok]
  constructor
  · rintro ⟨answer, s₁, hvisit, hrest⟩
    cases answer with
    | leaf result => exact .inl ⟨result, s₁, hvisit, (Except.ok.inj hrest).symm⟩
    | enter node =>
      obtain ⟨results, supply₁, s', heach, hlast⟩ := Build.bind_eq_ok.mp hrest
      exact .inr ⟨node, s₁, results, supply₁, s', hvisit, heach, (Except.ok.inj hlast).symm⟩
  · rintro (⟨result, s', hvisit, rfl⟩ | ⟨node, s₁, results, supply₁, s', hvisit, heach, rfl⟩)
    · exact ⟨.leaf result, s', hvisit, rfl⟩
    · exact ⟨.enter node, s₁, hvisit, Build.bind_eq_ok.mpr ⟨results, supply₁, s', heach, rfl⟩⟩

theorem rebuildTerm_leaf (hvisit : visit t s = .ok (.leaf result, s')) :
    rebuildTerm share visit (fuel + 1) t supply s = .ok ((result, supply), s') :=
  rebuildTerm_eq_ok.mpr (.inl ⟨result, s', hvisit, rfl⟩)

/-- It rebuilds a node from what its arguments have become. -/
theorem rebuildTerm_enter {s₁ : σ} (hvisit : visit t s = .ok (.enter node, s₁))
    (hargs : rebuildEach share visit fuel node.arguments supply s₁ =
      .ok ((results, supply'), s')) :
    rebuildTerm share visit (fuel + 1) t supply s = .ok (node.rebuilt share results supply', s') :=
  rebuildTerm_eq_ok.mpr (.inr ⟨node, s₁, results, supply', s', hvisit, hargs, rfl⟩)

/-- Terms are rebuilt one after the other, each with the identities that are left. -/
theorem rebuildEach_cons_eq_ok {out : (List Term × Supply) × σ} :
    rebuildEach share visit fuel (t :: ts) supply s = .ok out ↔
      ∃ result supply₁ s₁ results supply' s',
        rebuildTerm share visit fuel t supply s = .ok ((result, supply₁), s₁) ∧
        rebuildEach share visit fuel ts supply₁ s₁ = .ok ((results, supply'), s') ∧
        out = ((result :: results, supply'), s') := by
  rw [rebuildEach, List.mapM_cons, Build.bind_eq_ok]
  constructor
  · rintro ⟨result, supply₁, s₁, hfirst, hrest⟩
    obtain ⟨results, supply', s', heach, hlast⟩ := Build.bind_eq_ok.mp hrest
    exact ⟨result, supply₁, s₁, results, supply', s', hfirst, heach, (Except.ok.inj hlast).symm⟩
  · rintro ⟨result, supply₁, s₁, results, supply', s', hfirst, heach, rfl⟩
    exact ⟨result, supply₁, s₁, hfirst, Build.bind_eq_ok.mpr ⟨results, supply', s', heach, rfl⟩⟩

theorem rebuildEach_cons {supply₁ : Supply} {s₁ : σ}
    (hterm : rebuildTerm share visit fuel t supply s = .ok ((result, supply₁), s₁))
    (heach : rebuildEach share visit fuel ts supply₁ s₁ = .ok ((results, supply'), s')) :
    rebuildEach share visit fuel (t :: ts) supply s = .ok ((result :: results, supply'), s') :=
  rebuildEach_cons_eq_ok.mpr ⟨result, supply₁, s₁, results, supply', s', hterm, heach, rfl⟩

theorem rebuildEach_single_eq_ok :
    rebuildEach share visit fuel [t] supply s = .ok ((results, supply'), s') ↔
      ∃ result, results = [result] ∧
        rebuildTerm share visit fuel t supply s = .ok ((result, supply'), s') := by
  rw [rebuildEach_cons_eq_ok]
  constructor
  · rintro ⟨result, supply₁, s₁, rest, supply₂, s₂, hterm, hnil, heq⟩
    cases hnil
    cases heq
    exact ⟨result, rfl, hterm⟩
  · rintro ⟨result, rfl, hterm⟩
    exact ⟨result, supply', s', [], supply', s', hterm, rfl, rfl⟩

/-- There is a result for each term. -/
theorem length_of_rebuildEach : ∀ {ts results : List Term} {supply supply' : Supply} {s s' : σ},
    rebuildEach share visit fuel ts supply s = .ok ((results, supply'), s') →
      results.length = ts.length
  | [], _, _, _, _, _, h => by cases h; rfl
  | t :: ts, _, _, _, _, _, h => by
    obtain ⟨result, _, _, results, _, _, -, heach, heq⟩ := rebuildEach_cons_eq_ok.mp h
    cases heq
    exact congrArg (· + 1) (length_of_rebuildEach heach)

/-- If more fuel makes no difference for terms, it makes none for lists of terms. -/
theorem rebuildEach_outlasts_of {n m : Nat}
    (h : ∀ t supply, Outlasts (rebuildTerm share visit m t supply)
      (rebuildTerm share visit n t supply)) :
    ∀ ts supply, Outlasts (rebuildEach share visit m ts supply)
      (rebuildEach share visit n ts supply)
  | [], _ => .refl _
  | t :: ts, supply => by
    rw [rebuildEach, rebuildEach, List.mapM_cons, List.mapM_cons]
    exact .build (h t) (fun _ => .build (rebuildEach_outlasts_of h ts) fun _ _ => .refl _) supply

/-- **More fuel makes no difference** to a recursion that has ended. -/
theorem rebuildTerm_outlasts : ∀ {n m : Nat}, n ≤ m → ∀ t supply,
    Outlasts (rebuildTerm share visit m t supply) (rebuildTerm share visit n t supply)
  | 0, _, _, _, _ => fun _ _ h => nomatch h
  | n + 1, m + 1, h, t, supply => by
    have hle : n ≤ m := Nat.le_of_succ_le_succ h
    refine .build (fun _ => .refl _) (fun answer => ?_) supply
    cases answer with
    | leaf result => exact fun _ => .refl _
    | enter node =>
      exact .build (rebuildEach_outlasts_of (rebuildTerm_outlasts hle) node.arguments)
        fun _ _ => .refl _

theorem rebuildEach_outlasts {n m : Nat} (h : n ≤ m) (ts : List Term) (supply : Supply) :
    Outlasts (rebuildEach share visit m ts supply) (rebuildEach share visit n ts supply) :=
  rebuildEach_outlasts_of (rebuildTerm_outlasts h) ts supply

/-- When the visitor enters a node, its arguments are rebuilt. -/
theorem exists_of_rebuildTerm_enter {s₁ : σ} (hvisit : visit t s = .ok (.enter node, s₁))
    (h : rebuildTerm share visit fuel t supply s = .ok ((result, supply'), s')) :
    ∃ results supply₁, rebuildEach share visit fuel node.arguments supply s₁ =
        .ok ((results, supply₁), s') ∧
      (result, supply') = node.rebuilt share results supply₁ := by
  cases fuel with
  | zero => exact nomatch h
  | succ fuel =>
    rcases rebuildTerm_eq_ok.mp h with
      ⟨leaf, s₂, hleaf, -⟩ | ⟨node', s₂, results, supply₁, s₃, henter, heach, heq⟩
    · cases hvisit.symm.trans hleaf
    · cases hvisit.symm.trans henter
      obtain ⟨hnode, rfl⟩ := Prod.mk.inj heq
      exact ⟨results, supply₁, rebuildEach_outlasts (Nat.le_succ fuel) _ _ _ _ heach, hnode⟩

/-! ## The walk and the recursion -/

/-- Whatever a walk of so many steps returns, it has first got to the result that the recursion has
for its term. What is left is what it makes of that result, with fewer steps. -/
def Unwinds (share : Bool) (visit : Term → Run σ Visit) (fuel : Nat) : Prop :=
  ∀ ⦃t frames supply s out⦄, rebuildIn share visit fuel t frames supply s = .ok out →
    ∃ result supply' s' left, left < fuel ∧
      rebuildTerm share visit fuel t supply s = .ok ((result, supply'), s') ∧
      resume share visit left result frames supply' s' = .ok out

/-- The same for the arguments of a node that are still to come. -/
theorem Unwinds.inFrame (h : ∀ k, k ≤ fuel → Unwinds share visit k) {outer : List Frame}
    {out : (Term × Supply) × σ} {x : Term} {xs done : List Term} {k : Nat} (hk : k ≤ fuel)
    (hrun : rebuildIn share visit k x ({ node, done, todo := xs } :: outer) supply s = .ok out) :
    ∃ results supply' s' left, left < k ∧
      rebuildEach share visit fuel (x :: xs) supply s = .ok ((results, supply'), s') ∧
      resume share visit left (node.rebuilt share (done.reverse ++ results) supply').1 outer
        (node.rebuilt share (done.reverse ++ results) supply').2 s' = .ok out := by
  -- the induction is on the arguments to come; each of them uses up some of the fuel
  induction xs generalizing x done k supply s with
  | nil =>
    obtain ⟨result, supply', s', left, hleft, hterm, hrest⟩ := h k hk hrun
    have hterm' := rebuildTerm_outlasts hk x supply s _ hterm
    rw [resume_close] at hrest
    exact ⟨[result], supply', s', left, hleft, rebuildEach_cons hterm' rfl, hrest⟩
  | cons y ys ih =>
    obtain ⟨result, supply₁, s₁, k', hlt, hterm, hrest⟩ := h k hk hrun
    rw [resume_todo] at hrest
    obtain ⟨results, supply', s', left, hleft, heach, hout⟩ := ih (by omega) hrest
    have hterm' := rebuildTerm_outlasts hk x supply s _ hterm
    refine ⟨result :: results, supply', s', left, by omega, rebuildEach_cons hterm' heach, ?_⟩
    simpa using hout

/-- By induction on the fuel: the loop goes on with the frames around a term as if they had been
called for its result. -/
theorem unwinds (share : Bool) (visit : Term → Run σ Visit) (fuel : Nat) :
    Unwinds share visit fuel := by
  induction fuel using Nat.strongRecOn with
  | ind fuel ih =>
    intro t frames supply s out hrun
    cases fuel with
    | zero => exact nomatch hrun
    | succ fuel =>
      obtain ⟨answer, s₁, hvisit, -⟩ := Build.lift_bind_eq_ok.mp hrun
      cases answer with
      | leaf result =>
        rw [rebuildIn_leaf hvisit] at hrun
        exact ⟨result, supply, s₁, fuel, Nat.lt_succ_self fuel, rebuildTerm_leaf hvisit, hrun⟩
      | enter node =>
        rw [rebuildIn_enter hvisit] at hrun
        obtain ⟨results, supply', s', left, hleft, heach, hrest⟩ :=
          Unwinds.inFrame (fun k hk => ih k (by omega)) (Nat.le_refl fuel) hrun
        rw [List.reverse_nil, List.nil_append] at hrest
        exact ⟨_, _, s', left, by omega, rebuildTerm_enter hvisit heach, hrest⟩

/-- The walk gets from the terms of a list to their results if it does so for each term. -/
theorem rebuildsAll_of_rebuildEach
    (h : ∀ t supply s result supply' s',
      rebuildTerm share visit fuel t supply s = .ok ((result, supply'), s') →
        ∃ n, Rebuilds share visit n t supply s result supply' s') :
    ∀ {ts results : List Term} {supply supply' : Supply} {s s' : σ},
      rebuildEach share visit fuel ts supply s = .ok ((results, supply'), s') →
        ∃ n, RebuildsAll share visit n ts supply s results supply' s'
  | [], _, _, _, _, _, hrun => by
    cases hrun
    exact ⟨0, .nil⟩
  | t :: ts, _, _, _, _, _, hrun => by
    obtain ⟨result, supply₁, s₁, results, supply', s', hterm, heach, heq⟩ :=
      rebuildEach_cons_eq_ok.mp hrun
    cases heq
    obtain ⟨n, hhead⟩ := h t _ _ result supply₁ s₁ hterm
    obtain ⟨m, htail⟩ := rebuildsAll_of_rebuildEach h heach
    exact ⟨n + m, .cons hhead htail⟩

/-- The walk gets from a term to the result that the recursion has for it. -/
theorem rebuilds_of_rebuildTerm (fuel : Nat) (t : Term) (supply : Supply) (s : σ) (result : Term)
    (supply' : Supply) (s' : σ)
    (h : rebuildTerm share visit fuel t supply s = .ok ((result, supply'), s')) :
    ∃ n, Rebuilds share visit n t supply s result supply' s' := by
  induction fuel generalizing t supply s result supply' s' with
  | zero => exact nomatch h
  | succ fuel ih =>
    rcases rebuildTerm_eq_ok.mp h with
      ⟨leaf, s₁, hvisit, heq⟩ | ⟨node, s₁, results, supply₁, s₂, hvisit, heach, heq⟩
    · cases heq
      exact ⟨1, .leaf hvisit⟩
    · obtain ⟨n, hargs⟩ := rebuildsAll_of_rebuildEach ih heach
      have hwalk := Rebuilds.enter hvisit hargs
      obtain ⟨hnode, rfl⟩ := Prod.mk.inj heq
      rw [← hnode] at hwalk
      exact ⟨n + 1, hwalk⟩

/-- **The walk returns what the recursion returns.** -/
theorem rebuild_iff {out : (Term × Supply) × σ} :
    (∃ fuel, rebuild share visit fuel t supply s = .ok out) ↔
      ∃ fuel, rebuildTerm share visit fuel t supply s = .ok out := by
  constructor
  · rintro ⟨fuel, h⟩
    obtain ⟨result, supply', s', left, -, hterm, hrest⟩ := unwinds share visit fuel h
    cases hrest
    exact ⟨fuel, hterm⟩
  · rintro ⟨fuel, h⟩
    obtain ⟨n, hwalk⟩ := rebuilds_of_rebuildTerm fuel t supply s out.1.1 out.1.2 out.2 h
    exact ⟨n, hwalk.run (Nat.le_refl n)⟩

end Horn
