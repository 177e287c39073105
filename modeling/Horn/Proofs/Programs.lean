import Horn.Instantiate

/-!
# Running programs

The laws by which proofs run a program one action at a time, for each of the four layers: programs
on a state (`Run`), those that may fail to unify (`Attempt`), those that build nodes (`Build`) and
those that do both on an instance (`Instantiation`).

- `Outlasts`: a program returns whatever another one does. This is how it is stated that more fuel
  makes no difference.
- `Settles`: from some number of steps on, a program that counts its steps ends in one and the same
  result. This is how termination is stated for loops that take fuel.
-/

namespace Horn

/-! ## Termination of programs that count their steps -/

/-- With enough fuel, and from there on with any amount of it, the program ends in `r`. -/
def Settles {ρ : Type} (run : Nat → Except Fault ρ) (r : ρ) : Prop :=
  ∃ enough, ∀ fuel, enough ≤ fuel → run fuel = .ok r

namespace Settles

variable {ρ τ : Type} {run : Nat → Except Fault ρ} {r : ρ}

theorem of_forall (h : ∀ fuel, run fuel = .ok r) : Settles run r :=
  ⟨0, fun fuel _ => h fuel⟩

/-- A run that takes so many steps settles, if fuel beyond them makes no difference. -/
theorem of_add (steps : Nat) (h : ∀ more, run (more + steps) = .ok r) : Settles run r := by
  refine ⟨steps, fun fuel hfuel => ?_⟩
  obtain ⟨more, rfl⟩ := Nat.exists_eq_add_of_le' hfuel
  exact h more

/-- A loop settles if it does so from its second round on. -/
theorem of_succ (h : Settles (fun fuel => run (fuel + 1)) r) : Settles run r := by
  obtain ⟨n, hn⟩ := h
  refine ⟨n + 1, fun fuel hfuel => ?_⟩
  cases fuel with
  | zero => omega
  | succ fuel => exact hn fuel (by omega)

/-- If a first part settles, the whole settles as what is left after it does. -/
theorem and_then {first : Nat → Except Fault τ} {t : τ} (h : Settles first t)
    {rest : Nat → Except Fault ρ} (hrest : Settles rest r)
    (heq : ∀ fuel, first fuel = .ok t → run fuel = rest fuel) : Settles run r := by
  obtain ⟨n, hn⟩ := h
  obtain ⟨m, hm⟩ := hrest
  refine ⟨max n m, fun fuel hfuel => ?_⟩
  rw [heq fuel (hn fuel (by omega))]
  exact hm fuel (by omega)

/-- If a first part settles and its result is the whole one's but for a last, total action. -/
theorem map {first : Nat → Except Fault τ} {t : τ} (h : Settles first t)
    (heq : ∀ fuel, first fuel = .ok t → run fuel = .ok r) : Settles run r := by
  obtain ⟨n, hn⟩ := h
  exact ⟨n, fun fuel hfuel => heq fuel (hn fuel hfuel)⟩

/-- What a loop settles on is settled on from its second round on. -/
theorem succ (h : Settles run r) : Settles (fun fuel => run (fuel + 1)) r := by
  obtain ⟨n, hn⟩ := h
  exact ⟨n, fun fuel hfuel => hn (fuel + 1) (by omega)⟩

/-- What is left after a first part that settles, settles as the whole does. -/
theorem rest {first : Nat → Except Fault τ} {t : τ} (h : Settles run r) (hfirst : Settles first t)
    {rest : Nat → Except Fault ρ} (heq : ∀ fuel, first fuel = .ok t → run fuel = rest fuel) :
    Settles rest r := by
  obtain ⟨n, hn⟩ := h
  obtain ⟨m, hm⟩ := hfirst
  exact ⟨max n m, fun fuel hfuel =>
    (heq fuel (hm fuel (by omega))).symm.trans (hn fuel (by omega))⟩

/-- There is one result to settle on. -/
theorem unique {r' : ρ} (h : Settles run r) (h' : Settles run r') : r = r' := by
  obtain ⟨n, hn⟩ := h
  obtain ⟨m, hm⟩ := h'
  have heq := (hn (max n m) (by omega)).symm.trans (hm (max n m) (by omega))
  exact Except.ok.inj heq

end Settles

/-! ## Programs on a state -/

section Run

variable {σ α β : Type} {x : Run σ α} {f : α → Run σ β} {s s' : σ} {a : α}

theorem Run.pure_run (a : α) (s : σ) : (pure a : Run σ α) s = .ok (a, s) := rfl

/-- Goes on after an action whose outcome is known. -/
theorem Run.bind_ok (h : x s = .ok (a, s')) : (x >>= f) s = f a s' := by
  show (StateT.bind x f) s = _
  simp [StateT.bind, h, bind, Except.bind]

/-- A fault ends a sequence. -/
theorem Run.bind_error {e : Fault} (h : x s = .error e) : (x >>= f) s = .error e := by
  show (StateT.bind x f) s = _
  simp [StateT.bind, h, bind, Except.bind]

/-- A sequence comes to an end only if its first action does. -/
theorem Run.bind_eq_ok {r : β × σ} :
    (x >>= f) s = .ok r ↔ ∃ a s', x s = .ok (a, s') ∧ f a s' = .ok r := by
  constructor
  · intro h
    cases hx : x s with
    | error e => rw [Run.bind_error hx] at h; cases h
    | ok r' =>
      obtain ⟨a, s'⟩ := r'
      exact ⟨a, s', rfl, by rwa [Run.bind_ok hx] at h⟩
  · rintro ⟨a, s', hx, hf⟩
    rw [Run.bind_ok hx, hf]

end Run

/-! ## Programs that may fail to unify -/

section Attempt

variable {α β : Type} {x : Attempt α} {f : α → Attempt β} {s s' : Store} {a : α} {e : UnifyError}

theorem Attempt.bind_ok (h : x s = .ok (.ok a, s')) : (x >>= f) s = f a s' := by
  show (StateT.bind x (ExceptT.bindCont f)) s = _
  simp [StateT.bind, h, bind, Except.bind, ExceptT.bindCont]

/-- The first failure ends a sequence. -/
theorem Attempt.bind_throw (h : x s = .ok (.error e, s')) :
    (x >>= f) s = .ok (.error e, s') := by
  show (StateT.bind x (ExceptT.bindCont f)) s = _
  simp only [StateT.bind, h, bind, Except.bind, ExceptT.bindCont]
  rfl

/-- A program on the store is one that does not fail. -/
theorem Attempt.lift_run {x : Run Store α} (h : x s = .ok (a, s')) :
    (liftM x : Attempt α) s = .ok (.ok a, s') := by
  show (StateT.map Except.ok x) s = _
  simp [StateT.map, h, bind, Except.bind, pure, Except.pure]

theorem Attempt.lift_bind {x : Run Store α} (h : x s = .ok (a, s')) :
    ((liftM x : Attempt α) >>= f) s = f a s' :=
  Attempt.bind_ok (Attempt.lift_run h)

/-- A sequence of attempts ends in the failure of its first part, or as its second part does. -/
theorem Attempt.bind_eq_ok {r : Except UnifyError β × Store} :
    (x >>= f) s = .ok r ↔
      (∃ a s', x s = .ok (.ok a, s') ∧ f a s' = .ok r) ∨
        ∃ e s', x s = .ok (.error e, s') ∧ r = (.error e, s') := by
  constructor
  · intro h
    obtain ⟨out, s', hx, hf⟩ :=
      Run.bind_eq_ok.mp (show StateT.bind x (ExceptT.bindCont f) s = _ from h)
    cases out with
    | ok a => exact .inl ⟨a, s', hx, hf⟩
    | error e => exact .inr ⟨e, s', hx, (Except.ok.inj hf).symm⟩
  · rintro (⟨a, s', hx, hf⟩ | ⟨e, s', hx, rfl⟩)
    · rw [Attempt.bind_ok hx, hf]
    · exact Attempt.bind_throw hx

/-- A program on the store does not fail to unify. -/
theorem Attempt.lift_eq_ok {x : Run Store α} {r : Except UnifyError α × Store} :
    (liftM x : Attempt α) s = .ok r ↔ ∃ a s', x s = .ok (a, s') ∧ r = (.ok a, s') := by
  constructor
  · intro h
    cases hx : x s with
    | error e =>
      have : (liftM x : Attempt α) s = .error e := by
        show (StateT.map Except.ok x) s = _
        simp [StateT.map, hx, bind, Except.bind]
      rw [this] at h
      cases h
    | ok r' =>
      obtain ⟨a, s'⟩ := r'
      rw [Attempt.lift_run hx] at h
      exact ⟨a, s', rfl, (Except.ok.inj h).symm⟩
  · rintro ⟨a, s', hx, rfl⟩
    exact Attempt.lift_run hx

end Attempt

/-! ## Programs that build nodes -/

section Build

variable {σ α β : Type} {supply supply' : Supply} {s s' : σ} {a : α}

theorem Build.pure_run (a : α) (supply : Supply) (s : σ) :
    (pure a : Build σ α) supply s = .ok ((a, supply), s) := rfl

theorem Build.bind_ok {x : Build σ α} {f : α → Build σ β}
    (h : x supply s = .ok ((a, supply'), s')) :
    (x >>= f : Build σ β) supply s = f a supply' s' := by
  show (x supply >>= fun r => f r.1 r.2 : Run σ (β × Supply)) s = _
  rw [Run.bind_ok h]

/-- Programs that begin alike go on alike. -/
theorem Build.bind_congr {x y : Build σ α} {f : α → Build σ β} (h : x supply s = y supply' s') :
    (x >>= f : Build σ β) supply s = (y >>= f : Build σ β) supply' s' := by
  show (StateT.bind (x supply) fun r => f r.1 r.2) s =
    (StateT.bind (y supply') fun r => f r.1 r.2) s'
  simp only [StateT.bind, h]

/-- A program that builds no nodes. -/
theorem Build.lift_run {x : Run σ α} (h : x s = .ok (a, s')) :
    (liftM x : Build σ α) supply s = .ok ((a, supply), s') := by
  show (x >>= fun a => pure (a, supply) : Run σ (α × Supply)) s = _
  rw [Run.bind_ok h, Run.pure_run]

theorem Build.lift_bind {x : Run σ α} {f : α → Build σ β} (h : x s = .ok (a, s')) :
    ((liftM x : Build σ α) >>= f : Build σ β) supply s = f a supply s' :=
  Build.bind_ok (Build.lift_run h)

/-- A sequence comes to an end only if its first action does. -/
theorem Build.bind_eq_ok {x : Build σ α} {f : α → Build σ β} {out : (β × Supply) × σ} :
    (x >>= f : Build σ β) supply s = .ok out ↔
      ∃ a supply₁ s₁, x supply s = .ok ((a, supply₁), s₁) ∧ f a supply₁ s₁ = .ok out := by
  constructor
  · intro h
    obtain ⟨⟨a, supply₁⟩, s₁, hx, hf⟩ :=
      Run.bind_eq_ok.mp (show (x supply >>= fun r => f r.1 r.2 : Run σ _) s = _ from h)
    exact ⟨a, supply₁, s₁, hx, hf⟩
  · rintro ⟨a, supply₁, s₁, hx, hf⟩
    rw [Build.bind_ok hx, hf]

theorem Build.lift_bind_eq_ok {x : Run σ α} {f : α → Build σ β}
    {out : (β × Supply) × σ} :
    ((liftM x : Build σ α) >>= f : Build σ β) supply s = .ok out ↔
      ∃ a s₁, x s = .ok (a, s₁) ∧ f a supply s₁ = .ok out := by
  constructor
  · intro h
    obtain ⟨a, supply₁, s₁, hx, hf⟩ := Build.bind_eq_ok.mp h
    obtain ⟨a', s₂, hx', heq⟩ := Run.bind_eq_ok.mp
      (show (x >>= fun a => pure (a, supply) : Run σ (α × Supply)) s = _ from hx)
    cases heq
    exact ⟨a, s₁, hx', hf⟩
  · rintro ⟨a, s₁, hx, hf⟩
    rw [Build.lift_bind hx, hf]

end Build

/-! ## Programs that return more than others -/

/-- Whatever `x` returns from a state, `y` returns as well. -/
def Outlasts {σ α : Type} (y x : Run σ α) : Prop :=
  ∀ s r, x s = .ok r → y s = .ok r

namespace Outlasts

variable {σ α β : Type}

theorem refl (x : Run σ α) : Outlasts x x := fun _ _ h => h

theorem trans {x y z : Run σ α} (hzy : Outlasts z y) (hyx : Outlasts y x) : Outlasts z x :=
  fun s r h => hzy s r (hyx s r h)

/-- A program that returns nothing is outlasted by any other one. -/
theorem fail (y : Run σ α) (f : Fault) : Outlasts y (Run.fail f) :=
  fun _ _ h => nomatch h

/-- A sequence of programs returns more if its parts do. -/
theorem bind {x y : Run σ α} {f g : α → Run σ β} (hyx : Outlasts y x)
    (hgf : ∀ a, Outlasts (g a) (f a)) : Outlasts (y >>= g) (x >>= f) := by
  intro s r h
  obtain ⟨a, s₁, hx, hf⟩ := Run.bind_eq_ok.mp h
  exact Run.bind_eq_ok.mpr ⟨a, s₁, hyx s _ hx, hgf a s₁ r hf⟩

/-- A sequence of attempts. A failure to unify is returned like a success. -/
theorem attempt {x y : Attempt α} {f g : α → Attempt β} (hyx : Outlasts y x)
    (hgf : ∀ a, Outlasts (g a) (f a)) : Outlasts (y >>= g : Attempt β) (x >>= f : Attempt β) := by
  intro s r h
  rcases Attempt.bind_eq_ok.mp h with ⟨a, s₁, hx, hf⟩ | ⟨e, s₁, hx, rfl⟩
  · exact Attempt.bind_eq_ok.mpr (.inl ⟨a, s₁, hyx s _ hx, hgf a s₁ r hf⟩)
  · exact Attempt.bind_eq_ok.mpr (.inr ⟨e, s₁, hyx s _ hx, rfl⟩)

theorem lift {x y : Run Store α} (hyx : Outlasts y x) :
    Outlasts (liftM y : Attempt α) (liftM x : Attempt α) := by
  intro s r h
  obtain ⟨a, s₁, hx, rfl⟩ := Attempt.lift_eq_ok.mp h
  exact Attempt.lift_eq_ok.mpr ⟨a, s₁, hyx s _ hx, rfl⟩

/-- A sequence of programs that build nodes. -/
theorem build {x y : Build σ α} {f g : α → Build σ β}
    (hyx : ∀ supply, Outlasts (y supply) (x supply))
    (hgf : ∀ a supply, Outlasts (g a supply) (f a supply)) (supply : Supply) :
    Outlasts ((y >>= g : Build σ β) supply) ((x >>= f : Build σ β) supply) :=
  bind (hyx supply) fun r => hgf r.1 r.2

end Outlasts

/-! ## Programs that make instances and may fail to unify -/

section Instantiation

variable {α β : Type} {supply supply' : Supply} {i i' : Instance} {a : α} {e : UnifyError}
  {f : α → Instantiation β}

theorem Instantiation.bind_ok {x : Instantiation α}
    (h : x supply i = .ok ((.ok a, supply'), i')) :
    (x >>= f : Instantiation β) supply i = f a supply' i' := by
  show (x.run >>= ExceptT.bindCont f : Build Instance (Except UnifyError β)) supply i = _
  exact Build.bind_ok h

/-- The first failure ends a sequence. -/
theorem Instantiation.bind_throw {x : Instantiation α}
    (h : x supply i = .ok ((.error e, supply'), i')) :
    (x >>= f : Instantiation β) supply i = .ok ((.error e, supply'), i') := by
  show (x.run >>= ExceptT.bindCont f : Build Instance (Except UnifyError β)) supply i = _
  exact Build.bind_ok h

/-- A program that builds nodes is one that does not fail. -/
theorem Instantiation.build_bind {x : Build Instance α} (h : x supply i = .ok ((a, supply'), i')) :
    ((liftM x : Instantiation α) >>= f : Instantiation β) supply i = f a supply' i' := by
  refine Instantiation.bind_ok ?_
  show (x >>= fun a => pure (Except.ok a) : Build Instance (Except UnifyError α)) supply i = _
  rw [Build.bind_ok h, Build.pure_run]

/-- A sequence succeeds only if both of its parts do. -/
theorem Instantiation.ok_of_bind {x : Instantiation α} {b : β}
    (h : (x >>= f : Instantiation β) supply i = .ok ((.ok b, supply'), i')) :
    ∃ a supply₁ i₁, x supply i = .ok ((.ok a, supply₁), i₁) ∧
      f a supply₁ i₁ = .ok ((.ok b, supply'), i') := by
  obtain ⟨⟨out, supply₁⟩, i₁, hx, hf⟩ := Run.bind_eq_ok.mp
    (show (x supply >>= fun r => ExceptT.bindCont f r.1 r.2 : Run Instance _) i = _ from h)
  cases out with
  | ok a => exact ⟨a, supply₁, i₁, hx, hf⟩
  | error e => cases hf

theorem Instantiation.build_congr {x y : Build Instance α} (h : x supply i = y supply' i') :
    ((liftM x : Instantiation α) >>= f : Instantiation β) supply i =
      ((liftM y : Instantiation α) >>= f : Instantiation β) supply' i' := by
  have hlift : (liftM x : Instantiation α) supply i = (liftM y : Instantiation α) supply' i' := by
    show (x >>= fun a => pure (Except.ok a) : Build Instance (Except UnifyError α)) supply i =
      (y >>= fun a => pure (Except.ok a) : Build Instance (Except UnifyError α)) supply' i'
    exact Build.bind_congr h
  exact Build.bind_congr (f := ExceptT.bindCont f) hlift

theorem Instantiation.run_bind {x : Run Instance α} (h : x i = .ok (a, i')) :
    ((liftM x : Instantiation α) >>= f : Instantiation β) supply i = f a supply i' := by
  refine Instantiation.bind_ok ?_
  show ((liftM x : Build Instance α) >>= fun a => pure (Except.ok a) :
    Build Instance (Except UnifyError α)) supply i = _
  rw [Build.lift_bind h, Build.pure_run]

/-- A fault ends a sequence of attempts on an instance. -/
theorem Instantiation.run_bind_error {x : Run Instance α} {fault : Fault}
    (h : x i = .error fault) :
    ((liftM x : Instantiation α) >>= f : Instantiation β) supply i = .error fault := by
  have hlift : (liftM x : Build Instance α) supply i = .error fault := by
    show (x >>= fun a => pure (a, supply) : Run Instance (α × Supply)) i = _
    exact Run.bind_error h
  have hrun : (liftM x : Instantiation α) supply i = .error fault := by
    show ((liftM x : Build Instance α) supply >>= fun r => pure (.ok r.1, r.2) :
      Run Instance (Except UnifyError α × Supply)) i = _
    exact Run.bind_error hlift
  show ((liftM x : Instantiation α) supply >>= fun r => ExceptT.bindCont f r.1 r.2 :
    Run Instance (Except UnifyError β × Supply)) i = _
  exact Run.bind_error hrun

end Instantiation

/-- A program on the store of an instance. -/
theorem onStore_run {α : Type} {x : Run Store α} {i : Instance} {a : α} {s' : Store}
    (h : x i.store = .ok (a, s')) : onStore x i = .ok (a, { i with store := s' }) := by
  unfold onStore
  rw [h]

/-- A program that is run with a memo. -/
theorem withMemo_run {α : Type} {x : Build Instance α} {memo : Memo} {supply supply' : Supply}
    {s : Store} {i' : Instance} {a : α}
    (h : x supply { store := s, memo } = .ok ((a, supply'), i')) :
    withMemo memo x supply s = .ok (((a, i'.memo), supply'), i'.store) := by
  unfold withMemo
  rw [h]

end Horn
