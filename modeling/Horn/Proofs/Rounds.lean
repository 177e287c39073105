import Horn.Clause
import Horn.Order
import Horn.Proofs.Programs

/-!
# Runs that need not end

On cyclic terms the loops of the engine go on for ever, and write as long as they do. What such a
run has done up to some time is told by its rounds, of which each is a run that ends. A loop that
has used up the steps it is allowed has made as many rounds.

- `Ends`: a program ends as stated, or has run out of steps after a run as stated. The laws by which
  sequences do so.
- `VisitPasses`, `ComparePasses`, `UnifyPasses`, `MatchPasses`, `CallPasses`: the stores that the
  loops come by, with the number of rounds after which they do.
-/

namespace Horn

/-! ## Ending in so many steps -/

/-- The outcome is one of those that `Q` describes, or the steps have run out and `U` holds. -/
def Ends {β : Type} (Q : β → Prop) (U : Prop) : Except Fault β → Prop
  | .ok b => Q b
  | .error f => f = .outOfFuel ∧ U

namespace Ends

variable {σ α β : Type} {out : Except Fault β} {P Q : β → Prop} {U V : Prop} {b : β}

theorem of_ok (h : out = .ok b) (hb : Q b) : Ends Q U out := h ▸ hb

theorem of_eq_ok (h : Ends Q U out) (hb : out = .ok b) : Q b := by
  rw [hb] at h
  exact h

/-- A description of how a program ends may say less. -/
theorem imp (h : Ends P U out) (hPQ : ∀ b, P b → Q b) (hUV : U → V) : Ends Q V out := by
  cases out with
  | ok b => exact hPQ b h
  | error f => exact ⟨h.1, hUV h.2⟩

theorem imp_right (h : Ends Q U out) (hUV : U → V) : Ends Q V out := h.imp (fun _ => id) hUV

/-- What the program returns is what it has been seen to return. -/
theorem seen (h : Ends Q U out) : Ends (fun b => out = .ok b ∧ Q b) U out := by
  cases out with
  | ok b => exact ⟨rfl, h⟩
  | error f => exact h

/-- A sequence ends as its second part does. -/
theorem bind {x : Run σ α} {f : α → Run σ β} {s : σ} {P : α × σ → Prop} {Q : β × σ → Prop}
    (hx : Ends P U (x s)) (hf : ∀ a s', P (a, s') → Ends Q U (f a s')) :
    Ends Q U ((x >>= f) s) := by
  cases h : x s with
  | ok r =>
    rw [h] at hx
    rw [Run.bind_ok h]
    exact hf r.1 r.2 hx
  | error e =>
    rw [h] at hx
    rw [Run.bind_error h]
    exact hx

/-- A sequence of attempts ends with the failure of its first part, or as its second part does. -/
theorem attempt {x : Attempt α} {f : α → Attempt β} {s : Store}
    {P : Except UnifyError α × Store → Prop} {Q : Except UnifyError β × Store → Prop}
    (hx : Ends P U (x s)) (hok : ∀ a s', P (.ok a, s') → Ends Q U (f a s'))
    (herr : ∀ e s', P (.error e, s') → Q (.error e, s')) :
    Ends Q U ((x >>= f : Attempt β) s) := by
  refine Ends.bind (x := x.run) (f := ExceptT.bindCont f) hx ?_
  rintro (e | a) s' h
  · exact herr e s' h
  · exact hok a s' h

/-- A program on the store ends as an attempt that does not fail. -/
theorem lift_bind {x : Run Store α} {f : α → Attempt β} {s : Store} {P : α × Store → Prop}
    {Q : Except UnifyError β × Store → Prop} (hx : Ends P U (x s))
    (hf : ∀ a s', P (a, s') → Ends Q U (f a s')) :
    Ends Q U (((liftM x : Attempt α) >>= f : Attempt β) s) := by
  have hlift : Ends (fun r => ∃ a, r.1 = .ok a ∧ P (a, r.2)) U ((liftM x : Attempt α) s) :=
    Ends.bind (f := fun a => pure (Except.ok a)) hx fun a s' h => ⟨a, rfl, h⟩
  refine Ends.attempt hlift ?_ ?_
  · rintro a s' ⟨_, ⟨⟩, h⟩
    exact hf a s' h
  · rintro e s' ⟨_, ⟨⟩, _⟩

theorem build {x : Build σ α} {f : α → Build σ β} {supply : Supply} {s : σ}
    {P : (α × Supply) × σ → Prop} {Q : (β × Supply) × σ → Prop} (hx : Ends P U (x supply s))
    (hf : ∀ a supply' s', P ((a, supply'), s') → Ends Q U (f a supply' s')) :
    Ends Q U ((x >>= f : Build σ β) supply s) :=
  Ends.bind hx fun r s' h => hf r.1 r.2 s' h

/-- A sequence of attempts on an instance ends with the first failure, or as its second part does.
-/
theorem instantiation {x : Instantiation α} {f : α → Instantiation β} {supply : Supply}
    {i : Instance} {P : (Except UnifyError α × Supply) × Instance → Prop}
    {Q : (Except UnifyError β × Supply) × Instance → Prop} (hx : Ends P U (x supply i))
    (hok : ∀ a supply' i', P ((.ok a, supply'), i') → Ends Q U (f a supply' i'))
    (herr : ∀ e supply' i', P ((.error e, supply'), i') → Q ((.error e, supply'), i')) :
    Ends Q U ((x >>= f : Instantiation β) supply i) := by
  refine Ends.build (x := x.run) (f := ExceptT.bindCont f) hx ?_
  rintro (e | a) supply' i' h
  · exact herr e supply' i' h
  · exact hok a supply' i' h

/-- An action on the store of an instance, and what follows it. -/
theorem onStore_bind {x : Run Store α} {f : α → Instantiation β} {supply : Supply} {i : Instance}
    {P : α × Store → Prop} {Q : (Except UnifyError β × Supply) × Instance → Prop}
    (hx : Ends P U (x i.store))
    (hf : ∀ a s', P (a, s') → Ends Q U (f a supply { i with store := s' })) :
    Ends Q U (((liftM (onStore x) : Instantiation α) >>= f : Instantiation β) supply i) := by
  -- a program of the store leaves the memo as it is
  have hstore : Ends (fun r => P (r.1, r.2.store) ∧ r.2 = { i with store := r.2.store }) U
      (onStore x i) := by
    unfold onStore
    cases h : x i.store with
    | ok r =>
      rw [h] at hx
      exact ⟨hx, rfl⟩
    | error e =>
      rw [h] at hx
      exact hx
  have hbuild : Ends (fun r => P (r.1.1, r.2.store) ∧ r.1.2 = supply ∧
      r.2 = { i with store := r.2.store }) U ((liftM (onStore x) : Build Instance α) supply i) :=
    Ends.bind (Q := fun r => P (r.1.1, r.2.store) ∧ r.1.2 = supply ∧
      r.2 = { i with store := r.2.store }) (f := fun a => pure (a, supply)) hstore
      fun a i' h => ⟨h.1, rfl, h.2⟩
  have hlift : Ends (fun r => ∃ a, r.1 = (.ok a, supply) ∧ P (a, r.2.store) ∧
      r.2 = { i with store := r.2.store }) U ((liftM (onStore x) : Instantiation α) supply i) := by
    refine Ends.build (f := fun a => pure (Except.ok a)) hbuild ?_
    rintro a _ i' ⟨hP, rfl, hi'⟩
    exact ⟨a, rfl, hP, hi'⟩
  refine Ends.instantiation hlift ?_ ?_
  · rintro a supply' ⟨store, memo⟩ ⟨_, ⟨⟩, hP, hi'⟩
    cases hi'
    exact hf a store hP
  · rintro e supply' i' ⟨_, ⟨⟩, -⟩

/-- A program that is run with a memo ends as it does on the instance of store and memo. -/
theorem withMemo {memo : Memo} {x : Build Instance α} {supply : Supply} {s : Store}
    {P : (α × Supply) × Instance → Prop} (hx : Ends P U (x supply { store := s, memo })) :
    Ends (fun r => P ((r.1.1.1, r.1.2), { store := r.2, memo := r.1.1.2 })) U
      (withMemo memo x supply s) := by
  unfold Horn.withMemo
  cases h : x supply { store := s, memo } with
  | ok r =>
    rw [h] at hx
    exact hx
  | error f =>
    rw [h] at hx
    exact hx

theorem withNewMemo {x : Build Instance α} {supply : Supply} {s : Store}
    {P : (α × Supply) × Instance → Prop} (hx : Ends P U (x supply { store := s, memo := {} })) :
    Ends (fun r => ∃ memo, P (r.1, { store := r.2, memo })) U (Clause.withNewMemo x supply s) :=
  Ends.build (f := fun r => pure r.1) (Ends.withMemo hx) fun (r : α × Memo) _ _ h =>
    .of_ok rfl ⟨r.2, h⟩

end Ends

/-! ## Rounds -/

/-- The store `s'` is one that a walk through terms comes by with its `n`-th visit. A visit follows
the bindings of a term. From a root that has the property `p` the walk goes on, with its arguments
in one order or another. -/
inductive VisitPasses (p : Term → Prop) : Nat → List Term → Store → Store → Prop where
  | start {ts : List Term} {s : Store} : VisitPasses p 0 ts s s
  | visit {n : Nat} {t r : Term} {more rest : List Term} {s s₁ s' : Store}
      (h : deref t s = .ok (r, s₁)) (hr : p r) (hmore : more.Perm r.arguments)
      (later : VisitPasses p n (more ++ rest) s₁ s') : VisitPasses p (n + 1) (t :: rest) s s'

/-- The store `s'` is one that the comparison of pairs comes by after `n` rounds. -/
inductive ComparePasses : Nat → List (Term × Term) → Store → Store → Prop where
  | start {pairs : List (Term × Term)} {s : Store} : ComparePasses 0 pairs s s
  | round {n : Nat} {a b ra rb : Term} {rest : List (Term × Term)} {s s₁ s₂ s' : Store}
      (ha : deref a s = .ok (ra, s₁)) (hb : deref b s₁ = .ok (rb, s₂))
      (heq : compareOutermost ra rb = .eq)
      (later : ComparePasses n (argumentPairs ra rb ++ rest) s₂ s') :
      ComparePasses (n + 1) ((a, b) :: rest) s s'

/-- The store `s'` is one that the unification of pairs comes by after `n` rounds, where the visits
of a search for a variable count as well. -/
inductive UnifyPasses (occursCheck : Bool) : Nat → List (Term × Term) → Store → Store → Prop where
  | start {pairs : List (Term × Term)} {s : Store} : UnifyPasses occursCheck 0 pairs s s
  | search {n v : Nat} {a b ra rb t : Term} {rest : List (Term × Term)} {s s₁ s₂ s' : Store}
      (hcheck : occursCheck = true) (ha : deref a s = .ok (ra, s₁)) (hb : deref b s₁ = .ok (rb, s₂))
      (hv : ra = .var v ∧ t = rb ∨ rb = .var v ∧ t = ra)
      (h : VisitPasses (· ≠ .var v) n [t] s₂ s') :
      UnifyPasses occursCheck (n + 1) ((a, b) :: rest) s s'
  | fail {fuel : Nat} {a b : Term} {rest : List (Term × Term)} {e : UnifyError} {s s' : Store}
      (h : unifyStep fuel occursCheck a b s = .ok (.error e, s')) :
      UnifyPasses occursCheck 1 ((a, b) :: rest) s s'
  | round {n fuel : Nat} {a b : Term} {more rest : List (Term × Term)} {s s₁ s' : Store}
      (h : unifyStep fuel occursCheck a b s = .ok (.ok more, s₁))
      (later : UnifyPasses occursCheck n (more ++ rest) s₁ s') :
      UnifyPasses occursCheck (n + 1) ((a, b) :: rest) s s'

/-- The pairs of arguments that a step leaves. -/
def Matched.left : Matched → List (Term × Term)
  | done _ => []
  | descend _ first rest => first :: rest

/-- The store `s'` is one that the fused walk over pairs comes by after `n` rounds, where the rounds
of a unification count as well. -/
inductive MatchPasses : Nat → List (Term × Term) → Instance → Store → Prop where
  | start {pairs : List (Term × Term)} {i : Instance} : MatchPasses 0 pairs i i.store
  | unify {n v : Nat} {known goal : Term} {rest : List (Term × Term)} {i : Instance} {s' : Store}
      (hv : i.memo.find? v = some known) (h : UnifyPasses false n [(known, goal)] i.store s') :
      MatchPasses (n + 1) ((.var v, goal) :: rest) i s'
  | fail {fuel : Nat} {source goal : Term} {rest : List (Term × Term)} {supply supply' : Supply}
      {e : UnifyError} {i i' : Instance}
      (h : matchStep fuel source goal supply i = .ok ((.error e, supply'), i')) :
      MatchPasses 1 ((source, goal) :: rest) i i'.store
  | round {n fuel : Nat} {source goal : Term} {rest : List (Term × Term)}
      {supply supply' : Supply} {m : Matched} {i i' : Instance} {s' : Store}
      (h : matchStep fuel source goal supply i = .ok ((.ok m, supply'), i'))
      (later : MatchPasses n (m.left ++ rest) i' s') :
      MatchPasses (n + 1) ((source, goal) :: rest) i s'

/-- The store `s'` is one that the matching of arguments, pair by pair, comes by after `n` rounds of
one of its walks. -/
inductive CallPasses : Nat → List (Term × Term) → Instance → Store → Prop where
  | within {n : Nat} {q : Term × Term} {rest : List (Term × Term)} {i : Instance} {s' : Store}
      (h : MatchPasses n [q] i s') : CallPasses n (q :: rest) i s'
  | next {n fuel : Nat} {source goal copied : Term} {rest : List (Term × Term)}
      {supply supply' : Supply} {i i' : Instance} {s' : Store}
      (h : copyAndUnify fuel source goal supply i = .ok ((.ok copied, supply'), i'))
      (later : CallPasses n rest i' s') : CallPasses n ((source, goal) :: rest) i s'

end Horn
