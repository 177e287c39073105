import Horn.Proofs.Changes

/-!
# What the engine does to a store

The engine reads a store as it likes, but changes it by allocating and binding only, and each change
is in the journal. `Store.Recorded` is the relation between a store and what it becomes; every
program of the engine stays inside it, whether it succeeds, fails to unify or gives up half-way
through its arguments.

- `Store.Recorded`: reached by allocations and bindings of allocated variables.
- `Records`: a program stays inside `Store.Recorded`.
- `BuildRecords`: the same for a program that takes node identities.
- `basicsRecord`: the basic programs of the engine do, and so all others.
-/

namespace Horn

namespace Store

/-- The store after an allocation. -/
def allocated (s : Store) : Store :=
  { cells := s.cells.push none, journal := .alloc s.cells.size :: s.journal }

/-- The store after a binding. -/
def bound (s : Store) (v : Nat) (value : Term) : Store :=
  { cells := s.cells.setIfInBounds v (some value), journal := .bind v value :: s.journal }

theorem size_bound {s : Store} {v : Nat} {value : Term} :
    (s.bound v value).cells.size = s.cells.size := Array.size_setIfInBounds

/-- What a store can become: variables are allocated, and allocated variables are bound. -/
inductive Recorded (s : Store) : Store → Prop where
  | refl : Recorded s s
  | alloc {t : Store} : Recorded s t → Recorded s t.allocated
  | bind {t : Store} (v : Nat) (value : Term) :
      Recorded s t → v < t.cells.size → Recorded s (t.bound v value)

/-- What is recorded in two stretches is recorded in one. -/
theorem Recorded.trans {s t u : Store} (h : Recorded s t) (h' : Recorded t u) : Recorded s u := by
  induction h' with
  | refl => exact h
  | alloc _ ih => exact .alloc ih
  | bind v value _ hv ih => exact .bind v value ih hv

instance : Store.Change Recorded where
  refl _ := .refl
  trans := Recorded.trans

theorem bind_run {s : Store} {v : Nat} (value : Term) (h : v < s.cells.size) :
    Store.bind v value s = .ok ((), s.bound v value) := if_pos h

theorem read_run {s : Store} {v : Nat} {binding : Option Term} (h : s.cells[v]? = some binding) :
    Store.read v s = .ok (binding, s) := by
  simp [Store.read, Cells.read, h]

/-- Reading leaves the store alone. -/
theorem eq_of_read {s s' : Store} {v : Nat} {binding : Option Term}
    (h : Store.read v s = .ok (binding, s')) : s' = s ∧ s.cells[v]? = some binding := by
  unfold Store.read Cells.read at h
  cases hv : s.cells[v]? with
  | none => rw [hv] at h; cases h
  | some b => rw [hv] at h; cases h; exact ⟨rfl, rfl⟩

/-- Resolving leaves the store as it is. -/
theorem eq_of_resolve {s s' : Store} {t r : Term} (h : Store.resolve t s = .ok (r, s')) :
    s' = s ∧ s.cells.resolve t = .ok r := by
  unfold Store.resolve at h
  cases hr : s.cells.resolve t with
  | error e => rw [hr] at h; cases h
  | ok b => rw [hr] at h; cases h; exact ⟨rfl, rfl⟩

end Store

/-! ## Programs that keep to the journal -/

/-- Whenever the program ends, the store that it started from has become the one it leaves by
recorded changes. `view` is where the program keeps its store. -/
def Records {σ α : Type} (view : σ → Store) (x : Run σ α) : Prop :=
  ∀ s a s', x s = .ok (a, s') → (view s).Recorded (view s')

/-- The same for a program that builds nodes, whatever identities are left. -/
def BuildRecords {σ α : Type} (view : σ → Store) (x : Build σ α) : Prop :=
  ∀ supply, Records view (x supply)

section Actions

theorem records_alloc : Records id Store.alloc := by
  intro s v s' h
  cases h
  exact .alloc .refl

theorem records_bind (v : Nat) (value : Term) : Records id (Store.bind v value) := by
  intro s u s' h
  by_cases hv : v < s.cells.size
  · rw [Store.bind_run value hv] at h
    cases h
    exact .bind v value .refl hv
  · simp [Store.bind, hv] at h

theorem records_read (v : Nat) : Records id (Store.read v) :=
  Keeps.of_eq fun _ _ _ h => (Store.eq_of_read h).1

theorem records_resolve (t : Term) : Records id (Store.resolve t) :=
  Keeps.of_eq fun _ _ _ h => (Store.eq_of_resolve h).1

theorem records_size : Records id Store.size :=
  Keeps.of_eq fun _ _ _ h => by cases h; rfl

end Actions

/-! ## The basic programs -/

theorem records_shorten (result : Term) : ∀ fuel v, Records id (shorten result fuel v)
  | 0, _ => Keeps.pure ()
  | fuel + 1, v => by
    refine Keeps.bind (records_read v) fun binding => ?_
    rcases binding with _ | t
    · exact Keeps.pure ()
    · cases t with
      | var next =>
        dsimp only
        split
        · exact Keeps.pure ()
        · exact Keeps.bind (records_bind v result) fun _ => records_shorten result fuel next
      | _ => exact Keeps.pure ()

/-- Dereferencing resolves the term and shortens its chain. -/
theorem records_deref (t : Term) : Records id (deref t) := by
  cases t with
  | var v =>
    exact Keeps.bind (records_resolve _) fun result => Keeps.bind records_size fun n =>
      Keeps.bind (records_shorten result (n + 1) v) fun _ => Keeps.pure result
  | _ => exact Keeps.pure _

theorem records_bindVar (fuel : Nat) (occursCheck : Bool) (v : Nat) (value : Term) :
    Records id (bindVar fuel occursCheck v value) := by
  have hbind : Records id (liftM (Store.bind v value) : Attempt Unit) :=
    Attempt.keeps_lift (records_bind v value)
  unfold bindVar
  cases occursCheck with
  | false => exact hbind
  | true =>
    refine Attempt.keeps_bind
      (Attempt.keeps_lift (keeps_searchVar records_deref v fuel [value])) ?_
    rintro (_ | _)
    · exact hbind
    · exact Attempt.keeps_bind (Attempt.keeps_throw _) fun _ => hbind

theorem records_unifyStep (fuel : Nat) (occursCheck : Bool) (a b : Term) :
    Records id (unifyStep fuel occursCheck a b) := by
  have hpure : ∀ more : List (Term × Term), Records id (pure more : Attempt _) :=
    fun _ => Keeps.pure _
  have hbind : ∀ v value, Records id
      (bindVar fuel occursCheck v value >>= fun _ => pure [] : Attempt (List (Term × Term))) :=
    fun v value => Attempt.keeps_bind (records_bindVar fuel occursCheck v value)
      fun _ => hpure []
  refine Attempt.keeps_bind (Attempt.keeps_lift (records_deref a)) fun a => ?_
  refine Attempt.keeps_bind (Attempt.keeps_lift (records_deref b)) fun b => ?_
  split
  · split
    · exact hpure []
    · exact hbind _ _
  · exact hbind _ _
  · exact hbind _ _
  · split
    · exact hpure _
    · exact Attempt.keeps_throw _
  · split
    · exact hpure []
    · exact Attempt.keeps_throw _

open Instantiation in
theorem records_matchStep (fuel : Nat) (source goal : Term) :
    BuildRecords Instance.store (matchStep fuel source goal) := by
  cases source with
  | var v =>
    -- what a known variable stands for is unified with the goal
    have hunify : ∀ t, Records id (unify fuel false t goal) := fun t =>
      keeps_unifyPairs (fun fuel => records_unifyStep fuel false) fuel [(t, goal)]
    refine keeps_bind (keeps_liftRun keeps_get) fun i => ?_
    split
    · refine keeps_bind (keeps_liftRun (keeps_onStore (hunify _))) ?_
      rintro (e | u)
      · exact keeps_throw e
      · exact keeps_pure _
    · exact keeps_bind (keeps_liftRun (keeps_remember v goal)) fun _ => keeps_pure _
  | _ =>
    refine keeps_bind (keeps_liftRun (keeps_onStore (records_deref goal))) fun goal => ?_
    split
    · exact keeps_bind (keeps_lift (keeps_copy records_alloc _)) fun copied =>
        keeps_bind (keeps_liftRun (keeps_onStore (records_bind _ copied))) fun _ => keeps_pure _
    · split
      · exact keeps_pure _
      · exact keeps_throw _
    · split
      · exact keeps_pure _
      · exact keeps_throw _

/-- **The basic operations record what they write.** -/
theorem basicsRecord : BasicsKeep Store.Recorded :=
  ⟨records_deref, records_alloc, records_unifyStep, records_matchStep⟩

end Horn
