import Horn.Clause
import Horn.Order
import Horn.Proofs.Programs

/-!
# What the engine makes of a store

A statement that every program of the engine changes a store in some way only is proved from what
the basic programs do: all others are made of them. So the programs are gone through once, for any
relation between stores that goes on from one program to the next.

- `Store.Change`: the relations that this is about.
- `Keeps`, `BuildKeeps`: a program keeps to a kind of change. One lemma for each program that is
  made of others.
- `BasicsKeep`: what has to be known of the basic programs.
-/

namespace Horn

/-- A kind of change: nothing may happen, and one change may follow another. -/
class Store.Change (R : Store → Store → Prop) : Prop where
  refl (s : Store) : R s s
  trans {s t u : Store} : R s t → R t u → R s u

variable {R : Store → Store → Prop}

/-- Whenever the program ends, the store that it started from has been changed as `R` says. `view`
is where the program keeps its store. -/
def Keeps (R : Store → Store → Prop) {σ α : Type} (view : σ → Store) (x : Run σ α) : Prop :=
  ∀ s a s', x s = .ok (a, s') → R (view s) (view s')

/-- The same for a program that builds nodes, whatever identities are left. -/
def BuildKeeps (R : Store → Store → Prop) {σ α : Type} (view : σ → Store) (x : Build σ α) : Prop :=
  ∀ supply, Keeps R view (x supply)

section Laws

variable [Store.Change R] {σ α β : Type} {view : σ → Store}

namespace Keeps

theorem pure (a : α) : Keeps R view (Pure.pure a : Run σ α) := by
  intro s b s' h
  cases h
  exact Store.Change.refl _

omit [Store.Change R] in
theorem fail (f : Fault) : Keeps R view (Run.fail f : Run σ α) := by
  intro s b s' h
  cases h

theorem bind {x : Run σ α} {f : α → Run σ β} (hx : Keeps R view x)
    (hf : ∀ a, Keeps R view (f a)) : Keeps R view (x >>= f) := by
  intro s b s' h
  obtain ⟨a, s₁, h₁, h₂⟩ := Run.bind_eq_ok.mp h
  exact Store.Change.trans (hx s a s₁ h₁) (hf a s₁ b s' h₂)

/-- A program that leaves the store as it is. -/
theorem of_eq {x : Run σ α} (h : ∀ s a s', x s = .ok (a, s') → view s' = view s) :
    Keeps R view x := by
  intro s a s' hx
  rw [h s a s' hx]
  exact Store.Change.refl _

end Keeps

namespace BuildKeeps

theorem pure (a : α) : BuildKeeps R view (Pure.pure a : Build σ α) :=
  fun supply => Keeps.pure (a, supply)

theorem bind {x : Build σ α} {f : α → Build σ β} (hx : BuildKeeps R view x)
    (hf : ∀ a, BuildKeeps R view (f a)) : BuildKeeps R view (x >>= f) :=
  fun supply => Keeps.bind (hx supply) fun r => hf r.1 r.2

theorem lift {x : Run σ α} (hx : Keeps R view x) : BuildKeeps R view (liftM x : Build σ α) :=
  fun supply => Keeps.bind hx fun a => Keeps.pure (a, supply)

/-- A first part that may fail to unify: on failure nothing follows. -/
theorem bindCont {x : Build σ (Except UnifyError α)} {f : α → ExceptT UnifyError (Build σ) β}
    (hx : BuildKeeps R view x) (hf : ∀ a, BuildKeeps R view (f a)) :
    BuildKeeps R view (ExceptT.bind (ExceptT.mk x) f) := by
  refine bind hx ?_
  rintro (e | a)
  · exact pure _
  · exact hf a

end BuildKeeps

namespace Attempt

theorem keeps_throw (e : UnifyError) : Keeps R id (throw e : Attempt α) := by
  intro s b s' h
  cases h
  exact Store.Change.refl _

omit [Store.Change R] in
theorem keeps_lift {x : Run Store α} (hx : Keeps R id x) : Keeps R id (liftM x : Attempt α) := by
  intro s b s' h
  obtain ⟨a, _, h₁, h₂⟩ := Attempt.lift_eq_ok.mp h
  cases h₂
  exact hx s a s' h₁

/-- What a failed first part has changed stays so. -/
theorem keeps_bind {x : Attempt α} {f : α → Attempt β} (hx : Keeps R id x)
    (hf : ∀ a, Keeps R id (f a)) : Keeps R id (x >>= f : Attempt β) := by
  intro s b s' h
  rcases Attempt.bind_eq_ok.mp h with ⟨a, s₁, h₁, h₂⟩ | ⟨e, s₁, h₁, h₂⟩
  · exact Store.Change.trans (hx s _ s₁ h₁) (hf a s₁ b s' h₂)
  · cases h₂
    exact hx s _ s' h₁

end Attempt

namespace Instantiation

theorem keeps_pure (a : α) : BuildKeeps R Instance.store (pure a : Instantiation α) :=
  BuildKeeps.pure _

theorem keeps_throw (e : UnifyError) : BuildKeeps R Instance.store (throw e : Instantiation α) :=
  BuildKeeps.pure _

theorem keeps_bind {x : Instantiation α} {f : α → Instantiation β}
    (hx : BuildKeeps R Instance.store x) (hf : ∀ a, BuildKeeps R Instance.store (f a)) :
    BuildKeeps R Instance.store (x >>= f : Instantiation β) :=
  BuildKeeps.bindCont hx hf

theorem keeps_lift {x : Build Instance α} (hx : BuildKeeps R Instance.store x) :
    BuildKeeps R Instance.store (liftM x : Instantiation α) :=
  BuildKeeps.bind hx fun a => BuildKeeps.pure (Except.ok a)

theorem keeps_liftRun {x : Run Instance α} (hx : Keeps R Instance.store x) :
    BuildKeeps R Instance.store (liftM x : Instantiation α) :=
  keeps_lift (BuildKeeps.lift hx)

end Instantiation

end Laws

/-! ## Programs on a store -/

/-- A program on the store of an instance changes that store only. -/
theorem keeps_onStore {α : Type} {x : Run Store α} (hx : Keeps R id x) :
    Keeps R Instance.store (onStore x) := by
  intro i a i' h
  unfold onStore at h
  cases hs : x i.store with
  | error e => rw [hs] at h; cases h
  | ok r =>
    rw [hs] at h
    cases h
    exact hx _ _ _ hs

theorem keeps_withMemo {α : Type} (memo : Memo) {x : Build Instance α}
    (hx : BuildKeeps R Instance.store x) : BuildKeeps R id (withMemo memo x) := by
  intro supply s r s' h
  unfold withMemo at h
  cases hi : x supply { store := s, memo } with
  | error e => rw [hi] at h; cases h
  | ok r =>
    rw [hi] at h
    cases h
    exact hx supply _ _ _ hi

section Programs

variable [Store.Change R] {σ : Type} {view : σ → Store}

theorem keeps_withNewMemo {α : Type} {x : Build Instance α}
    (hx : BuildKeeps R Instance.store x) : BuildKeeps R id (Clause.withNewMemo x) :=
  BuildKeeps.bind (keeps_withMemo {} hx) fun r => .pure r.1

theorem keeps_remember (v : Nat) (t : Term) : Keeps R Instance.store (remember v t) :=
  .of_eq fun _ _ _ h => by cases h; rfl

theorem keeps_get : Keeps R Instance.store (get : Run Instance Instance) :=
  .of_eq fun _ _ _ h => by cases h; rfl

/-- **The loop of unification** keeps what its steps keep. -/
theorem keeps_unifyPairs {occursCheck : Bool}
    (hstep : ∀ fuel a b, Keeps R id (unifyStep fuel occursCheck a b)) :
    ∀ fuel pairs, Keeps R id (unifyPairs occursCheck fuel pairs)
  | 0, [] => Keeps.pure _
  | _ + 1, [] => Keeps.pure _
  | 0, _ :: _ => Attempt.keeps_lift (.fail _)
  | fuel + 1, (a, b) :: rest =>
    Attempt.keeps_bind (hstep fuel a b) fun more => keeps_unifyPairs hstep fuel (more ++ rest)

/-! Building nodes does not touch the store. -/

theorem keeps_newNode (functor : Atom) (done : List Term) (last : Term) :
    BuildKeeps R view (newNode functor done last : Build σ Term) :=
  fun _ => Keeps.pure _

theorem keeps_close (share : Bool) (f : Frame) (last : Term) :
    BuildKeeps R view (f.close share last : Build σ Term) := by
  unfold Frame.close
  dsimp only
  split
  · exact .pure _
  · exact keeps_newNode _ _ _

theorem keeps_climb (share : Bool) : ∀ (result : Term) (frames : List Frame),
    BuildKeeps R view (climb share result frames : Build σ _)
  | result, [] => .pure _
  | result, f :: outer => by
    unfold climb
    split
    · exact .pure _
    · exact .bind (keeps_close share f result) fun closed => keeps_climb share closed outer

/-- **Rebuilding** keeps what its visits keep, as frames are closed without looking at the state. -/
theorem keeps_rebuildIn (share : Bool) {visit : Term → Run σ Visit}
    (hvisit : ∀ t, Keeps R view (visit t)) :
    ∀ fuel t frames, BuildKeeps R view (rebuildIn share visit fuel t frames)
  | 0, _, _ => .lift (.fail _)
  | fuel + 1, t, frames => by
    refine .bind (.lift (hvisit t)) ?_
    rintro (result | node)
    · refine .bind (keeps_climb share result frames) ?_
      rintro (whole | ⟨next, frames⟩)
      · exact .pure whole
      · exact keeps_rebuildIn share hvisit fuel next frames
    · exact keeps_rebuildIn share hvisit fuel _ _

theorem keeps_climbMatch : ∀ (copied : Term) (frames : List MatchFrame),
    BuildKeeps R Instance.store (climbMatch copied frames)
  | copied, [] => .pure _
  | copied, f :: outer => by
    unfold climbMatch
    split
    · exact .pure _
    · exact .bind (keeps_newNode _ _ _) fun node => keeps_climbMatch node outer

/-! Programs that read the store do so by dereferencing. -/

section Reading

variable (hderef : ∀ t, Keeps R id (deref t))
include hderef

theorem keeps_searchVar (v : Nat) : ∀ fuel ts, Keeps R id (searchVar v fuel ts)
  | 0, [] => .pure false
  | _ + 1, [] => .pure false
  | 0, _ :: _ => .fail _
  | fuel + 1, t :: rest => by
    refine .bind (hderef t) fun r => ?_
    cases r with
    | var w =>
      dsimp only
      split
      · exact .pure true
      · exact keeps_searchVar v fuel rest
    | compound _ _ x xs => exact keeps_searchVar v fuel _
    | _ => exact keeps_searchVar v fuel rest

theorem keeps_comparePairs : ∀ fuel pairs, Keeps R id (comparePairs fuel pairs)
  | 0, [] => .pure Ordering.eq
  | _ + 1, [] => .pure Ordering.eq
  | 0, _ :: _ => .fail _
  | fuel + 1, (a, b) :: rest => by
    refine .bind (hderef a) fun a => .bind (hderef b) fun b => ?_
    split
    · exact keeps_comparePairs fuel _
    · exact .pure _

theorem keeps_value (fuel : Nat) (t : Term) : BuildKeeps R id (value fuel t) := by
  refine keeps_rebuildIn true (fun t => ?_) fuel t []
  cases t with
  | var v =>
    refine .bind (hderef _) fun r => ?_
    cases r <;> exact .pure _
  | _ => exact .pure _

theorem keeps_hashesAllow : ∀ pairs, Keeps R id (Clause.hashesAllow pairs)
  | [] => .pure true
  | (hash, arg) :: rest => by
    refine .bind (hderef arg) fun arg => ?_
    split
    · exact keeps_hashesAllow rest
    · exact .pure false

theorem keeps_mayUnify (c : Clause) (goal : Term) : Keeps R id (c.mayUnify goal) :=
  .bind (hderef goal) fun _ => keeps_hashesAllow hderef _

end Reading

/-! Copying allocates, and matching is a series of steps. -/

/-- A copy only allocates. -/
theorem keeps_copy (halloc : Keeps R id Store.alloc) (t : Term) :
    BuildKeeps R Instance.store (copy t) := by
  refine keeps_rebuildIn false (fun t => ?_) t.size t []
  cases t with
  | var v =>
    refine .bind keeps_get fun i => ?_
    split
    · exact .pure _
    · exact .bind (keeps_onStore halloc) fun w =>
        .bind (keeps_remember v (.var w)) fun _ => .pure _
  | _ => exact .pure _

section Matching

open Instantiation

variable (hstep : ∀ fuel source goal, BuildKeeps R Instance.store (matchStep fuel source goal))
include hstep

/-- The fused walk keeps what its steps keep. -/
theorem keeps_matchIn : ∀ fuel pair frames,
    BuildKeeps R Instance.store (matchIn fuel pair frames)
  | 0, _, _ => keeps_liftRun (.fail _)
  | fuel + 1, (source, goal), frames => by
    refine keeps_bind (hstep fuel source goal) ?_
    rintro (copied | ⟨functor, first, rest⟩)
    · refine keeps_bind (keeps_lift (keeps_climbMatch copied frames)) ?_
      rintro (whole | ⟨next, frames⟩)
      · exact keeps_pure whole
      · exact keeps_matchIn fuel next frames
    · exact keeps_matchIn fuel first _

theorem keeps_copyAndUnify (fuel : Nat) (source goal : Term) :
    BuildKeeps R Instance.store (copyAndUnify fuel source goal) :=
  keeps_matchIn hstep fuel (source, goal) []

theorem keeps_matchAll (fuel : Nat) : ∀ pairs,
    BuildKeeps R Instance.store (Clause.matchAll fuel pairs)
  | [] => keeps_pure ()
  | (source, goal) :: rest =>
    keeps_bind (keeps_bind (keeps_copyAndUnify hstep fuel source goal) fun _ => keeps_pure _)
      fun _ => keeps_matchAll fuel rest

theorem keeps_instantiate (halloc : Keeps R id Store.alloc) (fuel : Nat) (c : Clause)
    (goal : Term) : BuildKeeps R Instance.store (c.instantiate fuel goal) := by
  refine keeps_bind (keeps_matchAll hstep fuel _) fun _ => ?_
  cases c.body with
  | none => exact keeps_pure none
  | some body =>
    exact keeps_bind (keeps_lift (keeps_copy halloc body)) fun copied => keeps_pure (some copied)

/-- **A resolution step** dereferences the goal, matches and copies. -/
theorem keeps_call (hderef : ∀ t, Keeps R id (deref t)) (halloc : Keeps R id Store.alloc)
    (fuel : Nat) (c : Clause) (goal : Term) : BuildKeeps R id (c.call fuel goal) := by
  refine BuildKeeps.bindCont (BuildKeeps.bind (BuildKeeps.lift (hderef goal))
    fun g => BuildKeeps.pure (Except.ok g)) fun g => ?_
  split
  · exact keeps_withNewMemo (keeps_instantiate hstep halloc fuel c g)
  · intro _ _ _ _ h
    cases h

end Matching

end Programs

/-- The programs that all others are made of keep to a kind of change. -/
structure BasicsKeep (R : Store → Store → Prop) : Prop where
  deref : ∀ t, Keeps R id (deref t)
  alloc : Keeps R id Store.alloc
  unifyStep : ∀ fuel occursCheck a b, Keeps R id (unifyStep fuel occursCheck a b)
  matchStep : ∀ fuel source goal, BuildKeeps R Instance.store (matchStep fuel source goal)

end Horn
