import Horn.Proofs.Locality
import Horn.Proofs.Safety

/-!
# What a program changes

A part of a store that bindings do not leave, and from which the terms of a program are taken, is
all that it reads and writes, together with the cells that it allocates. This holds however the
program ends, as each write is confined when it is made. For the programs that work on a store alone
it is what is known of their runs on two stores that agree there, taken for one store and itself.

- `Store.Touches`: changes within a region; `Store.Touches.written` reads them off the journal.
- `Upholds`: an invariant that a program keeps, with what it returns, and the laws by which
  sequences do so.
- `Store.Regional`: what has to be known of the invariant.
- `StepsUphold`: what the steps of the fused walk have to keep for a walk to keep it.
- `upholds_unify`, `upholds_copyAndUnify`, `Clause.upholds_call`: the programs of the engine.
- `Store.Confined.roomy`: a region with room for what is not yet allocated.
-/

namespace Horn

variable {region : Set Nat} {s₀ s s' : Store} {t r goal : Term} {v w : Nat}

/-! ## Changes within a region -/

/-- Changes of a store that are made in the region and write terms of the region. -/
inductive Store.Touches (region : Set Nat) (s : Store) : Store → Prop where
  | refl : Touches region s s
  | alloc {t : Store} (h : Touches region s t) (hv : t.cells.size ∈ region) :
      Touches region s t.allocated
  | bind {t : Store} {v : Nat} {value : Term} (h : Touches region s t) (hlt : v < t.cells.size)
      (hv : v ∈ region) (hvalue : value.Inside region) : Touches region s (t.bound v value)

namespace Store.Touches

theorem size_le (h : s.Touches region s') : s.cells.size ≤ s'.cells.size := by
  induction h with
  | refl => exact Nat.le_refl _
  | alloc _ _ ih => exact Nat.le_trans ih (Cells.Extended.push _).le
  | bind _ _ _ _ ih => exact Nat.le_trans ih (Nat.le_of_eq size_bound.symm)

/-- What gets bound is in the region. -/
theorem bound (h : s.Touches region s') (hv : s'.cells.Bound v t) :
    v ∈ region ∨ ∃ u, s.cells.Bound v u := by
  induction h generalizing t with
  | refl => exact .inr ⟨t, hv⟩
  | alloc _ _ ih => exact ih ((Cells.Extended.push _).bound.mp hv)
  | bind _ hlt hw _ ih =>
    have hcases := (Cells.bound_set hlt).mp hv
    split at hcases
    · rename_i hvw
      exact .inl (hvw ▸ hw)
    · exact ih hcases

/-- A region stays closed under bindings while it is written in this way. -/
theorem confined (h : s.Touches region s') (hs : s.Confined region) : s'.Confined region := by
  induction h with
  | refl => exact hs
  | alloc _ _ ih => exact fun v hv t hbound => ih v hv t ((Cells.Extended.push _).bound.mp hbound)
  | bind _ hlt _ hvalue ih => exact ih.bound hlt hvalue

end Store.Touches

/-- The change is about the variable: it is allocated, or it is bound, or it occurs in the term that
is written. -/
def Event.Concerns : Event → Nat → Prop
  | .alloc v, w => w = v
  | .bind v value, w => w = v ∨ Term.Within (.var w) value

/-- The journal tells only of changes that concern the region. -/
theorem Store.Touches.written (h : s.Touches region s') :
    ∃ written, s'.journal = written ++ s.journal ∧
      ∀ e ∈ written, ∀ w, e.Concerns w → w ∈ region := by
  induction h with
  | refl => exact ⟨[], rfl, fun _ he => nomatch he⟩
  | @alloc t _ hv ih =>
    obtain ⟨written, hjournal, hall⟩ := ih
    refine ⟨.alloc t.cells.size :: written, congrArg (_ :: ·) hjournal, ?_⟩
    refine List.forall_mem_cons.mpr ⟨?_, hall⟩
    rintro w ⟨⟩
    exact hv
  | @bind t v value _ _ hv hvalue ih =>
    obtain ⟨written, hjournal, hall⟩ := ih
    refine ⟨.bind v value :: written, congrArg (_ :: ·) hjournal, ?_⟩
    refine List.forall_mem_cons.mpr ⟨?_, hall⟩
    rintro w (rfl | hw)
    · exact hv
    · exact hvalue _ hw

/-- What the journal tells of a well-formed store concerns variables that are allocated. -/
theorem Store.Grows.written_below (h : s.Grows s') (hs : s.cells.WellFormed) :
    ∃ written, s'.journal = written ++ s.journal ∧
      ∀ e ∈ written, ∀ w, e.Concerns w → w < s'.cells.size := by
  -- shortening a chain and binding are one kind of event, so both cases are this one
  have hbind : ∀ {t : Store} {v : Nat} {value : Term} {written : List Event},
      v < t.cells.size → value.Below t.cells.size → t.journal = written ++ s.journal →
        (∀ e ∈ written, ∀ w, e.Concerns w → w < t.cells.size) →
          ∃ written, (t.bound v value).journal = written ++ s.journal ∧
            ∀ e ∈ written, ∀ w, e.Concerns w → w < (t.bound v value).cells.size := by
    intro t v value written hv hvalue hjournal hall
    refine ⟨.bind v value :: written, congrArg (_ :: ·) hjournal, ?_⟩
    rw [size_bound]
    refine List.forall_mem_cons.mpr ⟨?_, hall⟩
    rintro w (rfl | hw)
    · exact hv
    · exact hvalue.lt hw
  -- the induction is on the changes; none of them drops cells, so what was below the size stays so
  induction h with
  | refl => exact ⟨[], rfl, fun _ he => nomatch he⟩
  | @alloc t _ ih =>
    obtain ⟨written, hjournal, hall⟩ := ih
    have hsize : t.allocated.cells.size = t.cells.size + 1 := Array.size_push _
    refine ⟨.alloc t.cells.size :: written, congrArg (_ :: ·) hjournal, ?_⟩
    rw [hsize]
    refine List.forall_mem_cons.mpr ⟨?_, fun e he w hw => Nat.lt_succ_of_lt (hall e he w hw)⟩
    rintro w ⟨⟩
    exact Nat.lt_succ_self _
  | @shorten t v w r h hv hr _ ih =>
    obtain ⟨written, hjournal, hall⟩ := ih
    have hbelow : r.Below t.cells.size :=
      Cells.Root.every (Cells.root_var.mpr hr) (h.wellFormed hs).closed (Term.below_var.mpr hv.lt)
    exact hbind hv.lt hbelow hjournal hall
  | bind _ hv _ hbelow _ ih =>
    obtain ⟨written, hjournal, hall⟩ := ih
    exact hbind hv.lt hbelow hjournal hall

/-! ## Programs that keep an invariant -/

section Laws

variable {σ α β : Type} {I : σ → Prop} {P : α → Prop} {Q : β → Prop}

/-- Whenever the program ends, the invariant holds on, and the result is as stated. -/
def Upholds (I : σ → Prop) (x : Run σ α) (Q : α → Prop) : Prop :=
  ∀ s a s', I s → x s = .ok (a, s') → I s' ∧ Q a

/-- The same for a program that builds nodes, whatever identities are left. -/
def BuildUpholds (I : σ → Prop) (x : Build σ α) (Q : α → Prop) : Prop :=
  ∀ supply, Upholds I (x supply) fun r => Q r.1

namespace Upholds

theorem pure {a : α} (h : P a) : Upholds I (Pure.pure a : Run σ α) P := by
  intro s b s' hs hrun
  cases hrun
  exact ⟨hs, h⟩

theorem fail (f : Fault) : Upholds I (Run.fail f : Run σ α) P := by
  intro s b s' hs hrun
  cases hrun

/-- A sequence upholds what each of its parts does, if the second part may rely on the result of the
first. -/
theorem bind {x : Run σ α} {f : α → Run σ β} (hx : Upholds I x P)
    (hf : ∀ a, P a → Upholds I (f a) Q) : Upholds I (x >>= f) Q := by
  intro s b s' hs hrun
  obtain ⟨a, s₁, hfirst, hrest⟩ := Run.bind_eq_ok.mp hrun
  obtain ⟨hs₁, ha⟩ := hx s a s₁ hs hfirst
  exact hf a ha s₁ b s' hs₁ hrest

end Upholds

/-- A program that does the same on a store with the invariant and on itself keeps the invariant. -/
theorem Coincides.upholds {x : Run Store α} {I : Store → Prop}
    (hx : Coincides (fun s u => u = s ∧ I s) x P) : Upholds I x P := by
  intro s a s' hs hrun
  have hends := hx s s ⟨rfl, hs⟩
  rw [hrun] at hends
  cases hends with
  | ok h ha => exact ⟨h.2, ha⟩

namespace BuildUpholds

theorem pure {a : α} (h : P a) : BuildUpholds I (Pure.pure a : Build σ α) P :=
  fun _ => Upholds.pure h

theorem bind {x : Build σ α} {f : α → Build σ β} (hx : BuildUpholds I x P)
    (hf : ∀ a, P a → BuildUpholds I (f a) Q) : BuildUpholds I (x >>= f) Q :=
  fun supply => Upholds.bind (hx supply) fun r hr => hf r.1 hr r.2

theorem lift {x : Run σ α} (hx : Upholds I x P) : BuildUpholds I (liftM x : Build σ α) P :=
  fun supply => Upholds.bind (f := fun a => Pure.pure (a, supply)) hx fun _ ha => Upholds.pure ha

/-- A first part that may fail to unify: on failure nothing follows. -/
theorem bindCont {x : Build σ (Except UnifyError α)} {f : α → ExceptT UnifyError (Build σ) β}
    (hx : BuildUpholds I x (IfUnified P)) (hf : ∀ a, P a → BuildUpholds I (f a) (IfUnified Q)) :
    BuildUpholds I (ExceptT.bind (ExceptT.mk x) f) (IfUnified Q) := by
  refine bind hx ?_
  rintro (e | a) ha
  · exact pure (ifUnified_error e)
  · exact hf a (ha a rfl)

end BuildUpholds

namespace Instantiation

variable {J : Instance → Prop}

theorem upholds_pure {a : α} (h : P a) :
    BuildUpholds J (pure a : Instantiation α) (IfUnified P) := BuildUpholds.pure (ifUnified_ok h)

theorem upholds_throw (e : UnifyError) :
    BuildUpholds J (throw e : Instantiation α) (IfUnified P) :=
  BuildUpholds.pure (ifUnified_error e)

theorem upholds_bind {x : Instantiation α} {f : α → Instantiation β}
    (hx : BuildUpholds J x (IfUnified P)) (hf : ∀ a, P a → BuildUpholds J (f a) (IfUnified Q)) :
    BuildUpholds J (x >>= f : Instantiation β) (IfUnified Q) := BuildUpholds.bindCont hx hf

theorem upholds_lift {x : Build Instance α} (hx : BuildUpholds J x P) :
    BuildUpholds J (liftM x : Instantiation α) (IfUnified P) :=
  BuildUpholds.bind hx fun _ ha => BuildUpholds.pure (ifUnified_ok ha)

theorem upholds_liftRun {x : Run Instance α} (hx : Upholds J x P) :
    BuildUpholds J (liftM x : Instantiation α) (IfUnified P) :=
  upholds_lift (BuildUpholds.lift hx)

end Instantiation

end Laws

/-! ## Programs on a store -/

/-- An invariant of stores with the given region, which is kept by writes in it. -/
structure Store.Regional (region : Set Nat) (I : Store → Prop) : Prop where
  confined : ∀ s, I s → s.Confined region
  write : ∀ s v t, I s → v < s.cells.size → v ∈ region → t.Inside region → I (s.bound v t)

/-- The region has room for new variables as well, and these may be allocated. -/
structure Store.Roomy (region : Set Nat) (I : Store → Prop) : Prop extends
    Store.Regional region I where
  fresh : ∀ s, I s → ∀ v, s.cells.size ≤ v → v ∈ region
  alloc : ∀ s, I s → I s.allocated

/-- Allocating variables keeps the invariant of a region that has room for them. -/
theorem Store.Roomy.allocates {I : Store → Prop} (hI : Store.Roomy region I) (h : s.Allocates s')
    (hs : I s) : I s' := by
  induction h with
  | refl => exact hs
  | alloc _ ih => exact hI.alloc _ ih

section Confined

variable {I : Store → Prop} (hI : Store.Regional region I)
include hI

/-- A store with the invariant can be written together with itself. -/
theorem Store.Regional.joint : Store.Joint region fun s u => u = s ∧ I s where
  size _ _ h := h.1 ▸ rfl
  cells _ _ h _ _ := h.1 ▸ rfl
  confined s _ h := hI.confined s h.2
  write s _ v t h hlt hv ht := ⟨h.1 ▸ rfl, hI.write s v t h.2 hlt hv ht⟩

/-- A write in the region is what the invariant allows for. -/
theorem upholds_write (hv : v ∈ region) (ht : t.Inside region) :
    Upholds I (Store.bind v t) fun _ => True :=
  (coincides_write hI.joint hv ht).upholds

theorem upholds_deref (ht : t.Inside region) : Upholds I (deref t) (Term.Inside region) :=
  (coincides_deref hI.joint ht).upholds

/-- **Unification** writes only what its terms reach. -/
theorem upholds_unify (fuel : Nat) (occursCheck : Bool) {a b : Term} (ha : a.Inside region)
    (hb : b.Inside region) :
    Upholds I (unify fuel occursCheck a b) (IfUnified fun _ => True) :=
  (coincides_unify hI.joint fuel occursCheck ha hb).upholds

end Confined

theorem Term.inside_univ (t : Term) : t.Inside Set.univ := Term.inside_of_forall fun _ _ => trivial

/-- What depends on the number of cells only is kept by any write. -/
theorem Store.regional_of_size {I : Store → Prop}
    (hI : ∀ s t, t.cells.size = s.cells.size → I s → I t) : Store.Regional Set.univ I where
  confined _ _ _ _ _ _ := Term.inside_univ _
  write s v t hs _ _ _ := hI s (s.bound v t) size_bound hs

/-- Unification allocates nothing. -/
theorem size_of_unify {fuel : Nat} {occursCheck : Bool} {a b : Term}
    {result : Except UnifyError Unit} (h : unify fuel occursCheck a b s = .ok (result, s')) :
    s'.cells.size = s.cells.size := by
  have hI : Store.Regional Set.univ fun t => t.cells.size = s.cells.size :=
    Store.regional_of_size fun _ _ => Eq.trans
  exact (upholds_unify hI fuel occursCheck a.inside_univ b.inside_univ s result s' rfl h).1

/-! ## Instances -/

/-- A store for which the invariant holds, and a memo of terms of the region. -/
structure Instance.Guarded (region : Set Nat) (I : Store → Prop) (i : Instance) : Prop where
  store : I i.store
  memo : ∀ v t, i.memo.find? v = some t → t.Inside region

theorem Instance.Guarded.empty {I : Store → Prop} (hs : I s) :
    Guarded region I { store := s, memo := {} } := ⟨hs, fun _ _ h => nomatch h⟩

section Roomy

variable {I : Store → Prop} (hI : Store.Roomy region I)

/-- A program on the store leaves the memo as it is. -/
theorem upholds_onStore {α : Type} {J : Instance → Prop} {x : Run Store α} {P : α → Prop}
    (hx : ∀ memo, Upholds (fun s => J { store := s, memo }) x P) : Upholds J (onStore x) P := by
  intro i a i' hi hrun
  unfold onStore at hrun
  cases hx' : x i.store with
  | error f =>
    rw [hx'] at hrun
    cases hrun
  | ok r =>
    rw [hx'] at hrun
    cases hrun
    exact hx i.memo _ _ _ hi hx'

/-- A program that upholds the invariant of the store leaves the memo as it is. -/
theorem Upholds.guarded {α : Type} {x : Run Store α} {P : α → Prop} (hx : Upholds I x P)
    (memo : Memo) : Upholds (fun s => Instance.Guarded region I { store := s, memo }) x P := by
  intro s a s' hs hrun
  obtain ⟨hstore, ha⟩ := hx s a s' hs.store hrun
  exact ⟨⟨hstore, hs.memo⟩, ha⟩

include hI in
/-- **A copy** has no variables but those that the memo has and new ones, whatever variables there
are in the source. -/
theorem upholds_copy (source : Term) :
    BuildUpholds (Instance.Guarded region I) (copy source) (Term.Inside region) := by
  intro supply i r i' hi hrun
  obtain ⟨i₁, hcopy, henters, hknown⟩ := copy_run source supply i
  cases hcopy.symm.trans hrun
  -- an entry is an old one, or a new cell, and a new cell is in the region
  have hmemo : ∀ v t, i'.memo.find? v = some t → t.Inside region := by
    intro v t hv
    cases hold : i.memo.find? v with
    | some u =>
      cases (henters.known v u hold).symm.trans hv
      exact hi.memo v t hold
    | none =>
      obtain ⟨w, rfl, hle, -⟩ := henters.fresh v t hold hv
      exact .of_leaf (hI.fresh _ hi.store w hle) rfl
  refine ⟨⟨hI.allocates henters.allocates hi.store, hmemo⟩, ?_⟩
  refine Term.copied_every source (fun u hu => ?_) fun _ _ _ _ _ _ => trivial
  cases u with
  | var v =>
    obtain ⟨t, ht⟩ := Option.isSome_iff_exists.mp ((hknown v).mpr (.inr hu))
    show (i'.memo.image v).Inside region
    exact Memo.image_of_find? ht ▸ hmemo v t ht
  | _ => trivial

/-- The goals of the pairs are in the region. Their sources may have any variables. -/
def GoalsInside (region : Set Nat) (pairs : List (Term × Term)) : Prop :=
  ∀ q ∈ pairs, q.2.Inside region

/-- No pair is left of one that has been dealt with. -/
theorem goalsInside_done (copied : Term) : GoalsInside region (Matched.done copied).left :=
  fun _ hq => nomatch hq

include hI in
/-- A variable of the source stands for the goal, or for what it stood for before. -/
theorem upholds_matchStep_var (fuel v : Nat) (hgoal : goal.Inside region) :
    BuildUpholds (Instance.Guarded region I) (matchStep fuel (.var v) goal)
      (IfUnified fun m => GoalsInside region m.left) := by
  intro supply i r i' hi hrun
  cases hv : i.memo.find? v with
  | some known =>
    rw [matchStep_known fuel hv] at hrun
    -- what the variable stands for came from the goal, so it is in the region
    have hunify : Upholds (Instance.Guarded region I) (onStore (unify fuel false known goal))
        (IfUnified fun _ => True) :=
      upholds_onStore (upholds_unify hI.toRegional fuel false (hi.memo v known hv) hgoal).guarded
    refine Instantiation.upholds_bind (Instantiation.upholds_liftRun hunify) ?_ supply i r i'
      hi hrun
    rintro (e | u) _
    · exact Instantiation.upholds_throw e
    · exact Instantiation.upholds_pure (goalsInside_done _)
  | none =>
    cases (matchStep_new fuel hv).symm.trans hrun
    refine ⟨⟨hi.store, fun w t hw => ?_⟩, ifUnified_ok (goalsInside_done _)⟩
    rcases (VarTable.find?_insert_iff hv).mp hw with ⟨-, rfl⟩ | hold
    · exact hgoal
    · exact hi.memo w t hold

include hI in
open Instantiation in
/-- What a step leaves to be done has its goals in the region. -/
theorem upholds_matchStep (fuel : Nat) (source : Term) (hgoal : goal.Inside region) :
    BuildUpholds (Instance.Guarded region I) (matchStep fuel source goal)
      (IfUnified fun m => GoalsInside region m.left) := by
  cases source with
  | var v => exact upholds_matchStep_var hI fuel v hgoal
  | _ =>
    have hderef := upholds_deref hI.toRegional hgoal
    refine upholds_bind (upholds_liftRun (upholds_onStore hderef.guarded)) fun root hroot => ?_
    split
    · refine upholds_bind (upholds_lift (upholds_copy hI _)) fun copied hcopied => ?_
      have hwrite := upholds_write hI.toRegional hroot.here hcopied
      exact upholds_bind (upholds_liftRun (upholds_onStore hwrite.guarded)) fun _ _ =>
        upholds_pure (goalsInside_done _)
    · split
      · refine upholds_pure fun q hq => ?_
        exact hroot.of_mem_zip (show q ∈ List.zip (_ :: _) (_ :: _) from hq)
      · exact upholds_throw _
    · split
      · exact upholds_pure (goalsInside_done _)
      · exact upholds_throw _

end Roomy

/-! ## The fused walk -/

section Walk

variable {J : Instance → Prop} {fine : Term × Term → Prop}

/-- Each step of the fused walk on a fine pair keeps the invariant, and leaves fine pairs to be
dealt with. -/
def StepsUphold (J : Instance → Prop) (fine : Term × Term → Prop) : Prop :=
  ∀ (fuel : Nat) (source goal : Term), fine (source, goal) →
    BuildUpholds J (matchStep fuel source goal) (IfUnified fun m => ∀ q ∈ m.left, fine q)

/-- What is left of a walk is done, or its pairs are fine. -/
def WalkFine (fine : Term × Term → Prop) : Term ⊕ (Term × Term) × List MatchFrame → Prop
  | .inl _ => True
  | .inr (next, frames) => ∀ q ∈ next :: frames.flatMap MatchFrame.todo, fine q

/-- Nodes are built without looking at the instance. -/
theorem upholds_climbMatch : ∀ (copied : Term) {frames : List MatchFrame},
    (∀ q ∈ frames.flatMap MatchFrame.todo, fine q) →
      BuildUpholds J (climbMatch copied frames) (WalkFine fine)
  | copied, [], _ => .pure trivial
  | copied, { functor, done, todo := next :: todo } :: outer, hframes => .pure hframes
  | copied, { functor, done, todo := [] } :: outer, hframes => by
    have hnode : BuildUpholds J (newNode functor done copied) fun _ => True := by
      intro supply i r i' hi hrun
      rw [newNode_run] at hrun
      cases hrun
      exact ⟨hi, trivial⟩
    exact hnode.bind fun node _ => upholds_climbMatch node hframes

variable (hsteps : StepsUphold J fine)
include hsteps

open Instantiation in
/-- Each round of the walk is a step, after which the pairs of the frames are still fine. -/
theorem upholds_matchIn : ∀ (fuel : Nat) {q : Term × Term} {frames : List MatchFrame},
    (∀ p ∈ q :: frames.flatMap MatchFrame.todo, fine p) →
      BuildUpholds J (matchIn fuel q frames) (IfUnified fun _ => True)
  | 0, _, _, _ => upholds_liftRun (.fail _)
  | fuel + 1, (source, goal), frames, hpairs => by
    obtain ⟨hpair, hframes⟩ := List.forall_mem_cons.mp hpairs
    refine upholds_bind (hsteps fuel source goal hpair) ?_
    rintro (copied | ⟨functor, first, rest⟩) hleft
    · refine upholds_bind (upholds_lift (upholds_climbMatch copied hframes)) ?_
      rintro (whole | ⟨next, frames⟩) hwalk
      · exact upholds_pure trivial
      · exact upholds_matchIn fuel hwalk
    · -- the pairs of the node come before those of the frames around it
      refine upholds_matchIn fuel fun q hq => ?_
      rcases List.mem_append.mp (show q ∈ (first :: rest) ++ _ from hq) with hq | hq
      · exact hleft q hq
      · exact hframes q hq

/-- **Copying a source while unifying it with a goal** keeps what each step keeps. -/
theorem upholds_copyAndUnify (fuel : Nat) {source goal : Term} (hpair : fine (source, goal)) :
    BuildUpholds J (copyAndUnify fuel source goal) (IfUnified fun _ => True) :=
  upholds_matchIn hsteps fuel (List.forall_mem_singleton.mpr hpair)

open Instantiation in
theorem Clause.upholds_matchAll (fuel : Nat) : ∀ {pairs : List (Term × Term)},
    (∀ q ∈ pairs, fine q) → BuildUpholds J (matchAll fuel pairs) (IfUnified fun _ => True)
  | [], _ => upholds_pure trivial
  | (source, goal) :: rest, hpairs => by
    obtain ⟨hpair, hrest⟩ := List.forall_mem_cons.mp hpairs
    have hfirst : BuildUpholds J (discard (copyAndUnify fuel source goal) : Instantiation Unit)
        (IfUnified fun _ => True) :=
      upholds_bind (upholds_copyAndUnify hsteps fuel hpair) fun _ _ => upholds_pure trivial
    exact upholds_bind hfirst fun _ _ => upholds_matchAll fuel hrest

open Instantiation in
/-- An instance of a clause is made as its body is copied, once the arguments have been matched. -/
theorem Clause.upholds_instantiate {P : Term → Prop} (fuel : Nat) (c : Clause) (goal : Term)
    (hpairs : ∀ q ∈ c.head.arguments.zip goal.arguments, fine q)
    (hbody : ∀ body ∈ c.body, BuildUpholds J (copy body) P) :
    BuildUpholds J (c.instantiate fuel goal) (IfUnified fun body => ∀ b ∈ body, P b) := by
  refine upholds_bind (upholds_matchAll hsteps fuel hpairs) fun _ _ => ?_
  cases hc : c.body with
  | none => exact upholds_pure fun _ h => nomatch h
  | some body =>
    refine upholds_bind (upholds_lift (hbody body hc)) fun copied hcopied => upholds_pure ?_
    rintro _ ⟨⟩
    exact hcopied

end Walk

/-! ## Resolution steps -/

section Calls

variable {I : Store → Prop} (hI : Store.Roomy region I)
include hI

/-- The steps of a walk whose goals are in the region keep to it. -/
theorem stepsUphold_guarded :
    StepsUphold (Instance.Guarded region I) fun q => q.2.Inside region :=
  fun fuel source _ hgoal => upholds_matchStep hI fuel source hgoal

/-- **A resolution step** writes only what the goal reaches and new cells, and returns a body that
has no other variables. -/
theorem Clause.upholds_call (fuel : Nat) (c : Clause) (hgoal : goal.Inside region) :
    BuildUpholds I (c.call fuel goal)
      (IfUnified fun body => ∀ b ∈ body, b.Inside region) := by
  refine BuildUpholds.bindCont (P := Term.Inside region) ?_ fun root hroot => ?_
  · exact (BuildUpholds.lift (upholds_deref hI.toRegional hgoal)).bind fun r hr =>
      .pure (ifUnified_ok hr)
  split
  · intro supply s r s' hs hrun
    obtain ⟨memo, hinstantiate⟩ := ok_of_withNewMemo hrun
    have hinstance := upholds_instantiate (stepsUphold_guarded hI) fuel c root
      (fun q hq => hroot.of_mem_zip hq) fun body _ => upholds_copy hI body
    obtain ⟨htouched, hbody⟩ := hinstance supply _ _ _ (.empty hs) hinstantiate
    exact ⟨htouched.store, hbody⟩
  · intro _ _ _ _ _ hrun
    cases hrun

end Calls

/-! ## Regions that are written -/

namespace Store

/-- A region stays one with the variables that are not allocated yet. -/
theorem Confined.union_new (h : s.Confined region) :
    s.Confined (region ∪ {v | s.cells.size ≤ v}) := by
  intro v hv t hbound
  rcases hv with hv | hv
  · exact Term.inside_of_forall fun w hw => .inl (h v hv t hbound _ hw)
  · exact absurd hbound.lt (Nat.not_lt.mpr hv)

/-- Changes within a region are an invariant of it, if it is closed under bindings. -/
theorem Confined.regional (h : s₀.Confined region) : Regional region (s₀.Touches region) where
  confined _ hs := hs.confined h
  write _ _ _ hs hlt hv ht := .bind hs hlt hv ht

/-- If the region has all the variables that are not yet allocated, allocating is such a change as
well. -/
theorem Confined.roomy (h : s₀.Confined region) (hfresh : ∀ v, s₀.cells.size ≤ v → v ∈ region) :
    Roomy region (s₀.Touches region) where
  toRegional := h.regional
  fresh _ hs v hv := hfresh v (Nat.le_trans hs.size_le hv)
  alloc _ hs := .alloc hs (hfresh _ hs.size_le)

end Store

end Horn
