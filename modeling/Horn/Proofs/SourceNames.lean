import Horn.Proofs.Copies

/-!
# Names of source variables

The variables of a source term have nothing to do with the variables of the store that have the same
indices. If they are renamed, in the source and in the keys of the memo, then copying the source or
matching it with a goal does the same: it allocates and binds the same variables in the same order,
and returns the same term or the same failure.

- `Term.Renamed`: a term with its variables renamed, over any nodes.
- `VarTable.relabel`, `Instance.relabel`: a memo with its keys renamed.
- `Alike`: two programs that do the same up to the names of source variables, and its laws for the
  layers of programs.
- `visitCopy_alike`, `matchStep_alike`: what the walks do with one term.
- `copyAndUnify_renamed`: what they do with whole terms.
-/

namespace Horn

variable {ρ : Nat → Nat}

/-! ## Renamed sources and memos -/

/-- The second term is the first one with its variables renamed. Nodes of the two need not have
anything to do with each other. -/
inductive Term.Renamed (ρ : Nat → Nat) : Term → Term → Prop where
  | var (v : Nat) : Renamed ρ (.var v) (.var (ρ v))
  | leaf {t : Term} (hvar : t.kind ≠ .var) (hnode : t.kind ≠ .compound) : Renamed ρ t t
  | node {i j : Nat} {f : Atom} {x y : Term} {xs ys : List Term}
      (args : List.Forall₂ (Renamed ρ) (x :: xs) (y :: ys)) :
      Renamed ρ (.compound i f x xs) (.compound j f y ys)

namespace VarTable

variable {α : Type}

/-- The table with its keys renamed. -/
def relabel (ρ : Nat → Nat) (m : VarTable α) : VarTable α := ⟨m.entries.map (Prod.map ρ id)⟩

theorem find?_relabel (hρ : ρ.Injective) (m : VarTable α) (v : Nat) :
    (m.relabel ρ).find? (ρ v) = m.find? v := by
  obtain ⟨entries⟩ := m
  show (entries.map (Prod.map ρ id)).lookup (ρ v) = entries.lookup v
  induction entries with
  | nil => rfl
  | cons e entries ih =>
    obtain ⟨w, x⟩ := e
    show ((ρ w, x) :: entries.map (Prod.map ρ id)).lookup (ρ v) = _
    by_cases hvw : v = w
    · subst hvw
      simp
    · have hne : ρ v ≠ ρ w := fun h => hvw (hρ h)
      rw [List.lookup_cons, List.lookup_cons, beq_false_of_ne hvw, beq_false_of_ne hne]
      exact ih

/-- Entering a variable and renaming it, in either order. -/
theorem relabel_insert (hρ : ρ.Injective) (m : VarTable α) (v : Nat) (x : α) :
    (m.insert v x).relabel ρ = (m.relabel ρ).insert (ρ v) x := by
  unfold insert
  rw [find?_relabel hρ]
  split
  · simp only [relabel, List.map_map, mk.injEq]
    refine List.map_congr_left fun e _ => ?_
    obtain ⟨w, y⟩ := e
    by_cases hwv : w = v
    · simp [hwv]
    · have hne : ρ w ≠ ρ v := fun h => hwv (hρ h)
      simp [hwv, hne]
  · simp [relabel]

end VarTable

/-- The instance with the keys of its memo renamed. The store is the same. -/
def Instance.relabel (ρ : Nat → Nat) (i : Instance) : Instance :=
  { i with memo := i.memo.relabel ρ }

/-- Renaming leaves as many subterms as there were. -/
theorem Term.Renamed.size_eq {t t' : Term} (h : t.Renamed ρ t') : t'.size = t.size := by
  induction t using Term.induction_arguments generalizing t' with
  | h t ih =>
    cases h with
    | var v => rfl
    | leaf _ _ => rfl
    | @node i j f x y xs ys args =>
      have hall : ∀ {ts us : List Term}, List.Forall₂ (Term.Renamed ρ) ts us →
          (∀ t ∈ ts, t ∈ x :: xs) → Term.sizeAll us = Term.sizeAll ts := by
        intro ts us h
        induction h with
        | nil => intro _; rfl
        | cons hhead _ ihtail =>
          intro hmem
          rw [Term.sizeAll, Term.sizeAll, ih _ (hmem _ List.mem_cons_self) hhead,
            ihtail fun t ht => hmem t (List.mem_cons_of_mem _ ht)]
      have hargs := hall args fun _ h => h
      rw [Term.sizeAll, Term.sizeAll] at hargs
      rw [Term.size, Term.size, hargs]

mutual

/-- A term can be renamed over new nodes. -/
theorem Term.renamed_copied : ∀ (t : Term) (n : Nat),
    t.Renamed ρ (t.copied (fun v => .var (ρ v)) n).1
  | .var v, _ => .var v
  | .compound _ _ x xs, n => .node (.cons (renamed_copied x n) (renamedAll_copiedAll xs _))
  | .atom _, _ => .leaf Kind.noConfusion Kind.noConfusion
  | .int _, _ => .leaf Kind.noConfusion Kind.noConfusion
  | .float _, _ => .leaf Kind.noConfusion Kind.noConfusion
  | .box _, _ => .leaf Kind.noConfusion Kind.noConfusion

theorem Term.renamedAll_copiedAll : ∀ (ts : List Term) (n : Nat),
    List.Forall₂ (Renamed ρ) ts (Term.copiedAll (fun v => .var (ρ v)) n ts).1
  | [], _ => .nil
  | t :: ts, n => .cons (renamed_copied t n) (renamedAll_copiedAll ts _)

end

/-! ## Programs that do the same -/

section Alike

variable {α β γ δ : Type} {R : α → β → Prop} {S : γ → δ → Prop}

/-- Two runs end in one fault, or with related results and in instances that are the same up to the
names of source variables. -/
inductive EndsAlike (ρ : Nat → Nat) (R : α → β → Prop) :
    Except Fault (α × Instance) → Except Fault (β × Instance) → Prop where
  | ok {a : α} {b : β} {i : Instance} (h : R a b) :
      EndsAlike ρ R (.ok (a, i)) (.ok (b, i.relabel ρ))
  | fault (f : Fault) : EndsAlike ρ R (.error f) (.error f)

/-- The second program does with renamed keys what the first one does. -/
def Alike (ρ : Nat → Nat) (R : α → β → Prop) (x : Run Instance α) (y : Run Instance β) : Prop :=
  ∀ i, EndsAlike ρ R (x i) (y (i.relabel ρ))

namespace Alike

theorem pure {a : α} {b : β} (h : R a b) :
    Alike ρ R (Pure.pure a : Run Instance α) (Pure.pure b) :=
  fun _ => .ok h

theorem fail (f : Fault) :
    Alike ρ R (Run.fail f : Run Instance α) (Run.fail f : Run Instance β) :=
  fun _ => .fault f

/-- A sequence does the same for renamed sources if its parts do. -/
theorem bind {x : Run Instance α} {y : Run Instance β} {f : α → Run Instance γ}
    {g : β → Run Instance δ} (h : Alike ρ R x y) (hnext : ∀ a b, R a b → Alike ρ S (f a) (g b)) :
    Alike ρ S (x >>= f) (y >>= g) := by
  intro i
  have hfirst := h i
  generalize hx : x i = rx, hy : y (i.relabel ρ) = ry at hfirst
  cases hfirst with
  | ok hR =>
    rw [Run.bind_ok hx, Run.bind_ok hy]
    exact hnext _ _ hR _
  | fault e =>
    rw [Run.bind_error hx, Run.bind_error hy]
    exact .fault e

/-- The store is the same, so a program on it does the same. -/
theorem onStore (x : Run Store α) : Alike ρ Eq (Horn.onStore x) (Horn.onStore x) := by
  intro i
  show EndsAlike ρ Eq (Horn.onStore x i) (Horn.onStore x { i with memo := i.memo.relabel ρ })
  unfold Horn.onStore
  dsimp only
  cases x i.store with
  | ok r => exact .ok rfl
  | error f => exact .fault f

theorem remember (hρ : ρ.Injective) (v : Nat) (t : Term) :
    Alike ρ Eq (Horn.remember v t) (Horn.remember (ρ v) t) := by
  intro i
  show EndsAlike ρ Eq (.ok ((), { i with memo := i.memo.insert v t }))
    (.ok ((), { i with memo := (i.memo.relabel ρ).insert (ρ v) t }))
  rw [← VarTable.relabel_insert hρ]
  exact .ok rfl

/-- The memo is read. What follows may use that the keys of the two are different names. -/
theorem get : Alike ρ (fun i j => j = i.relabel ρ) (MonadState.get : Run Instance Instance)
    (MonadState.get : Run Instance Instance) :=
  fun _ => .ok rfl

end Alike

/-- The same for programs that build nodes: they take the same identities. -/
def BuildAlike (ρ : Nat → Nat) (R : α → β → Prop) (x : Build Instance α) (y : Build Instance β) :
    Prop :=
  ∀ supply, Alike ρ (fun r s => R r.1 s.1 ∧ r.2 = s.2) (x supply) (y supply)

namespace BuildAlike

theorem pure {a : α} {b : β} (h : R a b) :
    BuildAlike ρ R (Pure.pure a : Build Instance α) (Pure.pure b) :=
  fun _ => Alike.pure ⟨h, rfl⟩

theorem bind {x : Build Instance α} {y : Build Instance β} {f : α → Build Instance γ}
    {g : β → Build Instance δ} (h : BuildAlike ρ R x y)
    (hnext : ∀ a b, R a b → BuildAlike ρ S (f a) (g b)) : BuildAlike ρ S (x >>= f) (y >>= g) := by
  intro supply
  show Alike ρ _ (x supply >>= fun r => f r.1 r.2) (y supply >>= fun r => g r.1 r.2)
  refine (h supply).bind ?_
  rintro ⟨a, supply'⟩ ⟨b, _⟩ ⟨hR, rfl⟩
  exact hnext a b hR supply'

theorem lift {x : Run Instance α} {y : Run Instance β} (h : Alike ρ R x y) :
    BuildAlike ρ R (liftM x) (liftM y) := by
  intro supply
  show Alike ρ _ (x >>= fun a => Pure.pure (a, supply)) (y >>= fun b => Pure.pure (b, supply))
  exact h.bind fun a b hR => Alike.pure ⟨hR, rfl⟩

/-- A node is built from results, which have no source variables. -/
theorem newNode (functor : Atom) (done : List Term) (last : Term) :
    BuildAlike ρ Eq (Horn.newNode functor done last) (Horn.newNode functor done last) := by
  intro supply i
  rw [newNode_run, newNode_run]
  exact .ok ⟨rfl, rfl⟩

end BuildAlike

/-- Two programs fail to unify for the same reason, or return related results. -/
inductive OutcomesAlike (R : α → β → Prop) : Except UnifyError α → Except UnifyError β → Prop where
  | ok {a : α} {b : β} (h : R a b) : OutcomesAlike R (.ok a) (.ok b)
  | error (e : UnifyError) : OutcomesAlike R (.error e) (.error e)

/-- The same for programs that may fail to unify. -/
def InstantiationAlike (ρ : Nat → Nat) (R : α → β → Prop) (x : Instantiation α)
    (y : Instantiation β) : Prop :=
  BuildAlike ρ (OutcomesAlike R) x.run y.run

namespace InstantiationAlike

theorem pure {a : α} {b : β} (h : R a b) :
    InstantiationAlike ρ R (Pure.pure a : Instantiation α) (Pure.pure b) :=
  BuildAlike.pure (.ok h)

theorem throw (e : UnifyError) : InstantiationAlike ρ R (MonadExcept.throw e : Instantiation α)
    (MonadExcept.throw e : Instantiation β) :=
  BuildAlike.pure (.error e)

theorem bind {x : Instantiation α} {y : Instantiation β} {f : α → Instantiation γ}
    {g : β → Instantiation δ} (h : InstantiationAlike ρ R x y)
    (hnext : ∀ a b, R a b → InstantiationAlike ρ S (f a) (g b)) :
    InstantiationAlike ρ S (x >>= f) (y >>= g) := by
  refine BuildAlike.bind h ?_
  rintro _ _ (hR | e)
  · exact hnext _ _ hR
  · exact BuildAlike.pure (.error e)

theorem lift {x : Build Instance α} {y : Build Instance β} (h : BuildAlike ρ R x y) :
    InstantiationAlike ρ R (liftM x) (liftM y) :=
  BuildAlike.bind h fun _ _ hR => BuildAlike.pure (.ok hR)

theorem liftRun {x : Run Instance α} {y : Run Instance β} (h : Alike ρ R x y) :
    InstantiationAlike ρ R (liftM x) (liftM y) :=
  lift (BuildAlike.lift h)

end InstantiationAlike

end Alike

/-! ## Copying -/

/-- Renamed terms in a list, one by one. -/
abbrev RenamedAll (ρ : Nat → Nat) : List Term → List Term → Prop := List.Forall₂ (Term.Renamed ρ)

/-- The visitor returns the same leaf, or nodes with one functor and renamed arguments. -/
inductive VisitsAlike (ρ : Nat → Nat) : Visit → Visit → Prop where
  | leaf (t : Term) : VisitsAlike ρ (.leaf t) (.leaf t)
  | enter {n n' : Node} (hfunctor : n.functor = n'.functor)
      (hargs : RenamedAll ρ n.arguments n'.arguments) : VisitsAlike ρ (.enter n) (.enter n')

/-- A variable is looked up under its new name, or entered as the same new variable of the store. -/
theorem visitCopy_alike (hρ : ρ.Injective) {t t' : Term} (h : t.Renamed ρ t') :
    Alike ρ (VisitsAlike ρ) (visitCopy t) (visitCopy t') := by
  cases h with
  | var v =>
    refine Alike.get.bind ?_
    rintro i _ rfl
    have hfind : (i.relabel ρ).memo.find? (ρ v) = i.memo.find? v :=
      VarTable.find?_relabel hρ i.memo v
    rw [hfind]
    cases i.memo.find? v with
    | some known => exact Alike.pure (.leaf known)
    | none =>
      refine (Alike.onStore Store.alloc).bind ?_
      rintro w _ rfl
      exact (Alike.remember hρ v (.var w)).bind fun _ _ _ => Alike.pure (.leaf _)
  | leaf hvar hnode =>
    cases t with
    | var v => exact absurd rfl hvar
    | compound i f x xs => exact absurd rfl hnode
    | _ => exact Alike.pure (.leaf _)
  | node args => exact Alike.pure (.enter rfl args)

/-- Frames of two walks, the second one over a renamed source. -/
structure FramesAlike (ρ : Nat → Nat) (f f' : Frame) : Prop where
  functor : f.node.functor = f'.node.functor
  done : f.done = f'.done
  todo : RenamedAll ρ f.todo f'.todo

/-- What is next to be visited, and the frames around it. -/
structure NextAlike (ρ : Nat → Nat) (next next' : Term × List Frame) : Prop where
  term : next.1.Renamed ρ next'.1
  frames : List.Forall₂ (FramesAlike ρ) next.2 next'.2

/-- A frame of a copy is closed by a new node with its functor. -/
theorem close_alike {f f' : Frame} (h : FramesAlike ρ f f') (last : Term) :
    BuildAlike ρ Eq (f.close false last) (f'.close false last) := by
  show BuildAlike ρ Eq (newNode f.node.functor f.done last) (newNode f'.node.functor f'.done last)
  rw [h.functor, h.done]
  exact .newNode _ _ _

/-- Handing a result up through frames, of which the terms that are left are renamed. -/
theorem climb_alike {frames frames' : List Frame} (h : List.Forall₂ (FramesAlike ρ) frames frames')
    (result : Term) :
    BuildAlike ρ (Sum.LiftRel Eq (NextAlike ρ)) (climb false result frames)
      (climb false result frames') := by
  induction h generalizing result with
  | nil => exact BuildAlike.pure (.inl rfl)
  | @cons f f' outer outer' hframe houter ih =>
    obtain ⟨node, done, todo⟩ := f
    obtain ⟨node', done', todo'⟩ := f'
    unfold climb
    cases hframe.todo with
    | nil =>
      refine (close_alike hframe result).bind ?_
      rintro closed _ rfl
      exact ih closed
    | cons hnext htodo =>
      refine BuildAlike.pure (.inr ⟨hnext, .cons ⟨hframe.functor, ?_, htodo⟩ houter⟩)
      exact congrArg (result :: ·) hframe.done

/-- **A copy** of a renamed source goes through the same rounds. -/
theorem rebuildIn_alike (hρ : ρ.Injective) : ∀ (fuel : Nat) {t t' : Term}
    {frames frames' : List Frame}, t.Renamed ρ t' → List.Forall₂ (FramesAlike ρ) frames frames' →
      BuildAlike ρ Eq (rebuildIn false visitCopy fuel t frames)
        (rebuildIn false visitCopy fuel t' frames')
  | 0, _, _, _, _, _, _ => BuildAlike.lift (Alike.fail _)
  | fuel + 1, t, t', frames, frames', ht, hframes => by
    refine (BuildAlike.lift (visitCopy_alike hρ ht)).bind ?_
    rintro _ _ (result | ⟨hfunctor, hargs⟩)
    · refine (climb_alike hframes result).bind ?_
      rintro _ _ (⟨rfl⟩ | ⟨hnext⟩)
      · exact BuildAlike.pure rfl
      · exact rebuildIn_alike hρ fuel hnext.term hnext.frames
    · cases hargs with
      | cons harg hrest =>
        exact rebuildIn_alike hρ fuel harg (.cons ⟨hfunctor, rfl, hrest⟩ hframes)

/-- A renamed term has the same copy. -/
theorem copy_alike (hρ : ρ.Injective) {t t' : Term} (h : t.Renamed ρ t') :
    BuildAlike ρ Eq (copy t) (copy t') := by
  unfold copy rebuild
  rw [h.size_eq]
  exact rebuildIn_alike hρ t.size h .nil

/-! ## Matching with a goal -/

/-- A pair of a renamed source and the same goal. -/
structure PairsAlike (ρ : Nat → Nat) (q q' : Term × Term) : Prop where
  source : q.1.Renamed ρ q'.1
  goal : q.2 = q'.2

theorem pairsAlike_zip : ∀ {ts us : List Term} (goals : List Term), RenamedAll ρ ts us →
    List.Forall₂ (PairsAlike ρ) (ts.zip goals) (us.zip goals)
  | _, _, [], _ => by simp
  | _, _, _ :: _, .nil => .nil
  | _, _, _ :: goals, .cons hhead htail => .cons ⟨hhead, rfl⟩ (pairsAlike_zip goals htail)

/-- A step deals with the pair in the same way, or leaves the same pairs to be dealt with. -/
inductive MatchedAlike (ρ : Nat → Nat) : Matched → Matched → Prop where
  | done (copy : Term) : MatchedAlike ρ (.done copy) (.done copy)
  | descend (functor : Atom) {first first' : Term × Term} {rest rest' : List (Term × Term)}
      (hfirst : PairsAlike ρ first first') (hrest : List.Forall₂ (PairsAlike ρ) rest rest') :
      MatchedAlike ρ (.descend functor first rest) (.descend functor first' rest')

section Steps

variable {source source' : Term} {fuel : Nat}

/-- An unbound variable of the goal is bound to the same copy. -/
theorem matchVar_alike (hρ : ρ.Injective) (h : source.Renamed ρ source') (w : Nat) :
    InstantiationAlike ρ (MatchedAlike ρ)
      (do
        let copied ← (copy source : Build Instance Term)
        (onStore (Store.bind w copied) : Run Instance Unit)
        pure (.done copied))
      (do
        let copied ← (copy source' : Build Instance Term)
        (onStore (Store.bind w copied) : Run Instance Unit)
        pure (.done copied)) := by
  refine (InstantiationAlike.lift (copy_alike hρ h)).bind ?_
  rintro copied _ rfl
  exact (InstantiationAlike.liftRun (Alike.onStore _)).bind fun _ _ _ =>
    InstantiationAlike.pure (.done copied)

/-- **A step.** A source variable is looked up under its new name; any other source meets the root
of the goal, which is the same. -/
theorem matchStep_alike (hρ : ρ.Injective) (h : source.Renamed ρ source') (goal : Term) :
    InstantiationAlike ρ (MatchedAlike ρ) (matchStep fuel source goal)
      (matchStep fuel source' goal) := by
  cases h with
  | var v =>
    refine (InstantiationAlike.liftRun Alike.get).bind ?_
    rintro i _ rfl
    -- the memo is asked for the renamed variable and has the same entry for it
    have hfind : (i.relabel ρ).memo.find? (ρ v) = i.memo.find? v :=
      VarTable.find?_relabel hρ i.memo v
    rw [hfind]
    cases i.memo.find? v with
    | some known =>
      refine (InstantiationAlike.liftRun (Alike.onStore (unify fuel false known goal))).bind ?_
      rintro (e | u) _ rfl
      · exact InstantiationAlike.throw e
      · exact InstantiationAlike.pure (.done known)
    | none =>
      exact (InstantiationAlike.liftRun (Alike.remember hρ v goal)).bind fun _ _ _ =>
        InstantiationAlike.pure (.done goal)
  -- a leaf that is no variable is the same before and after renaming
  | leaf hvar hnode =>
    cases source with
    | var v => exact absurd rfl hvar
    | compound i f x xs => exact absurd rfl hnode
    | _ =>
      refine (InstantiationAlike.liftRun (Alike.onStore (deref goal))).bind ?_
      rintro root _ rfl
      cases root with
      | var w => exact matchVar_alike hρ (.leaf hvar hnode) w
      | _ =>
        dsimp only
        split
        · exact InstantiationAlike.pure (.done _)
        · exact InstantiationAlike.throw _
  | @node i j f x y xs ys args =>
    refine (InstantiationAlike.liftRun (Alike.onStore (deref goal))).bind ?_
    rintro root _ rfl
    cases root with
    | var w => exact matchVar_alike hρ (.node args) w
    | compound k g z zs =>
      obtain ⟨hx, hxs⟩ := List.forall₂_cons.mp args
      dsimp only
      -- renaming keeps the functor and the number of arguments, so both runs take one branch
      rw [hxs.length_eq]
      split
      · exact InstantiationAlike.pure (.descend f ⟨hx, rfl⟩ (pairsAlike_zip zs hxs))
      · exact InstantiationAlike.throw _
    | _ => exact InstantiationAlike.throw _

end Steps

/-- Frames of two walks with one goal, the second one over a renamed source. -/
structure MatchFramesAlike (ρ : Nat → Nat) (f f' : MatchFrame) : Prop where
  functor : f.functor = f'.functor
  done : f.done = f'.done
  todo : List.Forall₂ (PairsAlike ρ) f.todo f'.todo

/-- The pair that is next, and the frames around it. -/
structure NextPairsAlike (ρ : Nat → Nat) (next next' : (Term × Term) × List MatchFrame) :
    Prop where
  pair : PairsAlike ρ next.1 next'.1
  frames : List.Forall₂ (MatchFramesAlike ρ) next.2 next'.2

/-- Handing a copy up through frames, of which the pairs that are left are renamed. -/
theorem climbMatch_alike {frames frames' : List MatchFrame}
    (h : List.Forall₂ (MatchFramesAlike ρ) frames frames') (copied : Term) :
    BuildAlike ρ (Sum.LiftRel Eq (NextPairsAlike ρ)) (climbMatch copied frames)
      (climbMatch copied frames') := by
  induction h generalizing copied with
  | nil => exact BuildAlike.pure (.inl rfl)
  | @cons f f' outer outer' hframe houter ih =>
    obtain ⟨functor, done, todo⟩ := f
    obtain ⟨functor', done', todo'⟩ := f'
    obtain ⟨rfl, rfl, htodo⟩ := hframe
    unfold climbMatch
    cases htodo with
    | nil =>
      refine (BuildAlike.newNode _ _ copied).bind ?_
      rintro node _ rfl
      exact ih node
    | cons hnext htodo => exact BuildAlike.pure (.inr ⟨hnext, .cons ⟨rfl, rfl, htodo⟩ houter⟩)

/-- **The fused walk** of a renamed source goes through the same rounds. -/
theorem matchIn_alike (hρ : ρ.Injective) : ∀ (fuel : Nat) {q q' : Term × Term}
    {frames frames' : List MatchFrame}, PairsAlike ρ q q' →
      List.Forall₂ (MatchFramesAlike ρ) frames frames' →
        InstantiationAlike ρ Eq (matchIn fuel q frames) (matchIn fuel q' frames')
  | 0, _, _, _, _, _, _ => InstantiationAlike.liftRun (Alike.fail _)
  | fuel + 1, (source, goal), (source', _), frames, frames', ⟨hsource, rfl⟩, hframes => by
    refine (matchStep_alike hρ hsource goal).bind ?_
    rintro _ _ (copied | ⟨functor, hfirst, hrest⟩)
    · refine (InstantiationAlike.lift (climbMatch_alike hframes copied)).bind ?_
      rintro _ _ (⟨rfl⟩ | ⟨hnext⟩)
      · exact InstantiationAlike.pure rfl
      · exact matchIn_alike hρ fuel hnext.pair hnext.frames
    · exact matchIn_alike hρ fuel hfirst (.cons ⟨rfl, rfl, hrest⟩ hframes)

/-! ## Renaming a source -/

/-- What a run returns and leaves, with the keys of the memo renamed. -/
def relabelEnd {α : Type} (ρ : Nat → Nat) (r : Except Fault (α × Instance)) :
    Except Fault (α × Instance) :=
  r.map fun (a, i) => (a, i.relabel ρ)

section Ends

variable {α : Type} {R : α → α → Prop}

/-- Where related results are equal, the second run ends as the first one does. -/
theorem Alike.eq_relabelEnd {x y : Run Instance α} (h : Alike ρ R x y)
    (hR : ∀ a b, R a b → a = b) (i : Instance) : y (i.relabel ρ) = relabelEnd ρ (x i) := by
  have hends := h i
  generalize hx : x i = rx, hy : y (i.relabel ρ) = ry at hends
  cases hends with
  | ok hab =>
    cases hR _ _ hab
    rfl
  | fault f => rfl

/-- Programs that do the same on a renamed memo return the same, with the memo renamed. -/
theorem BuildAlike.eq_relabelEnd {x y : Build Instance α} (h : BuildAlike ρ R x y)
    (hR : ∀ a b, R a b → a = b) (supply : Supply) (i : Instance) :
    y supply (i.relabel ρ) = relabelEnd ρ (x supply i) :=
  (h supply).eq_relabelEnd (fun _ _ hab => Prod.ext (hR _ _ hab.1) hab.2) i

theorem OutcomesAlike.eq {r r' : Except UnifyError α} (h : OutcomesAlike Eq r r') : r = r' := by
  cases h with
  | ok heq => exact congrArg Except.ok heq
  | error e => rfl

end Ends

/-- A term can be given variables from `n` on. -/
theorem Term.exists_renamed_apart (n : Nat) (t : Term) :
    ∃ t', t.Renamed (n + ·) t' ∧ ∀ v, Within (.var v) t' → n ≤ v := by
  refine ⟨(t.copied (fun v => .var (n + v)) 0).1, t.renamed_copied 0, fun v hv => ?_⟩
  have hevery : (t.copied (fun v => .var (n + v)) 0).1.Every fun u => ∀ v, u = .var v → n ≤ v := by
    refine Term.copied_every t (fun u _ => ?_) fun i f x xs _ _ v h => nomatch h
    cases u with
    | var w =>
      refine Term.every_var.mpr fun v hv => ?_
      cases hv
      exact Nat.le_add_right n w
    | compound => trivial
    | _ => exact fun v hv => nomatch hv
  exact hevery _ hv v rfl

/-- **The names of source variables do not matter.** If they are renamed in the source and in the
memo, then the fused walk ends in the same fault, or returns the same term or failure, takes the
same identities, writes the same journal, and leaves the same memo, renamed; and so does copying.
One may take names that are no variables of the store: what the store holds for cells with the
indices of source variables has no influence. -/
theorem copyAndUnify_renamed (hρ : ρ.Injective) {source source' : Term}
    (h : source.Renamed ρ source') (goal : Term) (fuel : Nat) (supply : Supply) (i : Instance) :
    copyAndUnify fuel source' goal supply (i.relabel ρ) =
        relabelEnd ρ (copyAndUnify fuel source goal supply i) ∧
      copy source' supply (i.relabel ρ) = relabelEnd ρ (copy source supply i) ∧
      ∃ (δ : Nat → Nat) (apart : Term), δ.Injective ∧ source.Renamed δ apart ∧
        (∀ v, Term.Within (.var v) apart → i.store.cells.size ≤ v) ∧
        copyAndUnify fuel apart goal supply (i.relabel δ) =
          relabelEnd δ (copyAndUnify fuel source goal supply i) := by
  have hwalk : ∀ {δ : Nat → Nat} {s : Term}, δ.Injective → source.Renamed δ s →
      copyAndUnify fuel s goal supply (i.relabel δ) =
        relabelEnd δ (copyAndUnify fuel source goal supply i) := by
    intro δ s hδ hs
    have hmatch : InstantiationAlike δ Eq (copyAndUnify fuel source goal)
        (copyAndUnify fuel s goal) := matchIn_alike hδ fuel ⟨hs, rfl⟩ .nil
    exact BuildAlike.eq_relabelEnd hmatch (fun _ _ hr => hr.eq) supply i
  have hcopy := (copy_alike hρ h).eq_relabelEnd (fun _ _ heq => heq) supply i
  obtain ⟨apart, happart, hbeyond⟩ := source.exists_renamed_apart i.store.cells.size
  have hadd : Function.Injective (i.store.cells.size + ·) := fun _ _ => Nat.add_left_cancel
  exact ⟨hwalk hρ h, hcopy, _, apart, hadd, happart, hbeyond, hwalk hadd happart⟩

/-- Let `X2` be bound to `X0`. The source `p(X2, f(X2, X0))` does with the goal `p(X1, X0)` what
`p(X7, f(X7, X5))` does, although its variables are cells of the store: `X0` of the source becomes
the new cell `X3`. -/
theorem copyAndUnify_renamed_colliding :
    let source := fun v w : Nat => Term.compound 0 ⟨"p", .interned 0⟩ (.var v)
      [.compound 1 ⟨"f", .interned 1⟩ (.var v) [.var w]]
    let goal := Term.compound 2 ⟨"p", .interned 0⟩ (.var 1) [.var 0]
    let i : Instance := { store := { cells := #[none, none, some (.var 0)] }, memo := {} }
    let copied := Term.compound 3 ⟨"f", .interned 1⟩ (.var 1) [.var 3]
    ∃ i', copyAndUnify 4 (source 2 0) goal ⟨3⟩ i =
        .ok ((.ok (.compound 4 ⟨"p", .interned 0⟩ (.var 1) [copied]), ⟨5⟩), i') ∧
      copyAndUnify 4 (source 7 5) goal ⟨3⟩ i =
        .ok ((.ok (.compound 4 ⟨"p", .interned 0⟩ (.var 1) [copied]), ⟨5⟩), i'.relabel (5 + ·)) ∧
      i'.memo.entries = [(2, .var 1), (0, .var 3)] := by
  intro source goal i copied
  have hadd : Function.Injective (5 + ·) := fun _ _ => Nat.add_left_cancel
  have hrenamed : (source 2 0).Renamed (5 + ·) (source 7 5) :=
    .node (.cons (.var 2) (.cons (.node (.cons (.var 2) (.cons (.var 0) .nil))) .nil))
  obtain ⟨hwalk, -⟩ := copyAndUnify_renamed hadd hrenamed goal 4 ⟨3⟩ i
  exact ⟨_, rfl, hwalk.trans rfl, rfl⟩

end Horn
