import Horn.Proofs.Chains
import Horn.Proofs.Rebuilding

/-!
# The fused walk as recursion

Copying a source while unifying it with a goal keeps its frames on a list, and is a recursion over
the source all the same. What becomes of a pair of a source and a goal does not depend on the frames
around it: it is dealt with, and the walk goes on with the copy, or it fails, and so does the walk.

- `Walks`: what becomes of a pair, and `WalksAll` of the arguments of two nodes.
- `Walks.first`, `Walks.known`, `Walks.bind`, `Walks.leaf`, `Walks.functors`, `Walks.nodes`:
  one rule for each answer of `matchStep`.
- `Walks.settles`: the whole walk.
-/

namespace Horn

/-! ## Steps of the walk -/

/-- What is left of the walk once a source has its copy. -/
def resumeMatch (fuel : Nat) (copied : Term) (frames : List MatchFrame) : Instantiation Term := do
  match ← (climbMatch copied frames : Build Instance _) with
  | .inl whole => pure whole
  | .inr (next, frames) => matchIn fuel next frames

/-- What is left of the walk once a pair has been dealt with, or has failed. -/
def finish (fuel : Nat) (outcome : Except UnifyError Term) (frames : List MatchFrame) :
    Instantiation Term :=
  match outcome with
  | .ok copied => resumeMatch fuel copied frames
  | .error e => throw e

section Steps

variable {fuel : Nat} {source goal copied : Term} {functor : Atom} {done : List Term}
  {first next : Term × Term} {todo rest : List (Term × Term)} {frames outer : List MatchFrame}
  {supply supply' : Supply} {i i' : Instance} {e : UnifyError}

/-- A frame that has pairs left hands out the next one. -/
theorem resumeMatch_todo :
    resumeMatch fuel copied ({ functor, done, todo := next :: todo } :: outer) supply i =
      matchIn fuel next ({ functor, done := copied :: done, todo } :: outer) supply i := rfl

/-- A frame that has none left builds its node and hands that on. -/
theorem resumeMatch_close :
    resumeMatch fuel copied ({ functor, done, todo := [] } :: outer) supply i =
      resumeMatch fuel (Term.apply functor (done.reverse ++ [copied]) supply).1 outer
        (Term.apply functor (done.reverse ++ [copied]) supply).2 i := by
  have hclimb : climbMatch copied ({ functor, done, todo := [] } :: outer) supply i =
      climbMatch (Term.apply functor (done.reverse ++ [copied]) supply).1 outer
        (Term.apply functor (done.reverse ++ [copied]) supply).2 i :=
    Build.bind_ok (newNode_run functor done copied supply i)
  exact Instantiation.build_congr hclimb

/-- When a step has dealt with a pair, its copy is handed up. -/
theorem matchIn_done
    (h : matchStep fuel source goal supply i = .ok ((.ok (.done copied), supply'), i')) :
    matchIn (fuel + 1) (source, goal) frames supply i =
      finish fuel (.ok copied) frames supply' i' := by
  rw [matchIn, Instantiation.bind_ok h]
  rfl

/-- The first step that fails ends the walk. -/
theorem matchIn_throw (h : matchStep fuel source goal supply i = .ok ((.error e, supply'), i')) :
    matchIn (fuel + 1) (source, goal) frames supply i =
      finish fuel (.error e) frames supply' i' := by
  rw [matchIn, Instantiation.bind_throw h]
  rfl

/-- When a step goes down into two nodes, the pairs of their arguments come next. -/
theorem matchIn_descend
    (h : matchStep fuel source goal supply i =
      .ok ((.ok (.descend functor first rest), supply'), i')) :
    matchIn (fuel + 1) (source, goal) frames supply i =
      matchIn fuel first ({ functor, done := [], todo := rest } :: frames) supply' i' := by
  rw [matchIn, Instantiation.bind_ok h]

end Steps

section SourceVariables

variable {goal : Term} {supply : Supply} {i : Instance} {v : Nat}

/-- A source variable that the memo does not know stands for the goal. -/
theorem matchStep_new (fuel : Nat) (h : i.memo.find? v = none) :
    matchStep fuel (.var v) goal supply i =
      .ok ((.ok (.done goal), supply), { i with memo := i.memo.insert v goal }) := by
  have hget : (get : Run Instance Instance) i = .ok (i, i) := rfl
  have hremember : remember v goal i = .ok ((), { i with memo := i.memo.insert v goal }) := rfl
  unfold matchStep
  dsimp only
  rw [Instantiation.run_bind hget, h]
  dsimp only
  rw [Instantiation.run_bind hremember]
  rfl

/-- What a source variable is known to stand for is unified with the goal. -/
theorem matchStep_known {t : Term} (fuel : Nat) (h : i.memo.find? v = some t) :
    matchStep fuel (.var v) goal supply i = (do
      match ← (onStore (unify fuel false t goal) : Run Instance (Except UnifyError Unit)) with
      | .ok () => pure (.done t)
      | .error e => throw e : Instantiation Matched) supply i := by
  have hget : (get : Run Instance Instance) i = .ok (i, i) := rfl
  unfold matchStep
  dsimp only
  rewrite [Instantiation.run_bind hget, h]
  rfl

end SourceVariables

/-! ## The recursion -/

/-- The walk gets from a source and a goal, inside any frames, to the copy of the source or to a
failure. -/
def Walks (source goal : Term) (supply : Supply) (i : Instance) (outcome : Except UnifyError Term)
    (supply' : Supply) (i' : Instance) : Prop :=
  ∃ n enough, ∀ fuel, enough ≤ fuel → ∀ frames,
    matchIn (n + fuel) (source, goal) frames supply i = finish fuel outcome frames supply' i'

/-- Pairs are dealt with one after the other, up to the first failure. -/
inductive WalksAll : List (Term × Term) → Supply → Instance → Except UnifyError (List Term) →
    Supply → Instance → Prop where
  | nil {supply : Supply} {i : Instance} : WalksAll [] supply i (.ok []) supply i
  | stop {source goal : Term} {rest : List (Term × Term)} {supply supply' : Supply}
      {i i' : Instance} {e : UnifyError} (head : Walks source goal supply i (.error e) supply' i') :
      WalksAll ((source, goal) :: rest) supply i (.error e) supply' i'
  | cons {source goal copied : Term} {rest : List (Term × Term)}
      {supply supply₁ supply₂ : Supply} {i i₁ i₂ : Instance}
      {outcome : Except UnifyError (List Term)}
      (head : Walks source goal supply i (.ok copied) supply₁ i₁)
      (tail : WalksAll rest supply₁ i₁ outcome supply₂ i₂) :
      WalksAll ((source, goal) :: rest) supply i (outcome.map (copied :: ·)) supply₂ i₂

namespace Walks

variable {source goal : Term} {supply supply' : Supply} {i i' : Instance} {s' : Store}
  {e : UnifyError} {v : Nat}

/-- A step that decides the pair. -/
theorem of_step {outcome : Except UnifyError Term}
    (h : ∃ enough, ∀ fuel, enough ≤ fuel →
      matchStep fuel source goal supply i = .ok ((outcome.map Matched.done, supply'), i')) :
    Walks source goal supply i outcome supply' i' := by
  obtain ⟨enough, h⟩ := h
  refine ⟨1, enough, fun fuel hfuel frames => ?_⟩
  rw [Nat.add_comm]
  cases outcome with
  | ok copied => exact matchIn_done (h fuel hfuel)
  | error e => exact matchIn_throw (h fuel hfuel)

/-- A variable seen for the first time stands for the goal. -/
theorem first (h : i.memo.find? v = none) :
    Walks (.var v) goal supply i (.ok goal) supply { i with memo := i.memo.insert v goal } :=
  of_step ⟨0, fun fuel _ => matchStep_new fuel h⟩

/-- What a variable seen before stands for is unified with the goal. -/
theorem known {t : Term} {result : Except UnifyError Unit} (h : i.memo.find? v = some t)
    (hunify : Settles (fun fuel => unify fuel false t goal i.store) (result, s')) :
    Walks (.var v) goal supply i (result.map fun _ => t) supply { i with store := s' } := by
  obtain ⟨enough, hunify⟩ := hunify
  refine of_step ⟨enough, fun fuel hfuel => ?_⟩
  rw [matchStep_known fuel h, Instantiation.run_bind (onStore_run (hunify fuel hfuel))]
  cases result <;> rfl

end Walks

/-- What is done with a source that is no variable and the root of a goal. -/
def matchRoot (source root : Term) : Instantiation Matched :=
  match source, root with
  | _, .var w => do
    let copied ← (copy source : Build Instance Term)
    (onStore (Store.bind w copied) : Run Instance Unit)
    pure (.done copied)
  | .compound _ f x xs, .compound _ g y ys =>
    if xs.length == ys.length && f.eqv g then pure (.descend f (x, y) (xs.zip ys))
    else throw .functorMismatch
  | _, _ => if leavesAgree source root then pure (.done source) else throw (mismatch source root)

/-- A goal that is a variable is bound to a copy of the source. -/
theorem matchRoot_var (source : Term) (w : Nat) :
    matchRoot source (.var w) = (do
      let copied ← (copy source : Build Instance Term)
      (onStore (Store.bind w copied) : Run Instance Unit)
      pure (.done copied) : Instantiation Matched) := by
  cases source <;> rfl

theorem matchRoot_leaves {source root : Term} (hsource : source.kind ≠ .var)
    (hroot : root.kind ≠ .var) (hleaf : source.kind ≠ .compound ∨ root.kind ≠ .compound) :
    matchRoot source root =
      if leavesAgree source root then pure (.done source) else throw (mismatch source root) := by
  cases source <;> cases root <;>
    first
    | rfl
    | exact absurd rfl hsource
    | exact absurd rfl hroot
    | exact hleaf.elim (absurd rfl) (absurd rfl)

namespace Walks

variable {source goal root : Term} {supply supply' : Supply} {i i' : Instance} {s' : Store}
  {w : Nat}

theorem matchStep_run (hsource : source.kind ≠ .var) (fuel : Nat)
    (hderef : deref goal i.store = .ok (root, s')) :
    matchStep fuel source goal supply i = matchRoot source root supply { i with store := s' } := by
  cases source with
  | var v => exact absurd rfl hsource
  | _ =>
    unfold matchStep
    dsimp only
    rw [Instantiation.run_bind (onStore_run hderef)]
    cases root <;> rfl

/-- A goal that cannot be dereferenced ends the run. -/
theorem matchStep_error {f : Fault} (hsource : source.kind ≠ .var) (fuel : Nat)
    (hderef : deref goal i.store = .error f) : matchStep fuel source goal supply i = .error f := by
  have herror : onStore (deref goal) i = .error f := by
    unfold onStore
    rw [hderef]
  cases source with
  | var v => exact absurd rfl hsource
  | _ =>
    unfold matchStep
    exact Instantiation.run_bind_error herror

/-- An unbound variable of the goal is bound to a copy of the source. -/
theorem bind {copied : Term} (hsource : source.kind ≠ .var)
    (hderef : deref goal i.store = .ok (.var w, s'))
    (hcopy : copy source supply { i with store := s' } = .ok ((copied, supply'), i'))
    (hw : w < i'.store.cells.size) :
    Walks source goal supply i (.ok copied) supply'
      { i' with store := i'.store.bound w copied } := by
  refine of_step ⟨0, fun fuel _ => ?_⟩
  rw [matchStep_run hsource fuel hderef, matchRoot_var, Instantiation.build_bind hcopy,
    Instantiation.run_bind (onStore_run (Store.bind_run copied hw))]
  rfl

/-- Two leaves agree or do not. -/
theorem leaf (hsource : source.kind ≠ .var) (hroot : root.kind ≠ .var)
    (hleaf : source.kind ≠ .compound ∨ root.kind ≠ .compound)
    (hderef : deref goal i.store = .ok (root, s')) :
    Walks source goal supply i
      (if leavesAgree source root then .ok source else .error (mismatch source root)) supply
      { i with store := s' } := by
  refine of_step ⟨0, fun fuel _ => ?_⟩
  rw [matchStep_run hsource fuel hderef, matchRoot_leaves hsource hroot hleaf]
  split <;> rfl

section Nodes

variable {j k : Nat} {f g : Atom} {x y : Term} {xs ys : List Term}

/-- Nodes with different functors do not unify. -/
theorem functors (hderef : deref goal i.store = .ok (.compound k g y ys, s'))
    (h : ¬(xs.length = ys.length ∧ f.name = g.name)) :
    Walks (.compound j f x xs) goal supply i (.error .functorMismatch) supply
      { i with store := s' } := by
  refine of_step ⟨0, fun fuel _ => ?_⟩
  have hfalse : (xs.length == ys.length && f.eqv g) = false := by simpa [Atom.eqv] using h
  rw [matchStep_run Kind.noConfusion fuel hderef, matchRoot, hfalse]
  rfl

/-- Nodes with one functor and one arity are gone through pair by pair. -/
theorem matchIn_node (hderef : deref goal i.store = .ok (.compound k g y ys, s'))
    (hname : f.name = g.name) (hlength : xs.length = ys.length) (fuel : Nat)
    (frames : List MatchFrame) :
    matchIn (fuel + 1) (.compound j f x xs, goal) frames supply i =
      matchIn fuel (x, y) ({ functor := f, done := [], todo := xs.zip ys } :: frames) supply
        { i with store := s' } := by
  refine matchIn_descend ?_
  have htrue : (xs.length == ys.length && f.eqv g) = true := by simp [Atom.eqv, hname, hlength]
  rw [matchStep_run Kind.noConfusion fuel hderef, matchRoot, htrue]
  rfl

end Nodes

end Walks

/-- What two nodes come to once their arguments have been dealt with: a new node over the copies, or
the failure of an argument. -/
def closeMatched (functor : Atom) (outcome : Except UnifyError (List Term)) (supply : Supply) :
    Except UnifyError Term × Supply :=
  match outcome with
  | .ok copies => (.ok (Term.apply functor copies supply).1, (Term.apply functor copies supply).2)
  | .error e => (.error e, supply)

/-- The arguments of a node that has been entered are dealt with, and then the node is built, or the
walk fails. -/
theorem WalksAll.inFrame {q : Term × Term} {qs : List (Term × Term)} {supply supply' : Supply}
    {i i' : Instance} {outcome : Except UnifyError (List Term)}
    (h : WalksAll (q :: qs) supply i outcome supply' i') :
    ∃ n enough, ∀ fuel, enough ≤ fuel → ∀ functor done outer,
      matchIn (n + fuel) q ({ functor, done, todo := qs } :: outer) supply i =
        match outcome with
        | .ok copies =>
          resumeMatch fuel (Term.apply functor (done.reverse ++ copies) supply').1 outer
            (Term.apply functor (done.reverse ++ copies) supply').2 i'
        | .error e => .ok ((.error e, supply'), i') := by
  -- the induction is on the pairs that are still to come; the copies made are on the frame
  induction qs generalizing q supply i outcome with
  | nil =>
    cases h with
    | stop head =>
      obtain ⟨n, enough, head⟩ := head
      exact ⟨n, enough, fun fuel hfuel functor done outer => head fuel hfuel _⟩
    | cons head tail =>
      cases tail
      obtain ⟨n, enough, head⟩ := head
      refine ⟨n, enough, fun fuel hfuel functor done outer => ?_⟩
      rw [head fuel hfuel]
      exact resumeMatch_close
  | cons q' qs ih =>
    cases h with
    | stop head =>
      obtain ⟨n, enough, head⟩ := head
      exact ⟨n, enough, fun fuel hfuel functor done outer => head fuel hfuel _⟩
    | @cons _ _ copied _ _ _ _ _ _ _ outcome head tail =>
      obtain ⟨n, enough, head⟩ := head
      obtain ⟨m, enough', tail⟩ := ih tail
      refine ⟨n + m, max enough enough', fun fuel hfuel functor done outer => ?_⟩
      -- the fuel that the pair takes and the fuel that those after it take add up
      have hresume := tail fuel (by omega) functor (copied :: done) outer
      rw [Nat.add_assoc, head (m + fuel) (by omega)]
      refine resumeMatch_todo.trans (hresume.trans ?_)
      cases outcome with
      | ok copies => simp [Except.map]
      | error e => rfl

namespace Walks

variable {goal : Term} {supply supply' : Supply} {i i' : Instance} {s' : Store} {e : UnifyError}
  {j k : Nat} {f g : Atom} {x y : Term} {xs ys copies : List Term}

/-- Nodes with one functor come to what is made of the outcome for their arguments. -/
theorem nodes {outcome : Except UnifyError (List Term)}
    (hderef : deref goal i.store = .ok (.compound k g y ys, s')) (hname : f.name = g.name)
    (hlength : xs.length = ys.length)
    (hargs : WalksAll ((x, y) :: xs.zip ys) supply { i with store := s' } outcome supply' i') :
    Walks (.compound j f x xs) goal supply i (closeMatched f outcome supply').1
      (closeMatched f outcome supply').2 i' := by
  obtain ⟨n, enough, h⟩ := hargs.inFrame
  refine ⟨n + 1, enough, fun fuel hfuel frames => ?_⟩
  have hframe := h fuel hfuel f [] frames
  rw [Nat.add_right_comm, matchIn_node hderef hname hlength]
  cases outcome <;> exact hframe

/-- Nodes with one functor are matched argument by argument, and a new node is built. -/
theorem node (hderef : deref goal i.store = .ok (.compound k g y ys, s'))
    (hname : f.name = g.name) (hlength : xs.length = ys.length)
    (hargs : WalksAll ((x, y) :: xs.zip ys) supply { i with store := s' } (.ok copies) supply' i') :
    Walks (.compound j f x xs) goal supply i (.ok (Term.apply f copies supply').1)
      (Term.apply f copies supply').2 i' :=
  nodes hderef hname hlength hargs

/-- The first argument that fails makes the nodes fail. -/
theorem node_error (hderef : deref goal i.store = .ok (.compound k g y ys, s'))
    (hname : f.name = g.name) (hlength : xs.length = ys.length)
    (hargs : WalksAll ((x, y) :: xs.zip ys) supply { i with store := s' } (.error e) supply' i') :
    Walks (.compound j f x xs) goal supply i (.error e) supply' i' :=
  nodes hderef hname hlength hargs

/-- **The whole walk** ends as the pair does. -/
theorem settles {source : Term} {outcome : Except UnifyError Term}
    (h : Walks source goal supply i outcome supply' i') :
    Settles (fun fuel => copyAndUnify fuel source goal supply i) ((outcome, supply'), i') := by
  obtain ⟨n, enough, h⟩ := h
  refine ⟨n + enough, fun fuel hfuel => ?_⟩
  obtain ⟨extra, rfl⟩ := Nat.exists_eq_add_of_le hfuel
  show matchIn (n + enough + extra) (source, goal) [] supply i = _
  rw [Nat.add_assoc, h (enough + extra) (Nat.le_add_right _ _)]
  cases outcome <;> rfl

end Walks

end Horn
