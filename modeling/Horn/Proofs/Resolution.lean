import Horn.Clause
import Horn.Proofs.Matching

/-!
# The resolution step

Calling a clause matches its head with a goal, argument by argument, and copies its body with the
same memo. If a solution of the store and an instance of the clause make the head and the goal
equal, the call succeeds, and what it leaves is solved by exactly such solutions. So a call that
fails has none.

- `Clause.Answers`: a solution of the store and an instance whose head is the goal.
- `Clause.Resolvent`: the body and the store that a call is to leave.
- `Clause.call_resolves`: the call leaves them.
-/

namespace Horn

variable {nodes : Nat → Term} {supply supply' : Supply} {i i' : Instance}
  {σ θ : Nat → Tree Unit} {s s' : Store} {goal root : Term} {c : Clause}

/-- The substitution `σ` solves the store and `θ` makes an instance of the clause. The head of the
instance is the goal. -/
structure Clause.Answers (c : Clause) (s : Store) (goal : Term) (σ θ : Nat → Tree Unit) :
    Prop where
  solves : s.cells.Solves .numeric σ
  head : c.head.under .numeric θ = goal.under .numeric σ

/-- The solutions of the store `s'` are the answers in `s`, extended to new variables, and the body
denotes the body of the clause in the same instance. -/
structure Clause.Resolvent (c : Clause) (s : Store) (goal : Term) (body : Option Term)
    (s' : Store) : Prop where
  isNone : body.isNone = c.isFact
  sound : ∀ σ, s'.cells.Solves .numeric σ → ∃ θ, c.Answers s goal σ θ ∧
    body.map (Term.under .numeric σ) = c.body.map (Term.under .numeric θ)
  complete : ∀ σ θ, c.Answers s goal σ θ → ∃ σ', (∀ v < s.cells.size, σ' v = σ v) ∧
    s'.cells.Solves .numeric σ' ∧
      body.map (Term.under .numeric σ') = c.body.map (Term.under .numeric θ)

/-! ## The head and the goal -/

/-- Callable terms with one signature are equal when their arguments are. -/
theorem Term.under_eq_iff_arguments {t u : Term} (ht : t.isCallable = true)
    (h : t.sameSignature u = true) :
    t.arity = u.arity ∧
      (t.under .numeric θ = u.under .numeric σ ↔
        Equal .numeric θ σ (t.arguments.zip u.arguments)) := by
  cases t with
  | atom a =>
    cases u with
    | atom b => simpa [sameSignature, signature?, Signature.eqv, Atom.eqv, arity, arguments, under]
        using h
    | compound => simp [sameSignature, signature?, Signature.eqv] at h
    | _ => cases h
  | compound i f x xs =>
    cases u with
    | compound j g y ys =>
      obtain ⟨hname, hlength⟩ : f.name = g.name ∧ xs.length = ys.length := by
        simpa [sameSignature, signature?, Signature.eqv, Atom.eqv] using h
      refine ⟨congrArg Nat.succ hlength, ?_⟩
      show _ ↔ Equal .numeric θ σ ((x :: xs).zip (y :: ys))
      rw [equal_zip (by simpa using hlength), under_compound, under_compound, Tree.node.injEq]
      simp [hname, Reading.numeric]
    | atom => simp [sameSignature, signature?, Signature.eqv] at h
    | _ => cases h
  | _ => cases ht

/-! ## Running a call -/

/-- The pairs of arguments are matched as the walks are. -/
theorem WalksAll.settles {pairs : List (Term × Term)} {outcome : Except UnifyError (List Term)}
    (h : WalksAll pairs supply i outcome supply' i') :
    Settles (fun fuel => Clause.matchAll fuel pairs supply i)
      ((outcome.map fun _ => (), supply'), i') := by
  induction h with
  | nil => exact .of_forall fun _ => rfl
  | stop head =>
    refine head.settles.map fun fuel hrun => ?_
    have hdiscard := Instantiation.bind_throw (f := fun _ => pure ()) hrun
    exact Instantiation.bind_throw hdiscard
  | @cons _ _ copied _ _ _ _ _ _ _ outcome head tail ih =>
    have hmap : ((outcome.map (copied :: ·)).map fun _ => ()) = outcome.map fun _ => () := by
      cases outcome <;> rfl
    rw [hmap]
    refine head.settles.and_then ih fun fuel hrun => ?_
    have hdiscard := Instantiation.bind_ok (f := fun _ => pure ()) hrun
    exact Instantiation.bind_ok hdiscard

namespace Clause

/-- The instance of a fact has no body. -/
theorem instantiate_fact (hbody : c.body = none)
    (h : Settles (fun fuel => matchAll fuel (c.head.arguments.zip goal.arguments) supply i)
      ((.ok (), supply'), i')) :
    Settles (fun fuel => c.instantiate fuel goal supply i) ((.ok none, supply'), i') := by
  refine h.map fun fuel hrun => ?_
  rw [instantiate, Instantiation.bind_ok hrun, hbody]
  rfl

/-- The instance of a rule has a copy of its body, which is made with the memo that matching has
left. -/
theorem instantiate_rule {source copied : Term} {supply'' : Supply} {i'' : Instance}
    (hbody : c.body = some source)
    (h : Settles (fun fuel => matchAll fuel (c.head.arguments.zip goal.arguments) supply i)
      ((.ok (), supply'), i'))
    (hcopy : copy source supply' i' = .ok ((copied, supply''), i'')) :
    Settles (fun fuel => c.instantiate fuel goal supply i)
      ((.ok (some copied), supply''), i'') := by
  refine h.map fun fuel hrun => ?_
  rw [instantiate, Instantiation.bind_ok hrun, hbody]
  exact Instantiation.build_bind (f := fun t => pure (some t)) hcopy

theorem withNewMemo_run {α : Type} {x : Build Instance α} {a : α}
    (h : x supply { store := s, memo := {} } = .ok ((a, supply'), i')) :
    withNewMemo x supply s = .ok ((a, supply'), i'.store) := by
  show (withMemo {} x >>= fun r => pure r.1 : Build Store α) supply s = _
  rw [Build.bind_ok (withMemo_run h), Build.pure_run]

/-- What is returned and left is what the program on the instance returns and leaves. -/
theorem ok_of_withNewMemo {α : Type} {x : Build Instance α} {a : α}
    (h : withNewMemo x supply s = .ok ((a, supply'), s')) :
    ∃ memo, x supply { store := s, memo := {} } = .ok ((a, supply'), { store := s', memo }) := by
  obtain ⟨r, s₁, hmemo, hpure⟩ := Run.bind_eq_ok.mp
    (show (withMemo {} x supply >>= fun r => pure (r.1.1, r.2) : Run Store (α × Supply)) s = _
      from h)
  cases hpure
  unfold withMemo at hmemo
  cases hx : x supply { store := s, memo := {} } with
  | ok r => rw [hx] at hmemo; cases hmemo; exact ⟨r.2.memo, rfl⟩
  | error f => rw [hx] at hmemo; cases hmemo

/-- A call dereferences the goal, and makes an instance with an empty memo if the goal has the arity
of the head. -/
theorem call_run (hderef : deref goal s = .ok (root, s')) (fuel : Nat) (supply : Supply) :
    c.call fuel goal supply s =
      if c.head.arity = root.arity then withNewMemo (c.instantiate fuel root) supply s'
      else .error (.wrongArity root c.signature c.head.arity root.arity) := by
  have hlift : (liftM (deref goal) : ExceptT UnifyError (Build Store) Term) supply s =
      .ok ((.ok root, supply), s') := by
    show ((liftM (deref goal) : Build Store Term) >>= fun t => pure (Except.ok t) :
      Build Store (Except UnifyError Term)) supply s = _
    rw [Build.lift_bind hderef, Build.pure_run]
  rw [call]
  refine Eq.trans (Build.bind_ok hlift) ?_
  show (if c.head.arity = root.arity then ExceptT.mk (withNewMemo (c.instantiate fuel root))
    else _ : ExceptT UnifyError (Build Store) (Option Term)) supply s' = _
  split <;> rfl

/-- A call settles as the instance is made, once the goal is dereferenced and found to fit. -/
theorem call_settles {outcome : Except UnifyError (Option Term)}
    (hderef : deref goal s = .ok (root, s')) (harity : c.head.arity = root.arity)
    (h : Settles (fun fuel => c.instantiate fuel root supply { store := s', memo := {} })
      ((outcome, supply'), i')) :
    Settles (fun fuel => c.call fuel goal supply s) ((outcome, supply'), i'.store) := by
  refine h.map fun fuel hrun => ?_
  rw [call_run hderef, if_pos harity]
  exact withNewMemo_run hrun

end Clause

/-! ## What a call leaves -/

/-- With an empty memo, source variables stand for anything. -/
theorem Instance.Agrees.empty (h : s.cells.Solves .numeric σ) :
    Instance.Agrees { store := s, memo := {} } σ θ :=
  ⟨h, fun _ _ hv => nomatch hv⟩

/-- What the memo says decides what the source variables stand for. -/
theorem Instance.exists_agrees (h : i.store.cells.Solves .numeric σ) : ∃ θ, i.Agrees σ θ := by
  refine ⟨fun v => (i.memo.image v).under .numeric σ, h, fun v t hv => ?_⟩
  rw [Memo.image_of_find? hv]

namespace Clause

/-- The body of the instance is made. -/
theorem instantiate_body {nodes' : Nat → Term} {pairs : List (Term × Term)}
    (hnan : ∀ b ∈ c.body, b.NaNFree)
    (hmatch : Settles (fun fuel => matchAll fuel (c.head.arguments.zip root.arguments) supply i)
      ((.ok (), supply'), i'))
    (hadv : Advances nodes supply i pairs nodes' supply' i') :
    ∃ body nodes'' supply'' i'',
      Settles (fun fuel => c.instantiate fuel root supply i) ((.ok body, supply''), i'') ∧
        Advances nodes supply i pairs nodes'' supply'' i'' ∧ body.isNone = c.isFact ∧
        (∀ b ∈ body, i''.store.Over nodes'' supply''.next b) ∧
        ∀ σ θ, i''.Agrees σ θ →
          body.map (Term.under .numeric σ) = c.body.map (Term.under .numeric θ) := by
  cases hbody : c.body with
  | none =>
    exact ⟨none, nodes', supply', i', instantiate_fact hbody hmatch, hadv, by simp [isFact, hbody],
      (fun b hb => nomatch hb), fun σ θ _ => rfl⟩
  | some source =>
    obtain ⟨i'', hcopy, henters, hknown⟩ := copy_run source supply' i'
    -- a copy solves no equations, so it adds none to those of the head
    obtain ⟨nodes'', hadv', hover, hdenotes⟩ :=
      Advances.copied hadv.sound henters (fun v hv => (hknown v).mpr (.inr hv)) (hnan source hbody)
    have hpairs := hadv.trans hadv' fun q hq => nomatch hq
    rw [List.append_nil] at hpairs
    refine ⟨some _, nodes'', _, i'', instantiate_rule hbody hmatch hcopy, hpairs,
      by simp [isFact, hbody], ?_, fun σ θ hagree => congrArg some (hdenotes σ θ hagree)⟩
    rintro b ⟨⟩
    exact hover

section Call

variable (hs : s.Sound nodes supply.next) (hgoal : s.Over nodes supply.next goal)
  (hroot : s.cells.Root goal root) (hhead : c.head.isCallable = true)
  (hsame : c.head.sameSignature root = true)

include hroot hhead hsame in
/-- The answers are the solutions of the equations between the arguments. -/
theorem answers_iff : c.Answers s goal σ θ ↔
    s.cells.Solves .numeric σ ∧ Equal .numeric θ σ (c.head.arguments.zip root.arguments) := by
  rw [← (Term.under_eq_iff_arguments hhead hsame).2]
  constructor
  · exact fun h => ⟨h.solves, h.head.trans (h.solves.root hroot)⟩
  · exact fun h => ⟨h.1, h.2.trans (h.1.root hroot).symm⟩

include hroot hhead hsame in
/-- Store and memo of an instance that was made by solving the equations between the arguments make
a resolvent. -/
theorem resolvent_of_advances {body : Option Term} {nodes' : Nat → Term}
    (hadv : Advances nodes supply { store := s, memo := {} }
      (c.head.arguments.zip root.arguments) nodes' supply' i')
    (hfact : body.isNone = c.isFact)
    (hdenotes : ∀ σ θ, i'.Agrees σ θ →
      body.map (Term.under .numeric σ) = c.body.map (Term.under .numeric θ)) :
    c.Resolvent s goal body i'.store where
  isNone := hfact
  sound σ hσ := by
    obtain ⟨θ, hagree⟩ := Instance.exists_agrees hσ
    obtain ⟨hagree₀, hequal⟩ := hadv.solutions.sound σ θ hagree
    exact ⟨θ, (answers_iff hroot hhead hsame).mpr ⟨hagree₀.solves, hequal⟩, hdenotes σ θ hagree⟩
  complete σ θ h := by
    obtain ⟨hsolves, hequal⟩ := (answers_iff hroot hhead hsame).mp h
    obtain ⟨σ', hσ', hagree⟩ := hadv.solutions.complete σ θ (.empty hsolves) hequal
    exact ⟨σ', hσ', hagree.solves, hdenotes σ' θ hagree⟩

include hs hgoal hroot hhead hsame in
/-- A call that has an answer solves the equations between the arguments and makes the body. -/
theorem call_of_answers (hnan : c.head.NaNFree) (hnan' : ∀ b ∈ c.body, b.NaNFree)
    (hanswer : ∃ σ θ, c.Answers s goal σ θ) :
    ∃ body supply' i' nodes',
      Settles (fun fuel => c.call fuel goal supply s) ((.ok body, supply'), i'.store) ∧
        Advances nodes supply { store := s, memo := {} } (c.head.arguments.zip root.arguments)
          nodes' supply' i' ∧ body.isNone = c.isFact ∧
        (∀ b ∈ body, i'.store.Over nodes' supply'.next b) ∧
        ∀ σ θ, i'.Agrees σ θ →
          body.map (Term.under .numeric σ) = c.body.map (Term.under .numeric θ) := by
  obtain ⟨s₁, hderef, hcomp⟩ := deref_run hroot
  let i₀ : Instance := { store := s, memo := {} }
  let pairs := c.head.arguments.zip root.arguments
  have hi₀ : i₀.Sound nodes supply := ⟨hs, fun v t hv => nomatch hv⟩
  have hadv₁ : Advances nodes supply i₀ [] nodes supply { i₀ with store := s₁ } :=
    .compressed hi₀ hcomp
  -- the arguments of the root are over the store, since those of all its nodes are
  have hover : GoalsOver nodes supply i₀ pairs := by
    intro q hq
    exact ⟨(hroot.every hs.proper.closed hgoal.below).of_mem_zip hq,
      (hroot.every hs.plain hgoal.plain).of_mem_zip hq,
      (hroot.every hs.older hgoal.older).of_mem_zip hq⟩
  have hsolvable := hadv₁.exists_rest hover (by
    obtain ⟨σ, θ, h⟩ := hanswer
    obtain ⟨hsolves, hequal⟩ := (answers_iff hroot hhead hsame).mp h
    exact ⟨σ, θ, .empty hsolves, hequal⟩)
  have hmatches : ∀ q ∈ pairs, Matches q.1 := fun q hq =>
    walks_of_solvable q.1 (hnan.arg (List.of_mem_zip (show (q.1, q.2) ∈ _ from hq)).1)
  obtain ⟨copies, nodes₂, supply₂, i₂, hwalks, hadv₂⟩ :=
    walksAll_of_solvable hmatches hadv₁.sound (hadv₁.goalsOver hover) hsolvable
  obtain ⟨body, nodes₃, supply₃, i₃, hrun, hadv₃, hfact, hbody, hdenotes⟩ :=
    instantiate_body hnan' hwalks.settles hadv₂
  have harity := (Term.under_eq_iff_arguments (θ := Tree.var) (σ := Tree.var) hhead hsame).1
  exact ⟨body, supply₃, i₃, nodes₃, call_settles hderef harity hrun, hadv₁.trans hadv₃ hover, hfact,
    hbody, hdenotes⟩

end Call

/-- **A resolution step.** If a solution of the store and an instance of the clause make the head
and the goal equal, then calling the clause leaves a resolvent, in a store that is again sound. A
call that fails has no answer. -/
theorem call_resolves (hs : s.Sound nodes supply.next) (hgoal : s.Over nodes supply.next goal)
    (hroot : s.cells.Root goal root) (hhead : c.head.isCallable = true)
    (hsame : c.head.sameSignature root = true) (hnan : c.head.NaNFree)
    (hnan' : ∀ b ∈ c.body, b.NaNFree) :
    ((∃ σ θ, c.Answers s goal σ θ) → ∃ body supply' s' nodes',
      Settles (fun fuel => c.call fuel goal supply s) ((.ok body, supply'), s') ∧
        c.Resolvent s goal body s' ∧ s'.Sound nodes' supply'.next ∧
          ∀ b ∈ body, s'.Over nodes' supply'.next b) ∧
    ∀ e supply' s', Settles (fun fuel => c.call fuel goal supply s) ((.error e, supply'), s') →
      ¬∃ σ θ, c.Answers s goal σ θ := by
  constructor
  · intro hanswer
    obtain ⟨body, supply', i', nodes', hcall, hadv, hfact, hbody, hdenotes⟩ :=
      call_of_answers hs hgoal hroot hhead hsame hnan hnan' hanswer
    exact ⟨body, supply', i'.store, nodes', hcall,
      resolvent_of_advances hroot hhead hsame hadv hfact hdenotes, hadv.sound.store, hbody⟩
  · intro e supply' s' hfail hanswer
    obtain ⟨body, supply'', i', nodes', hok, -⟩ :=
      call_of_answers hs hgoal hroot hhead hsame hnan hnan' hanswer
    cases hfail.unique hok

/-- The rule `p(X, f(X, Y)) :- q(Y)`. -/
def sharing : Clause :=
  let head := .compound 0 ⟨"p", .interned 0⟩ (.var 0)
    [.compound 1 ⟨"f", .interned 1⟩ (.var 0) [.var 1]]
  { head
    body := some (.compound 2 ⟨"q", .interned 2⟩ (.var 1) [])
    varCount := 2
    signature := ⟨⟨"p", .interned 0⟩, 2⟩
    argHashes := head.arguments.map Term.unifyHash
    hasCut := false }

/-- The goal `p(X2, f(X1, 1))` has a resolvent if `X2` is an alias of `X0`. -/
theorem call_resolves_sharing :
    ∃ body supply' s', Settles (fun fuel => sharing.call fuel
        (.compound 1 ⟨"p", .interned 0⟩ (.var 2)
          [.compound 0 ⟨"f", .interned 1⟩ (.var 1) [.int 1]])
        ⟨2⟩ { cells := aliasedCells }) ((.ok (some body), supply'), s') ∧
      ∀ σ, s'.cells.Solves .numeric σ → body.under .numeric σ = .node () "q" [.leaf (.int 1)] := by
  let supply : Supply := ⟨2⟩
  let nodes : Nat → Term
    | 0 => .compound 0 ⟨"f", .interned 1⟩ (.var 1) [.int 1]
    | _ => .compound 1 ⟨"p", .interned 0⟩ (.var 2)
      [.compound 0 ⟨"f", .interned 1⟩ (.var 1) [.int 1]]
  let goal : Term := nodes 1
  have hs : Store.Sound nodes supply.next { cells := aliasedCells } := sound_aliasedCells _ _
  have hgoal : Store.Over nodes supply.next { cells := aliasedCells } goal :=
    ⟨by simp [goal, nodes, aliasedCells, Term.Bounded], by simp [goal, nodes, Term.Plain],
      by simp [goal, nodes, supply, Term.Dated]⟩
  have hanswers : sharing.Answers { cells := aliasedCells } goal (fun _ => .leaf (.int 1))
      fun _ => .leaf (.int 1) := by
    refine ⟨fun v t hv => ?_, rfl⟩
    obtain ⟨rfl, rfl⟩ := bound_aliasedCells hv
    rfl
  obtain ⟨hcall, -⟩ := call_resolves (c := sharing) hs hgoal rfl rfl rfl
    (by simp [sharing, Term.NotNaN]) (by simp [sharing, Term.NotNaN])
  obtain ⟨body, supply', s', -, hsettles, hres, -⟩ := hcall ⟨_, _, hanswers⟩
  obtain ⟨body, rfl⟩ : ∃ b, body = some b := Option.isSome_iff_exists.mp (by
    have := hres.isNone
    cases body <;> simp_all [isFact, sharing])
  refine ⟨body, supply', s', hsettles, fun σ hσ => ?_⟩
  obtain ⟨θ, hanswer, hbody⟩ := hres.sound σ hσ
  have hθ : θ 1 = .leaf (.int 1) := by
    have hhead := hanswer.head
    simp [sharing, goal, nodes, Term.under, Term.underAll] at hhead
    exact hhead.2.2
  rw [Option.some.inj hbody, ← hθ]
  rfl

end Clause

end Horn
