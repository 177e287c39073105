import Horn.Proofs.Moves

/-!
# Unification from left to right

Unification keeps the pairs that are still to be made equal on a stack. It does what a recursion
over the two terms does that unifies the arguments of nodes one after the other and stops at the
first failure: it returns the same and leaves the same store, which has the same changes in its
journal. The pairs that are pushed while others wait do not come in between.

- `unifyTerms`: the recursion.
- `unifyOnStack`: the loop with a stack that has its top at the end.
- `unifyPairs_append`: pairs in front of others are worked off before these.
- `unifyPairs_iff`: the loop returns what the recursion returns.
- `ComesTo`: the pairs that unification comes to, with the stores that it has by then.
- `unify_leftToRight`: the loop is the recursion, and its error that of the first pair that fails.
-/

namespace Horn

/-- Unification by recursion. What the two terms lead to decides: a variable is bound, two leaves
are compared, and the arguments of two nodes are unified one after the other. A node unifies with
itself. -/
def unifyTerms (occursCheck : Bool) : Nat → Term → Term → Attempt Unit
  | 0, _, _ => (Run.fail .outOfFuel : Run Store Unit)
  | fuel + 1, a, b => do
    let a ← (deref a : Run Store Term)
    let b ← (deref b : Run Store Term)
    match a, b with
    | .var v, .var w => if v == w then pure () else bindVar fuel occursCheck v b
    | .var v, _ => bindVar fuel occursCheck v b
    | _, .var w => bindVar fuel occursCheck w a
    | .compound i f x xs, .compound j g y ys =>
      if xs.length == ys.length && f.eqv g then
        if i == j then pure ()
        else ((x, y) :: xs.zip ys).forM fun (x, y) => unifyTerms occursCheck fuel x y
      else throw .functorMismatch
    | _, _ => if leavesAgree a b then pure () else throw (mismatch a b)

/-- Pairs are unified one after the other. -/
def unifyEach (occursCheck : Bool) (fuel : Nat) (pairs : List (Term × Term)) : Attempt Unit :=
  pairs.forM fun (a, b) => unifyTerms occursCheck fuel a b

/-- The loop with a stack of pairs that has its top at the end. The pairs of arguments are pushed
from the last one to the first. -/
def unifyOnStack (occursCheck : Bool) : Nat → Term → Term → Array (Term × Term) → Attempt Unit
  | 0, _, _, _ => (Run.fail .outOfFuel : Run Store Unit)
  | fuel + 1, a, b, pending => do
    let more ← unifyStep fuel occursCheck a b
    let pending := pending ++ more.reverse
    match pending.back? with
    | some (a, b) => unifyOnStack occursCheck fuel a b pending.pop
    | none => pure ()

variable {occursCheck : Bool} {n m : Nat} {s s' : Store} {a b : Term}
  {pairs more rest : List (Term × Term)}

/-! ## More steps change nothing -/

/-- The search returns whatever it returns with less fuel. -/
theorem searchVar_outlasts (v : Nat) : ∀ {n m : Nat}, n ≤ m → ∀ ts,
    Outlasts (searchVar v m ts) (searchVar v n ts)
  | 0, 0, _, _ => .refl _
  | 0, _ + 1, _, [] => .refl _
  | 0, _ + 1, _, _ :: _ => .fail _ _
  | _ + 1, _ + 1, _, [] => .refl _
  | n + 1, m + 1, h, t :: rest => by
    have hle : n ≤ m := Nat.le_of_succ_le_succ h
    refine .bind (.refl (deref t)) fun r => ?_
    cases r with
    | var w =>
      dsimp only
      split
      · exact .refl _
      · exact searchVar_outlasts v hle rest
    | compound i f x xs => exact searchVar_outlasts v hle _
    | _ => exact searchVar_outlasts v hle rest

theorem bindVar_outlasts (h : n ≤ m) (v : Nat) (value : Term) :
    Outlasts (bindVar m occursCheck v value) (bindVar n occursCheck v value) := by
  unfold bindVar
  cases occursCheck with
  | false => exact .refl _
  | true =>
    exact .attempt (.lift (searchVar_outlasts v h [value])) fun found => .refl _

theorem unifyStep_outlasts (h : n ≤ m) (a b : Term) :
    Outlasts (unifyStep m occursCheck a b) (unifyStep n occursCheck a b) := by
  rw [unifyStep_eq, unifyStep_eq]
  refine .attempt (.refl _) fun ra => .attempt (.refl _) fun rb => ?_
  cases Move.ofRoots ra rb with
  | pairs more => exact .refl _
  | bind v t => exact .attempt (bindVar_outlasts h v t) fun _ => .refl _
  | fail e => exact .refl _

theorem unifyPairs_nil (fuel : Nat) : unifyPairs occursCheck fuel [] = pure () := by
  cases fuel <;> rfl

/-- **More fuel** makes no difference to the loop once it has ended. -/
theorem unifyPairs_outlasts : ∀ {n m : Nat}, n ≤ m → ∀ pairs,
    Outlasts (unifyPairs occursCheck m pairs) (unifyPairs occursCheck n pairs)
  | n, m, _, [] => by
    rw [unifyPairs_nil, unifyPairs_nil]
    exact .refl _
  | 0, _, _, _ :: _ => fun _ _ h => nomatch h
  | n + 1, m + 1, h, (a, b) :: rest => by
    have hle : n ≤ m := Nat.le_of_succ_le_succ h
    exact .attempt (unifyStep_outlasts hle a b) fun more =>
      unifyPairs_outlasts hle (more ++ rest)

/-! ## The stack -/

/-- The stack has the pairs of the list in the opposite order. -/
theorem unifyOnStack_eq (fuel : Nat) (a b : Term) (pending : Array (Term × Term)) :
    unifyOnStack occursCheck fuel a b pending =
      unifyPairs occursCheck fuel ((a, b) :: pending.toList.reverse) := by
  induction fuel generalizing a b pending with
  | zero => rfl
  | succ fuel ih =>
    refine bind_congr fun more => ?_
    have hlist : (pending ++ more.reverse).toList.reverse = more ++ pending.toList.reverse := by
      simp
    rw [← hlist]
    dsimp only
    generalize pending ++ more.reverse = pending
    -- the last entry of the stack is the head of the list
    cases hback : pending.back? with
    | none =>
      rw [Array.back?_eq_none_iff.mp hback]
      exact (unifyPairs_nil fuel).symm
    | some q =>
      obtain ⟨below, rfl⟩ := Array.back?_eq_some_iff.mp hback
      simpa using ih q.1 q.2 below

/-! ## The recursion -/

/-- A binding leaves no pairs. -/
theorem bindVar_unifyEach (fuel : Nat) (v : Nat) (value : Term) :
    ((bindVar fuel occursCheck v value >>= fun _ => pure []) >>= unifyEach occursCheck fuel :
      Attempt Unit) = bindVar fuel occursCheck v value := by
  simp [unifyEach]

/-- A pair is unified by a step and then the pairs that the step leaves. -/
theorem unifyTerms_succ (fuel : Nat) (a b : Term) :
    unifyTerms occursCheck (fuel + 1) a b =
      unifyStep fuel occursCheck a b >>= unifyEach occursCheck fuel := by
  rw [unifyTerms, unifyStep, bind_assoc]
  refine bind_congr fun ra => ?_
  rw [bind_assoc]
  refine bind_congr fun rb => ?_
  cases ra <;> cases rb <;> dsimp only
  case var.var v w =>
    split
    · rfl
    · exact (bindVar_unifyEach fuel v _).symm
  case compound.compound i f x xs j g y ys =>
    split
    · split <;> rfl
    · rfl
  case atom.atom | int.int | float.float | box.box => split <;> rfl
  all_goals first | rfl | exact (bindVar_unifyEach fuel _ _).symm

/-- A list of pairs is worked off from its first pair on. -/
theorem unifyEach_cons (fuel : Nat) (a b : Term) (rest : List (Term × Term)) :
    unifyEach occursCheck fuel ((a, b) :: rest) =
      unifyTerms occursCheck fuel a b >>= fun _ => unifyEach occursCheck fuel rest :=
  List.forM_cons

/-- Working off two lists is working off one after the other. -/
theorem unifyEach_append (fuel : Nat) (more rest : List (Term × Term)) :
    unifyEach occursCheck fuel (more ++ rest) =
      unifyEach occursCheck fuel more >>= fun _ => unifyEach occursCheck fuel rest :=
  List.forM_append

theorem unifyEach_outlasts_of {n m : Nat}
    (h : ∀ a b, Outlasts (unifyTerms occursCheck m a b) (unifyTerms occursCheck n a b)) :
    ∀ pairs, Outlasts (unifyEach occursCheck m pairs) (unifyEach occursCheck n pairs)
  | [] => .refl _
  | (a, b) :: rest => by
    rw [unifyEach_cons, unifyEach_cons]
    exact .attempt (h a b) fun _ => unifyEach_outlasts_of h rest

/-- More fuel makes no difference to the recursion. -/
theorem unifyTerms_outlasts : ∀ {n m : Nat}, n ≤ m → ∀ a b,
    Outlasts (unifyTerms occursCheck m a b) (unifyTerms occursCheck n a b)
  | 0, _, _, _, _ => fun _ _ h => nomatch h
  | n + 1, m + 1, h, a, b => by
    have hle : n ≤ m := Nat.le_of_succ_le_succ h
    rw [unifyTerms_succ, unifyTerms_succ]
    exact .attempt (unifyStep_outlasts hle a b) (unifyEach_outlasts_of (unifyTerms_outlasts hle))

theorem unifyEach_outlasts {n m : Nat} (h : n ≤ m) (pairs : List (Term × Term)) :
    Outlasts (unifyEach occursCheck m pairs) (unifyEach occursCheck n pairs) :=
  unifyEach_outlasts_of (unifyTerms_outlasts h) pairs

/-! ## The loop and the recursion -/

/-- What the loop returns in some steps, the recursion returns with as many. -/
theorem unifyEach_outlasts_unifyPairs : ∀ fuel (pairs : List (Term × Term)),
    Outlasts (unifyEach occursCheck fuel pairs) (unifyPairs occursCheck fuel pairs)
  | fuel, [] => by
    rw [unifyPairs_nil]
    exact .refl _
  | 0, _ :: _ => fun _ _ h => nomatch h
  | fuel + 1, (a, b) :: rest => by
    -- the pairs of a step stand in front of the rest, so they are a recursion of their own
    have hrest : ∀ more, Outlasts
        (unifyEach occursCheck fuel more >>= fun _ => unifyEach occursCheck (fuel + 1) rest :
          Attempt Unit)
        (unifyPairs occursCheck fuel (more ++ rest)) := by
      intro more
      refine .trans ?_ (unifyEach_outlasts_unifyPairs fuel (more ++ rest))
      rw [unifyEach_append]
      exact .attempt (.refl _) fun _ => unifyEach_outlasts (Nat.le_succ fuel) rest
    rw [unifyEach_cons, unifyTerms_succ, bind_assoc]
    exact .attempt (.refl _) hrest

/-- The loop works off the pairs in front of others before these. -/
theorem unifyPairs_append : ∀ n m (more rest : List (Term × Term)),
    Outlasts (unifyPairs occursCheck (n + m) (more ++ rest))
      (unifyPairs occursCheck n more >>= fun _ => unifyPairs occursCheck m rest : Attempt Unit)
  | n, m, [], rest => by
    rw [unifyPairs_nil, pure_bind]
    exact unifyPairs_outlasts (Nat.le_add_left m n) rest
  | 0, _, _ :: _, _ => fun _ _ h => nomatch h
  | n + 1, m, (a, b) :: more, rest => by
    rw [Nat.add_right_comm, List.cons_append, unifyPairs, unifyPairs, bind_assoc]
    refine .attempt (unifyStep_outlasts (Nat.le_add_right n m) a b) fun mine => ?_
    rw [← List.append_assoc]
    exact unifyPairs_append n m (mine ++ more) rest

/-- A step and what the loop makes of its pairs. -/
theorem exists_unifyPairs_of_step {fuel : Nat} {r : Except UnifyError Unit × Store}
    (hpairs : ∀ pairs s, unifyEach occursCheck fuel pairs s = .ok r →
      ∃ enough, unifyPairs occursCheck enough pairs s = .ok r)
    (h : unifyTerms occursCheck (fuel + 1) a b s = .ok r) :
    ∃ enough, unifyPairs occursCheck enough [(a, b)] s = .ok r := by
  rw [unifyTerms_succ] at h
  rcases Attempt.bind_eq_ok.mp h with ⟨more, s₁, hstep, hmore⟩ | ⟨e, s₁, hstep, rfl⟩
  · obtain ⟨enough, hrun⟩ := hpairs more s₁ hmore
    refine ⟨max fuel enough + 1, Attempt.bind_eq_ok.mpr (.inl ⟨more, s₁, ?_, ?_⟩)⟩
    · exact unifyStep_outlasts (Nat.le_max_left _ _) a b s _ hstep
    · rw [List.append_nil]
      exact unifyPairs_outlasts (Nat.le_max_right _ _) more s₁ r hrun
  · exact ⟨fuel + 1, Attempt.bind_eq_ok.mpr (.inr ⟨e, s₁, hstep, rfl⟩)⟩

/-- What the recursion returns, the loop returns in some number of steps. -/
theorem exists_unifyPairs_of_unifyEach {r : Except UnifyError Unit × Store} (fuel : Nat)
    (pairs : List (Term × Term)) (s : Store) (h : unifyEach occursCheck fuel pairs s = .ok r) :
    ∃ enough, unifyPairs occursCheck enough pairs s = .ok r := by
  induction fuel generalizing pairs s r with
  | zero =>
    cases pairs with
    | nil => exact ⟨0, h⟩
    | cons _ _ => exact nomatch h
  | succ fuel ih =>
    induction pairs generalizing s with
    | nil => exact ⟨0, h⟩
    | cons q rest ihrest =>
      obtain ⟨a, b⟩ := q
      rw [unifyEach_cons] at h
      rcases Attempt.bind_eq_ok.mp h with ⟨_, s₁, hfirst, hrest⟩ | ⟨e, s₁, hfirst, rfl⟩
      · -- the loop first works off what the first pair brings, and then the rest
        obtain ⟨n, hn⟩ := exists_unifyPairs_of_step ih hfirst
        obtain ⟨m, hm⟩ := ihrest s₁ hrest
        exact ⟨n + m, unifyPairs_append n m [(a, b)] rest s r
          (Attempt.bind_eq_ok.mpr (.inl ⟨_, s₁, hn, hm⟩))⟩
      · obtain ⟨n, hn⟩ := exists_unifyPairs_of_step ih hfirst
        exact ⟨n + 0, unifyPairs_append n 0 [(a, b)] rest s _
          (Attempt.bind_eq_ok.mpr (.inr ⟨e, s₁, hn, rfl⟩))⟩

/-- **The loop returns what the recursion returns**, and leaves the same store. -/
theorem unifyPairs_iff {r : Except UnifyError Unit × Store} :
    (∃ fuel, unifyPairs occursCheck fuel pairs s = .ok r) ↔
      ∃ fuel, unifyEach occursCheck fuel pairs s = .ok r := by
  constructor
  · rintro ⟨fuel, h⟩
    exact ⟨fuel, unifyEach_outlasts_unifyPairs fuel pairs s r h⟩
  · rintro ⟨fuel, h⟩
    exact exists_unifyPairs_of_unifyEach fuel pairs s h

theorem unifyEach_single (fuel : Nat) (a b : Term) :
    unifyEach occursCheck fuel [(a, b)] = unifyTerms occursCheck fuel a b := by
  simp [unifyEach]

/-- **The loop and the recursion end alike.** -/
theorem unify_iff {r : Except UnifyError Unit × Store} :
    (∃ fuel, unify fuel occursCheck a b s = .ok r) ↔
      ∃ fuel, unifyTerms occursCheck fuel a b s = .ok r := by
  show (∃ fuel, unifyPairs occursCheck fuel [(a, b)] s = .ok r) ↔ _
  simp only [unifyPairs_iff, unifyEach_single]

/-! ## The first failure -/

/-- Unification of two terms comes to a pair: to the two terms themselves, or to a pair of arguments
of nodes that it has come to, when all pairs of arguments before it have been unified. The store is
the one it has by then. -/
inductive ComesTo (occursCheck : Bool) (a b : Term) (s : Store) : Term → Term → Store → Prop where
  | start : ComesTo occursCheck a b s a b s
  | argument {c d x y : Term} {before after : List (Term × Term)} {s₁ s₂ s₃ : Store} {fuel : Nat}
      (nodes : ComesTo occursCheck a b s c d s₁)
      (step : unifyStep fuel occursCheck c d s₁ = .ok (.ok (before ++ (x, y) :: after), s₂))
      (earlier : unifyEach occursCheck fuel before s₂ = .ok (.ok (), s₃)) :
      ComesTo occursCheck a b s x y s₃

/-- The error of a list of pairs is that of one of them, before which the others are unified. -/
theorem exists_of_unifyEach_error {fuel : Nat} {e : UnifyError} : ∀ {pairs} {s : Store},
    unifyEach occursCheck fuel pairs s = .ok (.error e, s') →
      ∃ before x y after s₁, pairs = before ++ (x, y) :: after ∧
        unifyEach occursCheck fuel before s = .ok (.ok (), s₁) ∧
        unifyTerms occursCheck fuel x y s₁ = .ok (.error e, s')
  | [], _, h => nomatch h
  | (a, b) :: rest, s, h => by
    rw [unifyEach_cons] at h
    rcases Attempt.bind_eq_ok.mp h with ⟨u, s₁, hfirst, hrest⟩ | ⟨e', s₁, hfirst, heq⟩
    · obtain ⟨before, x, y, after, s₂, rfl, hbefore, hfail⟩ := exists_of_unifyEach_error hrest
      refine ⟨(a, b) :: before, x, y, after, s₂, rfl, ?_, hfail⟩
      rw [unifyEach_cons]
      exact Attempt.bind_eq_ok.mpr (.inl ⟨u, s₁, hfirst, hbefore⟩)
    · cases heq
      exact ⟨[], a, b, rest, s, rfl, rfl, hfirst⟩

namespace ComesTo

variable {c d x y : Term} {s₁ s₂ : Store} {e : UnifyError}

/-- What is come to from a pair that has been come to. -/
theorem trans (h : ComesTo occursCheck a b s c d s₁) (h' : ComesTo occursCheck c d s₁ x y s₂) :
    ComesTo occursCheck a b s x y s₂ := by
  induction h' with
  | start => exact h
  | argument _ step earlier ih => exact .argument ih step earlier

/-- When a pair that unification comes to fails, all fails. -/
theorem fails (h : ComesTo occursCheck a b s c d s₁)
    (hfail : ∃ fuel, unifyTerms occursCheck fuel c d s₁ = .ok (.error e, s')) :
    ∃ fuel, unifyTerms occursCheck fuel a b s = .ok (.error e, s') := by
  induction h with
  | start => exact hfail
  | @argument c d x y before after s₁ s₂ s₃ n _ step earlier ih =>
    obtain ⟨m, hm⟩ := hfail
    have hn : n ≤ max n m := Nat.le_max_left n m
    have hearlier := unifyEach_outlasts hn before s₂ _ earlier
    have hlast := unifyTerms_outlasts (Nat.le_max_right n m) x y s₃ _ hm
    refine ih ⟨max n m + 1, ?_⟩
    rw [unifyTerms_succ, Attempt.bind_ok (unifyStep_outlasts hn c d s₁ _ step), unifyEach_append,
      Attempt.bind_ok hearlier, unifyEach_cons, Attempt.bind_throw hlast]

/-- The failure of a recursion is that of a pair which it comes to. -/
theorem exists_of_error {fuel : Nat} (h : unifyTerms occursCheck fuel a b s = .ok (.error e, s')) :
    ∃ c d s₁, ComesTo occursCheck a b s c d s₁ ∧
      ∃ fuel, unifyStep fuel occursCheck c d s₁ = .ok (.error e, s') := by
  induction fuel generalizing a b s with
  | zero => exact nomatch h
  | succ fuel ih =>
    rw [unifyTerms_succ] at h
    rcases Attempt.bind_eq_ok.mp h with ⟨more, s₁, hstep, hmore⟩ | ⟨e', s₁, hstep, heq⟩
    · obtain ⟨before, x, y, after, s₂, rfl, hbefore, hfail⟩ := exists_of_unifyEach_error hmore
      obtain ⟨c, d, s₃, hcomes, hlast⟩ := ih hfail
      exact ⟨c, d, s₃, (ComesTo.argument .start hstep hbefore).trans hcomes, hlast⟩
    · cases heq
      exact ⟨a, b, s, .start, fuel, hstep⟩

end ComesTo

/-- **Unification goes from left to right.** With the occurs check or without, on any store, the
loop with a stack of pairs returns what the recursion returns: the same result or error, and the
same store, in whose journal are the same bindings in the same order. The error is that of the first
pair which fails when pairs of arguments are gone through depth first and from left to right, with
the bindings that there are when it is come to. -/
theorem unify_leftToRight (occursCheck : Bool) (a b : Term) (s : Store) :
    (∀ fuel, unifyOnStack occursCheck fuel a b #[] = unify fuel occursCheck a b) ∧
    (∀ result s', (∃ fuel, unify fuel occursCheck a b s = .ok (result, s')) ↔
      ∃ fuel, unifyTerms occursCheck fuel a b s = .ok (result, s')) ∧
    ∀ e s', (∃ fuel, unify fuel occursCheck a b s = .ok (.error e, s')) ↔
      ∃ c d s₁, ComesTo occursCheck a b s c d s₁ ∧
        ∃ fuel, unifyStep fuel occursCheck c d s₁ = .ok (.error e, s') := by
  refine ⟨fun fuel => unifyOnStack_eq fuel a b #[], fun result s' => unify_iff,
    fun e s' => unify_iff.trans ?_⟩
  constructor
  · rintro ⟨fuel, h⟩
    exact ComesTo.exists_of_error h
  · rintro ⟨c, d, s₁, hcomes, fuel, hstep⟩
    refine hcomes.fails ⟨fuel + 1, ?_⟩
    rw [unifyTerms_succ, Attempt.bind_throw hstep]

/-- Unifying `f(g(X0, 1), X0)` with `f(g(7, 2), 8)` fails at `1` and `2`, when `X0` has been bound
and before it is come to as the second argument of `f`. -/
theorem unify_leftToRight_nested :
    let a : Term := .compound 1 ⟨"f", .interned 0⟩
      (.compound 0 ⟨"g", .interned 1⟩ (.var 0) [.int 1]) [.var 0]
    let b : Term := .compound 3 ⟨"f", .interned 0⟩
      (.compound 2 ⟨"g", .interned 1⟩ (.int 7) [.int 2]) [.int 8]
    let s : Store := { cells := #[none] }
    let left : Store := { cells := #[some (.int 7)], journal := [.bind 0 (.int 7)] }
    (∃ fuel, unifyTerms false fuel a b s = .ok (.error .numberMismatch, left)) ∧
      ComesTo false a b s (.int 1) (.int 2) left := by
  intro a b s left
  have hrun : unify 4 false a b s = .ok (.error .numberMismatch, left) := rfl
  refine ⟨((unify_leftToRight false a b s).2.1 _ _).mp ⟨4, hrun⟩, ?_⟩
  have houter : unifyStep 4 false a b s = .ok (.ok ([] ++
      (.compound 0 ⟨"g", .interned 1⟩ (.var 0) [.int 1],
        .compound 2 ⟨"g", .interned 1⟩ (.int 7) [.int 2]) :: [(.var 0, .int 8)]), s) := rfl
  have hinner : unifyStep 4 false (.compound 0 ⟨"g", .interned 1⟩ (.var 0) [.int 1])
      (.compound 2 ⟨"g", .interned 1⟩ (.int 7) [.int 2]) s =
        .ok (.ok ([(.var 0, .int 7)] ++ (.int 1, .int 2) :: []), s) := rfl
  exact .argument (.argument .start houter rfl) hinner rfl

end Horn
