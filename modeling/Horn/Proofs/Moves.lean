import Horn.Proofs.OccursCheck

/-!
# Unification as a series of moves

What unification does with a pair is decided by the roots of its two terms: it replaces the pair by
pairs of arguments, binds a variable, or fails. `Move.ofRoots` is that decision, `Move.Made` its
cases, and `unify_induction` the induction on how the list of pairs is worked off, in which the
resolved terms of the list get smaller or fewer variables are unbound.

- `unifyStep_eq`, `unifyStep_run`: a step dereferences both terms and makes the move of their roots.
- `Move.Made.holds_iff`: a move keeps the solutions of the equations.
- `unify_induction`: induction over the moves.
-/

namespace Horn

/-- What is done with a pair of roots. -/
inductive Move where
  /-- These pairs take the place of the pair. -/
  | pairs (more : List (Term × Term))
  /-- The variable is bound to the term. -/
  | bind (v : Nat) (t : Term)
  /-- The terms do not unify. -/
  | fail (e : UnifyError)

namespace Move

/-- The move that is made for two roots. -/
def ofRoots (a b : Term) : Move :=
  match a, b with
  | .var v, .var w => if v == w then .pairs [] else .bind v b
  | .var v, _ => .bind v b
  | _, .var w => .bind w a
  | .compound i f x xs, .compound j g y ys =>
    if xs.length == ys.length && f.eqv g then .pairs (if i == j then [] else (x, y) :: xs.zip ys)
    else .fail .functorMismatch
  | _, _ => if leavesAgree a b then .pairs [] else .fail (mismatch a b)

/-- What is left to be done after a move. -/
def run (fuel : Nat) (occursCheck : Bool) : Move → Attempt (List (Term × Term))
  | .pairs more => pure more
  | .bind v t => do
    bindVar fuel occursCheck v t
    pure []
  | .fail e => throw e

/-- The cases of `Move.ofRoots`. -/
inductive Made : Term → Term → Move → Prop where
  | same (v : Nat) : Made (.var v) (.var v) (.pairs [])
  | left {v : Nat} {b : Term} (h : b ≠ .var v) : Made (.var v) b (.bind v b)
  | right {w : Nat} {a : Term} (h : a.kind ≠ .var) : Made a (.var w) (.bind w a)
  | shared {i : Nat} {f g : Atom} {x y : Term} {xs ys : List Term}
      (hname : f.name = g.name) (hlength : xs.length = ys.length) :
      Made (.compound i f x xs) (.compound i g y ys) (.pairs [])
  | descend {i j : Nat} {f g : Atom} {x y : Term} {xs ys : List Term} (hij : i ≠ j)
      (hname : f.name = g.name) (hlength : xs.length = ys.length) :
      Made (.compound i f x xs) (.compound j g y ys) (.pairs ((x :: xs).zip (y :: ys)))
  | functors {i j : Nat} {f g : Atom} {x y : Term} {xs ys : List Term}
      (h : ¬(xs.length = ys.length ∧ f.name = g.name)) :
      Made (.compound i f x xs) (.compound j g y ys) (.fail .functorMismatch)
  | leaves {a b : Term} (ha : a.kind ≠ .var) (hb : b.kind ≠ .var) (h : leavesAgree a b = true) :
      Made a b (.pairs [])
  | mismatch {a b : Term} (ha : a.kind ≠ .var) (hb : b.kind ≠ .var)
      (hab : a.kind ≠ .compound ∨ b.kind ≠ .compound) (h : leavesAgree a b = false) :
      Made a b (.fail (Horn.mismatch a b))

/-- A variable is bound to anything else. -/
theorem ofRoots_var {v : Nat} {b : Term} (h : b ≠ .var v) : ofRoots (.var v) b = .bind v b := by
  cases b with
  | var w =>
    have hvw : v ≠ w := fun hvw => h (congrArg Term.var hvw.symm)
    simp [ofRoots, hvw]
  | _ => rfl

theorem ofRoots_var_right {w : Nat} {a : Term} (h : a.kind ≠ .var) :
    ofRoots a (.var w) = .bind w a := by
  cases a <;> first | rfl | exact absurd rfl h

/-- Leaves are compared. -/
theorem ofRoots_leaves {a b : Term} (ha : a.kind ≠ .var) (hb : b.kind ≠ .var)
    (hab : a.kind ≠ .compound ∨ b.kind ≠ .compound) :
    ofRoots a b = if leavesAgree a b then .pairs [] else .fail (Horn.mismatch a b) := by
  cases a <;> cases b <;>
    first
    | rfl
    | exact absurd rfl ha
    | exact absurd rfl hb
    | exact hab.elim (absurd rfl) (absurd rfl)

section Nodes

variable {i j : Nat} {f g : Atom} {x y : Term} {xs ys : List Term}

/-- Two nodes that are one and the same leave no pairs, as their arguments need not be looked at. -/
theorem ofRoots_shared (hname : f.name = g.name) (hlength : xs.length = ys.length) :
    ofRoots (.compound i f x xs) (.compound i g y ys) = .pairs [] := by
  simp [ofRoots, Atom.eqv, hname, hlength]

/-- Other nodes with one functor and one arity leave the pairs of their arguments. -/
theorem ofRoots_nodes (hij : i ≠ j) (hname : f.name = g.name) (hlength : xs.length = ys.length) :
    ofRoots (.compound i f x xs) (.compound j g y ys) = .pairs ((x :: xs).zip (y :: ys)) := by
  simp [ofRoots, Atom.eqv, hname, hlength, hij]

theorem ofRoots_functors (h : ¬(xs.length = ys.length ∧ f.name = g.name)) :
    ofRoots (.compound i f x xs) (.compound j g y ys) = .fail .functorMismatch := by
  have hfalse : (xs.length == ys.length && f.eqv g) = false := by simpa [Atom.eqv] using h
  simp [ofRoots, hfalse]

end Nodes

/-- **The move** is the one that the two roots call for. -/
theorem made_ofRoots (a b : Term) : Made a b (ofRoots a b) := by
  by_cases ha : a.kind = .var
  · cases a with
    | var v =>
      by_cases hb : b = .var v
      · subst hb
        simpa [ofRoots] using Made.same v
      · exact ofRoots_var hb ▸ .left hb
    | _ => cases ha
  -- no variable on the left
  by_cases hb : b.kind = .var
  · cases b with
    | var w => exact ofRoots_var_right ha ▸ .right ha
    | _ => cases hb
  -- no variables at all: two nodes, or a comparison of leaves
  by_cases hab : a.kind ≠ .compound ∨ b.kind ≠ .compound
  · rw [ofRoots_leaves ha hb hab]
    split
    · rename_i h
      exact .leaves ha hb h
    · rename_i h
      exact .mismatch ha hb hab (by simpa using h)
  · simp only [ne_eq, not_or, Decidable.not_not] at hab
    cases a with
    | compound i f x xs =>
      cases b with
      | compound j g y ys =>
        by_cases h : xs.length = ys.length ∧ f.name = g.name
        · by_cases hij : i = j
          · subst hij
            exact ofRoots_shared h.2 h.1 ▸ .shared h.2 h.1
          · exact ofRoots_nodes hij h.2 h.1 ▸ .descend hij h.2 h.1
        · exact ofRoots_functors h ▸ .functors h
      | _ => cases hab.2
    | _ => cases hab.1

end Move

/-! ## What the pairs of a list have in common -/

/-- Both terms of each pair have the property in all their subterms. -/
def PairsEvery (p : Term → Prop) (pairs : List (Term × Term)) : Prop :=
  ∀ q ∈ pairs, q.1.Every p ∧ q.2.Every p

theorem pairsEvery_cons {p : Term → Prop} {a b : Term} {rest : List (Term × Term)} :
    PairsEvery p ((a, b) :: rest) ↔ (a.Every p ∧ b.Every p) ∧ PairsEvery p rest := by
  simp [PairsEvery]

theorem pairsEvery_single {p : Term → Prop} {a b : Term} (ha : a.Every p) (hb : b.Every p) :
    PairsEvery p [(a, b)] := List.forall_mem_singleton.mpr ⟨ha, hb⟩

theorem pairsEvery_append {p : Term → Prop} {more rest : List (Term × Term)} :
    PairsEvery p (more ++ rest) ↔ PairsEvery p more ∧ PairsEvery p rest :=
  List.forall_mem_append

theorem pairsEvery_arguments {p : Term → Prop} {a b : Term} (ha : a.Every p) (hb : b.Every p) :
    PairsEvery p (a.arguments.zip b.arguments) :=
  fun q hq => ⟨ha.arg (List.of_mem_zip (show (q.1, q.2) ∈ _ from hq)).1, hb.of_mem_zip hq⟩

/-- Pairs of arguments are smaller than the node on the left. -/
theorem sizeAll_arguments_zip_lt {ν : Type} {r : Reading ν} {σ : Nat → Tree ν} {x y : Term}
    {xs ys : List Term} (i : Nat) (f : Atom) (hlength : xs.length = ys.length) :
    Tree.sizeAll (((x :: xs).zip (y :: ys)).map fun q => q.1.under r σ) <
      ((Term.compound i f x xs).under r σ).size := by
  have hfst : ((x :: xs).zip (y :: ys)).map (fun q => q.1.under r σ) =
      (x :: xs).map (Term.under r σ) := by
    have hzip : ((x :: xs).zip (y :: ys)).map Prod.fst = x :: xs :=
      List.map_fst_zip (by simp [hlength])
    rw [← congrArg (List.map (Term.under r σ)) hzip, List.map_map]
    rfl
  rw [hfst, Term.under_compound, Tree.size]
  exact Nat.lt_succ_self _

/-- All pairs are over the variables below `n`. -/
def PairsBelow (n : Nat) (pairs : List (Term × Term)) : Prop :=
  ∀ q ∈ pairs, q.1.Below n ∧ q.2.Below n

theorem pairsBelow_single {n : Nat} {a b : Term} (ha : a.Below n) (hb : b.Below n) :
    PairsBelow n [(a, b)] := pairsEvery_single ha hb

/-- The first term of each pair under `θ` equals the second one under `σ`. -/
def Equal {ν : Type} (r : Reading ν) (θ σ : Nat → Tree ν) (pairs : List (Term × Term)) : Prop :=
  ∀ q ∈ pairs, q.1.under r θ = q.2.under r σ

section Equal

variable {ν : Type} {r : Reading ν} {θ σ : Nat → Tree ν} {a b : Term}
  {pairs more : List (Term × Term)}

@[simp]
theorem equal_nil : Equal r θ σ [] := by
  simp [Equal]

@[simp]
theorem equal_cons :
    Equal r θ σ ((a, b) :: pairs) ↔ a.under r θ = b.under r σ ∧ Equal r θ σ pairs := by
  simp [Equal]

@[simp]
theorem equal_append :
    Equal r θ σ (more ++ pairs) ↔ Equal r θ σ more ∧ Equal r θ σ pairs := by
  simp [Equal, or_imp, forall_and]

theorem equal_zip : ∀ {xs ys : List Term}, xs.length = ys.length →
    (Equal r θ σ (xs.zip ys) ↔ xs.map (Term.under r θ) = ys.map (Term.under r σ))
  | [], [], _ => by simp
  | x :: xs, y :: ys, h => by
    rw [List.zip_cons_cons, equal_cons, equal_zip (Nat.succ.inj h)]
    simp

end Equal

/-! ## What a move does to the equation -/

/-- The equation of a pair, as far as the move that is made for it goes. -/
def Move.Holds {ν : Type} (r : Reading ν) (σ : Nat → Tree ν) : Move → Prop
  | .pairs more => Equal r σ σ more
  | .bind v t => σ v = t.under r σ
  | .fail _ => False

/-- Leaves that agree denote the same. -/
theorem under_eq_of_leavesAgree {θ σ : Nat → Tree Unit} {a b : Term}
    (h : leavesAgree a b = true) : a.under .numeric θ = b.under .numeric σ := by
  cases a <;> cases b <;> simp only [leavesAgree, Bool.false_eq_true] at h
  case atom.atom x y => simpa [Term.under, Atom.eqv] using h
  case int.int m n => simpa [Term.under] using h
  case float.float x y =>
    have hx : x.isNaN = false := by simp_all [Binary64.eqv]
    have hy : y.isNaN = false := by simp_all [Binary64.eqv]
    simpa [Term.under, Reading.numeric] using (Binary64.eqv_iff hx hy).mp h
  case box.box x y => simpa [Term.under] using h

/-- Leaves that do not agree denote different things, if they are no NaNs. -/
theorem under_ne_of_not_leavesAgree {θ σ : Nat → Tree Unit} {a b : Term} (ha : a.kind ≠ .var)
    (hb : b.kind ≠ .var) (hab : a.kind ≠ .compound ∨ b.kind ≠ .compound) (hna : a.NaNFree)
    (hnb : b.NaNFree) (h : leavesAgree a b = false) : a.under .numeric θ ≠ b.under .numeric σ := by
  intro heq
  cases a <;> cases b <;> simp only [Term.under, Tree.leaf.injEq, reduceCtorEq] at heq
  case var.var => exact ha rfl
  case atom.atom x y => simp_all [leavesAgree, Atom.eqv]
  case int.int m n => simp_all [leavesAgree]
  case float.float x y =>
    have hxy : x.eqv y = true := (Binary64.eqv_iff hna.here hnb.here).mpr (Leaf.float.inj heq)
    rw [leavesAgree, hxy] at h
    cases h
  case box.box x y => simp_all [leavesAgree]
  case compound.compound => exact hab.elim (absurd rfl) (absurd rfl)
  all_goals first | exact ha rfl | exact hb rfl

namespace Move.Made

variable {ν : Type} {r : Reading ν} {σ : Nat → Tree ν} {a b t : Term} {v : Nat} {m : Move}
  {more : List (Term × Term)}

/-- A move other than failure is forced by the equation. -/
theorem holds (h : Made a b m) (hm : ∀ e, m ≠ .fail e) (heq : a.under r σ = b.under r σ) :
    m.Holds r σ := by
  cases h with
  | same v => exact equal_nil
  | left h => exact heq
  | right h => exact heq.symm
  | shared hname hlength => exact equal_nil
  | descend hij hname hlength =>
    rw [Term.under_compound, Term.under_compound] at heq
    exact (equal_zip (by simpa using hlength)).mpr (Tree.node.inj heq).2.2
  | functors h => exact absurd rfl (hm _)
  | leaves ha hb h => exact equal_nil
  | mismatch ha hb hab h => exact absurd rfl (hm _)

/-- A failure is right: no substitutions make the two equal. -/
theorem ne_of_fail {θ σ : Nat → Tree Unit} {e : UnifyError} (h : Made a b (.fail e))
    (hna : a.NaNFree) (hnb : b.NaNFree) : a.under .numeric θ ≠ b.under .numeric σ := by
  cases h with
  | functors h =>
    intro heq
    rw [Term.under_compound, Term.under_compound] at heq
    obtain ⟨-, hname, hargs⟩ := Tree.node.inj heq
    exact h ⟨by simpa using congrArg List.length hargs, hname⟩
  | mismatch ha hb hab h => exact under_ne_of_not_leavesAgree ha hb hab hna hnb h

/-- **A move keeps the solutions of the equation**: for terms without NaNs whose nodes are those of
one table, and trees that are compared numerically. -/
theorem holds_iff {σ : Nat → Tree Unit} {nodes : Nat → Term} (h : Made a b m)
    (hna : a.Comparable nodes) (hnb : b.Comparable nodes) :
    m.Holds .numeric σ ↔ a.under .numeric σ = b.under .numeric σ := by
  constructor
  · intro hm
    cases h with
    | same v => rfl
    | left h => exact hm
    | right h => exact hm.symm
    -- nodes with one identity are taken to be equal, as they are if the table has one node for it
    | shared hname hlength => rw [hna.here.symm.trans hnb.here]
    | descend hij hname hlength =>
      have hargs := (equal_zip (by simpa using hlength)).mp hm
      rw [Term.under_compound, Term.under_compound, hargs, hname]
    | functors h => exact hm.elim
    | leaves ha hb h => exact under_eq_of_leavesAgree h
    | mismatch ha hb hab h => exact hm.elim
  · intro heq
    refine h.holds (fun e he => ?_) heq
    subst he
    exact h.ne_of_fail hna.nanFree hnb.nanFree heq

/-- Only an unbound variable is bound, and not to itself. -/
theorem bind_cases (h : Made a b (.bind v t)) :
    (a = .var v ∧ t = b ∨ b = .var v ∧ t = a) ∧ t ≠ .var v := by
  cases h with
  | left h => exact ⟨.inl ⟨rfl, rfl⟩, h⟩
  | right h => exact ⟨.inr ⟨rfl, rfl⟩, fun ht => h (congrArg Term.kind ht)⟩

/-- The new pairs are made of arguments. -/
theorem pairsEvery {p : Term → Prop} (h : Made a b (.pairs more)) (ha : a.Every p)
    (hb : b.Every p) : PairsEvery p more := by
  cases h with
  | descend hij hname hlength => exact pairsEvery_arguments ha hb
  | _ => exact fun q hq => nomatch hq

/-- The new pairs are smaller than the old one. -/
theorem size_lt (h : Made a b (.pairs more)) :
    Tree.sizeAll (more.map fun q => q.1.under r σ) < (a.under r σ).size := by
  cases h with
  | descend hij hname hlength => exact sizeAll_arguments_zip_lt _ _ hlength
  | _ => exact Tree.size_pos _

end Move.Made

/-! ## A step of unification -/

/-- **A step.** It dereferences both terms and then makes the move of their roots. -/
theorem unifyStep_eq (fuel : Nat) (occursCheck : Bool) (a b : Term) :
    unifyStep fuel occursCheck a b = (do
      let a ← (deref a : Run Store Term)
      let b ← (deref b : Run Store Term)
      (Move.ofRoots a b).run fuel occursCheck) := by
  unfold unifyStep
  refine bind_congr fun ra => bind_congr fun rb => ?_
  cases ra <;> cases rb <;> first | rfl | (simp only [Move.ofRoots]; split <;> rfl)

/-- A step dereferences both terms and makes the move of the roots. -/
theorem unifyStep_run {s s₁ s₂ : Store} {a b ra rb : Term} (ha : deref a s = .ok (ra, s₁))
    (hb : deref b s₁ = .ok (rb, s₂)) (fuel : Nat) (occursCheck : Bool) :
    unifyStep fuel occursCheck a b s = (Move.ofRoots ra rb).run fuel occursCheck s₂ := by
  rw [unifyStep_eq, Attempt.lift_bind ha, Attempt.lift_bind hb]

/-- A store and a pair whose terms have roots, and the store after they have been dereferenced. -/
structure Reduces (s : Store) (a b ra rb : Term) (s₁ : Store) : Prop where
  proper : s.cells.Proper
  belowLeft : a.Below s.cells.size
  belowRight : b.Below s.cells.size
  rootLeft : s.cells.Root a ra
  rootRight : s.cells.Root b rb
  compressed : s.cells.Compressed s₁.cells
  run : ∀ fuel occursCheck,
    unifyStep fuel occursCheck a b s = (Move.ofRoots ra rb).run fuel occursCheck s₁

/-- **In a proper store every pair reduces** to the pair of its roots. -/
theorem exists_reduces {s : Store} {a b : Term} (hs : s.cells.Proper) (ha : a.Below s.cells.size)
    (hb : b.Below s.cells.size) : ∃ ra rb s₁, Reduces s a b ra rb s₁ := by
  obtain ⟨ra, hra⟩ := hs.rooted.root ha
  obtain ⟨rb, hrb⟩ := hs.rooted.root hb
  obtain ⟨_, s₂, hderef_a, hderef_b, hshort⟩ := deref_pair hra hrb
  exact ⟨ra, rb, s₂, hs, ha, hb, hra, hrb, hshort.compressed, unifyStep_run hderef_a hderef_b⟩

namespace Reduces

variable {ν : Type} {r : Reading ν} {s s₁ : Store} {a b ra rb t : Term} {v : Nat}
  {σ : Nat → Tree ν} {p : Term → Prop} {more : List (Term × Term)}

theorem proper₁ (h : Reduces s a b ra rb s₁) : s₁.cells.Proper := h.compressed.proper h.proper

/-- It keeps its solutions. -/
theorem solves_iff (h : Reduces s a b ra rb s₁) : s₁.cells.Solves r σ ↔ s.cells.Solves r σ :=
  h.compressed.solves h.proper.rooted

/-- The roots have the properties of the pair and the store. -/
theorem every (h : Reduces s a b ra rb s₁) (hs : s.cells.Every p) (ha : a.Every p)
    (hb : b.Every p) : ra.Every p ∧ rb.Every p :=
  ⟨h.rootLeft.every hs ha, h.rootRight.every hs hb⟩

theorem below (h : Reduces s a b ra rb s₁) :
    ra.Below s₁.cells.size ∧ rb.Below s₁.cells.size := by
  rw [h.compressed.size]
  exact h.every h.proper.closed h.belowLeft h.belowRight

theorem pairsBelow (h : Reduces s a b ra rb s₁) (hm : Move.ofRoots ra rb = .pairs more) :
    PairsBelow s₁.cells.size more :=
  (hm ▸ Move.made_ofRoots ra rb).pairsEvery h.below.1 h.below.2

/-- A solution makes the pair equal if and only if it makes the roots equal. -/
theorem equal_iff (h : Reduces s a b ra rb s₁) (hσ : s.cells.Solves r σ) :
    a.under r σ = b.under r σ ↔ ra.under r σ = rb.under r σ := by
  rw [hσ.root h.rootLeft, hσ.root h.rootRight]

/-- What is bound by a move is unbound before, and becomes bound to an end. -/
theorem bind (h : Reduces s a b ra rb s₁) (hm : Move.ofRoots ra rb = .bind v t) :
    s₁.cells.Unbound v ∧ s₁.cells.IsEnd t ∧ t.Below s₁.cells.size ∧ t ≠ .var v := by
  obtain ⟨hcases, hne⟩ := (hm ▸ Move.made_ofRoots ra rb).bind_cases
  have hends : s₁.cells.IsEnd ra ∧ s₁.cells.IsEnd rb :=
    ⟨(h.compressed.root.mpr h.rootLeft).isEnd, (h.compressed.root.mpr h.rootRight).isEnd⟩
  rcases hcases with ⟨hv, rfl⟩ | ⟨hv, rfl⟩
  · exact ⟨hends.1 v hv, hends.2, h.below.2, hne⟩
  · exact ⟨hends.2 v hv, hends.1, h.below.1, hne⟩

/-- The store stays proper if the variable does not occur in what it is bound to. -/
theorem proper_bound {τ : Nat → Tree ν} {s₂ : Store} (h : Reduces s a b ra rb s₁)
    (hm : Move.ofRoots ra rb = .bind v t) (hcomp : s₁.cells.Compressed s₂.cells)
    (hτ : s₁.cells.Resolves r id τ) (hocc : ¬(t.under r τ).Occurs v) :
    (s₂.bound v t).cells.Proper := by
  obtain ⟨hv, hend, hbelow, -⟩ := h.bind hm
  exact (hcomp.proper h.proper₁).set (hcomp.unbound.mpr hv)
    (fun w hw => hcomp.unbound.mpr (hend w hw)) (hcomp.size ▸ hbelow)
    ((hcomp.resolves h.proper₁.rooted).mpr hτ) hocc

/-! What the move leaves has the properties of the pairs and the store. -/

variable {rest : List (Term × Term)} {s₂ : Store}

/-- What holds of a store and of pairs holds of the pairs that a step leaves. -/
theorem every_pairs (h : Reduces s a b ra rb s₁) (hm : Move.ofRoots ra rb = .pairs more)
    (hs : s.cells.Every p) (hp : PairsEvery p ((a, b) :: rest)) : PairsEvery p (more ++ rest) := by
  obtain ⟨⟨ha, hb⟩, hrest⟩ := pairsEvery_cons.mp hp
  obtain ⟨hra, hrb⟩ := h.every hs ha hb
  exact pairsEvery_append.mpr ⟨(hm ▸ Move.made_ofRoots ra rb).pairsEvery hra hrb, hrest⟩

theorem every_bind (h : Reduces s a b ra rb s₁) (hm : Move.ofRoots ra rb = .bind v t)
    (hcomp : s₁.cells.Compressed s₂.cells) (hs : s.cells.Every p)
    (hp : PairsEvery p ((a, b) :: rest)) : (s₂.bound v t).cells.Every p := by
  obtain ⟨⟨ha, hb⟩, -⟩ := pairsEvery_cons.mp hp
  obtain ⟨hra, hrb⟩ := h.every hs ha hb
  have ht : t.Every p := by
    rcases (hm ▸ Move.made_ofRoots ra rb).bind_cases.1 with ⟨-, rfl⟩ | ⟨-, rfl⟩
    · exact hrb
    · exact hra
  exact ((h.compressed.trans hcomp).every hs).set ht

/-! What the loop does after the move. -/

variable {fuel : Nat} {occursCheck : Bool}

/-- A round that leaves pairs goes on with them, before those that were left. -/
theorem run_pairs (h : Reduces s a b ra rb s₁) (hm : Move.ofRoots ra rb = .pairs more) :
    unifyPairs occursCheck (fuel + 1) ((a, b) :: rest) s =
      unifyPairs occursCheck fuel (more ++ rest) s₁ := by
  have hstep : unifyStep fuel occursCheck a b s = .ok (.ok more, s₁) := by
    rw [h.run, hm]
    rfl
  rw [unifyPairs, Attempt.bind_ok hstep]

theorem run_fail {e : UnifyError} (h : Reduces s a b ra rb s₁)
    (hm : Move.ofRoots ra rb = .fail e) :
    unifyPairs occursCheck (fuel + 1) ((a, b) :: rest) s = .ok (.error e, s₁) := by
  have hstep : unifyStep fuel occursCheck a b s = .ok (.error e, s₁) := by
    rw [h.run, hm]
    rfl
  rw [unifyPairs, Attempt.bind_throw hstep]

/-- A round that binds goes on with the pairs that were left. -/
theorem run_bind (h : Reduces s a b ra rb s₁) (hm : Move.ofRoots ra rb = .bind v t)
    (hbind : bindVar fuel occursCheck v t s₁ = .ok (.ok (), s₂)) :
    unifyPairs occursCheck (fuel + 1) ((a, b) :: rest) s = unifyPairs occursCheck fuel rest s₂ := by
  have hstep : unifyStep fuel occursCheck a b s = .ok (.ok [], s₂) := by
    rw [h.run, hm, Move.run, Attempt.bind_ok hbind]
    rfl
  rw [unifyPairs, Attempt.bind_ok hstep, List.nil_append]

theorem run_bind_fail {e : UnifyError} (h : Reduces s a b ra rb s₁)
    (hm : Move.ofRoots ra rb = .bind v t)
    (hbind : bindVar fuel occursCheck v t s₁ = .ok (.error e, s₂)) :
    unifyPairs occursCheck (fuel + 1) ((a, b) :: rest) s = .ok (.error e, s₂) := by
  have hstep : unifyStep fuel occursCheck a b s = .ok (.error e, s₂) := by
    rw [h.run, hm, Move.run, Attempt.bind_throw hbind]
  rw [unifyPairs, Attempt.bind_throw hstep]

/-! What the loop settles on after the move, if it settles. -/

variable {result : Except UnifyError Unit} {s' : Store}

/-- Where the loop settles, it does so after a round that leaves pairs. -/
theorem settles_pairs (h : Reduces s a b ra rb s₁) (hm : Move.ofRoots ra rb = .pairs more)
    (hrun : Settles (fun fuel => unifyPairs occursCheck fuel ((a, b) :: rest) s) (result, s')) :
    Settles (fun fuel => unifyPairs occursCheck fuel (more ++ rest) s₁) (result, s') := by
  simpa only [h.run_pairs hm] using hrun.succ

theorem settles_fail {e : UnifyError} (h : Reduces s a b ra rb s₁)
    (hm : Move.ofRoots ra rb = .fail e)
    (hrun : Settles (fun fuel => unifyPairs occursCheck fuel ((a, b) :: rest) s) (result, s')) :
    result = .error e := by
  have heq := hrun.succ.unique (.of_forall fun fuel => h.run_fail hm)
  exact congrArg Prod.fst heq

/-- A binding that is checked fails, or does not contain the variable. -/
theorem settles_bind {τ : Nat → Tree ν} (h : Reduces s a b ra rb s₁)
    (hm : Move.ofRoots ra rb = .bind v t) (hτ : s₁.cells.Resolves r id τ)
    (hrun : Settles (fun fuel => unifyPairs true fuel ((a, b) :: rest) s) (result, s')) :
    result = .error .occursCheck ∨ ∃ s₂ : Store, s₁.cells.Compressed s₂.cells ∧
      ¬(t.under r τ).Occurs v ∧
        Settles (fun fuel => unifyPairs true fuel rest (s₂.bound v t)) (result, s') := by
  obtain ⟨hv, -, hbelow, -⟩ := h.bind hm
  obtain ⟨s₂, hcomp, ⟨-, hbind⟩ | ⟨hocc, hbind⟩⟩ := bindVar_checked hτ h.proper₁ hv hbelow
  · have heq := hrun.succ.unique (hbind.map fun fuel => h.run_bind_fail hm)
    exact .inl (congrArg Prod.fst heq)
  · exact .inr ⟨s₂, hcomp, hocc, hrun.succ.rest hbind fun fuel => h.run_bind hm⟩

end Reduces

/-- **Induction over the moves.** A list of pairs is worked off because a pair gives way to smaller
ones, or else fewer variables are left unbound. The store must stay proper when a variable is
bound. -/
theorem unify_induction {motive : Store → List (Term × Term) → Prop}
    (nil : ∀ s, s.cells.Proper → motive s [])
    (step : ∀ s a b rest ra rb s₁, Reduces s a b ra rb s₁ → PairsBelow s.cells.size rest →
      (∀ more, Move.ofRoots ra rb = .pairs more → motive s₁ (more ++ rest)) →
      (∀ v t (s₂ : Store), Move.ofRoots ra rb = .bind v t → s₁.cells.Compressed s₂.cells →
        (s₂.bound v t).cells.Proper → motive (s₂.bound v t) rest) →
      motive s ((a, b) :: rest))
    {s : Store} {pairs : List (Term × Term)} (hs : s.cells.Proper)
    (hpairs : PairsBelow s.cells.size pairs) : motive s pairs := by
  obtain ⟨τ, hτ⟩ := hs.acyclic.exists_resolves Reading.exact id
  generalize hk : s.cells.unboundVars.card = k
  -- the measure is the number of unbound variables, and then the size of the resolved pairs;
  -- dereferencing changes neither
  induction k using Nat.strong_induction_on generalizing s pairs τ with
  | _ k ihbind =>
    generalize hn : Tree.sizeAll (pairs.map fun q => q.1.under .exact τ) = n
    induction n using Nat.strong_induction_on generalizing s pairs with
    | _ n ihpairs =>
      match pairs with
      | [] => exact nil s hs
      | (a, b) :: rest =>
        obtain ⟨ha, hb⟩ := hpairs (a, b) List.mem_cons_self
        have hrest : PairsBelow s.cells.size rest :=
          fun q hq => hpairs q (List.mem_cons_of_mem _ hq)
        obtain ⟨ra, rb, s₁, h⟩ := exists_reduces hs ha hb
        have hrest₁ : PairsBelow s₁.cells.size rest := h.compressed.size ▸ hrest
        refine step s a b rest ra rb s₁ h hrest ?_ ?_
        · intro more hm
          have hτ₁ := (h.compressed.resolves hs.rooted).mpr hτ
          have hlt := (hm ▸ Move.made_ofRoots ra rb).size_lt (r := .exact) (σ := τ)
          refine ihpairs _ ?_ h.proper₁ (fun q hq => ?_) hτ₁ (h.compressed.unboundVars ▸ hk) rfl
          · rw [List.map_cons, Tree.sizeAll, hτ.solves.root h.rootLeft] at hn
            rw [List.map_append, Tree.sizeAll_append]
            omega
          · rcases List.mem_append.mp hq with hq | hq
            · exact h.pairsBelow hm q hq
            · exact hrest₁ q hq
        · intro v t s₂ hm hcomp hproper
          obtain ⟨hv, -⟩ := h.bind hm
          -- the terms may get larger, but there is one unbound variable less
          obtain ⟨τ', hτ'⟩ := hproper.acyclic.exists_resolves Reading.exact id
          have hsize : (s₂.bound v t).cells.size = s₁.cells.size :=
            Store.size_bound.trans hcomp.size
          refine ihbind _ ?_ hproper (hsize ▸ hrest₁) τ' hτ' rfl
          have hcard := Cells.card_unboundVars_set (t := t) (hcomp.unbound.mpr hv)
          rw [hcomp.unboundVars, h.compressed.unboundVars, hk] at hcard
          exact hcard

end Horn
