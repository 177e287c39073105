import Horn.Proofs.Sharing
import Horn.Proofs.StandardOrder

/-!
# Sharing cannot be observed

Unification, equality and the standard order take a node to be equal to itself without looking at
its arguments. None of them tells apart terms that are the same trees, whichever nodes and atom
handles these are made of: terms and stores can be exchanged for others with the same trees, and
where a pair of a node and itself is skipped, its arguments could have been gone through as well.

- `Term.tree`, `Cells.trees`: what is left of terms and cells when nodes are left aside.
- `Cells.sameTrees_of_trees_eq`: cells with the same trees resolve alike.
- `Exchange`: two stores with two terms each, that can be exchanged for each other.
- `Exchange.unobservable`: the three operations do not observe the exchange.
-/

namespace Horn

variable {nodes nodes' : Nat → Term} {τ : Nat → Tree Unit} {s u : Store} {a b a' b' t : Term}
  {v : Nat} {cells cells' : Cells} {rest : List (Term × Term)}

/-- The tree that a term is, bindings left aside: nodes and atom handles do not count, floats do by
their bits. -/
def Term.tree (t : Term) : Tree Unit := t.under .exact .var

/-- The trees of the terms in the cells. -/
def Cells.trees (cells : Cells) : Array (Option (Tree Unit)) := cells.map (Option.map Term.tree)

/-! ## Cells with the same trees -/

namespace Cells

theorem size_of_trees_eq (h : cells.trees = cells'.trees) : cells.size = cells'.size := by
  have hsize := congrArg Array.size h
  simpa [trees] using hsize

theorem getElem?_of_trees_eq (h : cells.trees = cells'.trees) (v : Nat) :
    (cells[v]?).map (Option.map Term.tree) = (cells'[v]?).map (Option.map Term.tree) := by
  have hget : cells.trees[v]? = cells'.trees[v]? := by rw [h]
  simpa [trees] using hget

/-- What is bound on one side is bound on the other one to a term with the same tree. -/
theorem bound_of_trees_eq (h : cells.trees = cells'.trees) (hv : cells'.Bound v t) :
    ∃ t', cells.Bound v t' ∧ t'.tree = t.tree := by
  have hget := getElem?_of_trees_eq h v
  rw [show cells'[v]? = some (some t) from hv] at hget
  simpa [Bound] using hget

/-- Stores with the same trees have the same unbound variables. -/
theorem unbound_of_trees_eq (h : cells.trees = cells'.trees) (hv : cells'.Unbound v) :
    cells.Unbound v := by
  have hget := getElem?_of_trees_eq h v
  rw [show cells'[v]? = some none from hv] at hget
  simpa [Unbound] using hget

/-- Cells with the same trees resolve alike. -/
theorem sameTrees_of_trees_eq (h : cells.trees = cells'.trees)
    (hτ : cells.Resolves .exact id τ) : cells.SameTrees τ cells' where
  size := (size_of_trees_eq h).symm
  left := hτ
  right := by
    constructor
    · intro v t hv
      obtain ⟨t', hv', heq⟩ := bound_of_trees_eq h hv
      exact (hτ.solves v t' hv').trans (Term.under_eq_of_tree_eq heq)
    · intro v hv
      exact hτ.unbound v (unbound_of_trees_eq h hv)

end Cells

/-! ## Nodes of a table -/

/-- Without NaNs, nodes of a table can be compared. -/
theorem Term.comparable_of_filed (h : t.Every (Term.Filed nodes)) (hnan : t.NaNFree) :
    t.Comparable nodes := by
  refine Term.Every.mono (h.and hnan) fun u hu => ?_
  cases u with
  | float x => exact hu.2
  | compound => exact hu.1
  | _ => trivial

/-- A store and two terms over it, the nodes of all of them being those of one table. -/
structure Store.Spans₂ (nodes : Nat → Term) (s : Store) (a b : Term) : Prop where
  proper : s.cells.Proper
  filed : s.cells.Every (Term.Filed nodes)
  left : s.Spans nodes a
  right : s.Spans nodes b

/-- No NaN occurs in the store or in the terms. -/
structure Store.NaNFree₂ (s : Store) (a b : Term) : Prop where
  cells : s.cells.Every Term.NotNaN
  left : a.NaNFree
  right : b.NaNFree

/-- Pairs of terms over the store, with nodes of the table. -/
def Store.SpansPairs (nodes : Nat → Term) (s : Store) (pairs : List (Term × Term)) : Prop :=
  ∀ q ∈ pairs, s.Spans nodes q.1 ∧ s.Spans nodes q.2

namespace Store.Spans₂

variable (h : s.Spans₂ nodes a b)
include h

/-- Pairs without NaNs can be posed. -/
theorem posed (hcells : s.cells.Every Term.NotNaN) {pairs : List (Term × Term)}
    (hpairs : s.SpansPairs nodes pairs) (hnan : PairsEvery Term.NotNaN pairs) :
    Posed nodes s pairs where
  proper := h.proper
  below q hq := ⟨(hpairs q hq).1.below, (hpairs q hq).2.below⟩
  cells v t hv := Term.comparable_of_filed (h.filed v t hv) (hcells v t hv)
  pairs q hq := ⟨Term.comparable_of_filed (hpairs q hq).1.filed (hnan q hq).1,
    Term.comparable_of_filed (hpairs q hq).2.filed (hnan q hq).2⟩

theorem posed_pair (hnan : s.NaNFree₂ a b) : Posed nodes s [(a, b)] := by
  refine h.posed hnan.cells ?_ (pairsEvery_single hnan.left hnan.right)
  intro q hq
  cases List.mem_singleton.mp hq
  exact ⟨h.left, h.right⟩

/-- The pairs of arguments of a term and itself. -/
theorem spansPairs_arguments : s.SpansPairs nodes (a.arguments.zip a.arguments) := by
  intro q hq
  have hmem := List.of_mem_zip (show (q.1, q.2) ∈ _ from hq)
  exact ⟨⟨h.left.below.arg hmem.1, h.left.filed.arg hmem.1⟩,
    ⟨h.left.below.arg hmem.2, h.left.filed.arg hmem.2⟩⟩

end Store.Spans₂

/-! ## Skipping a node and itself -/

/-- Pairs tally with themselves. -/
theorem tallies_self (τ : Nat → Tree Unit) : ∀ pairs : List (Term × Term), Tallies τ pairs pairs
  | [] => .nil
  | (_, _) :: rest => .both rfl rfl (tallies_self τ rest)

theorem equal_arguments (τ : Nat → Tree Unit) (t : Term) :
    Equal .exact τ τ (t.arguments.zip t.arguments) :=
  (equal_zip rfl).mpr rfl

/-- What skipping a pair and going through its arguments have in common, whatever pairs are left. -/
structure SkipsAlike (nodes : Nat → Term) (s : Store) (t : Term) : Prop where
  unify : s.cells.Every Term.NotNaN → t.NaNFree → ∀ rest, s.SpansPairs nodes rest →
    PairsEvery Term.NotNaN rest → EndAlike s s (t.arguments.zip t.arguments ++ rest) rest
  eqv : t.NaNFree → Term.eqvAll t.arguments t.arguments = true
  compare : ∀ rest, s.SpansPairs nodes rest → ∃ found s₁ s₂,
    Settles (fun fuel => comparePairs fuel (t.arguments.zip t.arguments ++ rest) s) (found, s₁) ∧
      Settles (fun fuel => comparePairs fuel rest s) (found, s₂)

theorem Store.SpansPairs.append {more : List (Term × Term)} (h : s.SpansPairs nodes more)
    (h' : s.SpansPairs nodes rest) : s.SpansPairs nodes (more ++ rest) := by
  intro q hq
  rcases List.mem_append.mp hq with hq | hq
  · exact h q hq
  · exact h' q hq

/-- **A node could be compared with itself argument by argument.** -/
theorem Store.Spans₂.skipsAlike (h : s.Spans₂ nodes a b) : SkipsAlike nodes s a := by
  obtain ⟨τ, hτ⟩ := h.proper.acyclic.exists_resolves Reading.exact id
  have harguments := h.spansPairs_arguments
  constructor
  case unify =>
    intro hcells hnan rest hrest hrestnan
    have hnans : PairsEvery Term.NotNaN (a.arguments.zip a.arguments ++ rest) :=
      pairsEvery_append.mpr ⟨pairsEvery_arguments hnan hnan, hrestnan⟩
    exact unifyPairs_sameTrees (h.posed hcells (harguments.append hrest) hnans)
      (h.posed hcells hrest hrestnan) ⟨rfl, hτ, hτ⟩
      ((tallies_self τ rest).append_equal (equal_arguments τ a))
  case eqv =>
    intro hnan
    have hself : ∀ x ∈ a.arguments, ∀ y ∈ a.arguments, x.under .numeric .var =
        y.under .numeric .var → x.eqv y = true :=
      fun x hx y hy => Term.eqv_of_under_eq (hnan.arg hx) (hnan.arg hy)
    exact Term.eqvAll_of_map_eq hself rfl
  case compare =>
    intro rest hrest
    -- the order found is the one of the trees, which a node and itself share
    have hsettles : ∀ pairs, s.SpansPairs nodes pairs → ∃ s',
        Settles (fun fuel => comparePairs fuel pairs s) (orderPairs τ pairs, s') := by
      intro pairs hpairs
      obtain ⟨found, s', hrun, -, hfound⟩ := comparePairs_settles hτ h.proper
        fun q hq => ⟨(hpairs q hq).1.below, (hpairs q hq).2.below⟩
      have horder := hfound nodes h.filed fun q hq => ⟨(hpairs q hq).1.filed, (hpairs q hq).2.filed⟩
      exact ⟨s', horder ▸ hrun⟩
    obtain ⟨s₁, hfirst⟩ := hsettles _ (harguments.append hrest)
    obtain ⟨s₂, hsecond⟩ := hsettles rest hrest
    have hself : orderPairs τ (a.arguments.zip a.arguments) = .eq :=
      (orderPairs_zip rfl).trans (Tree.orderAll_self _)
    rw [orderPairs_append, hself] at hfirst
    exact ⟨_, s₁, s₂, hfirst, hsecond⟩

/-! ## Exchanging nodes -/

/-- Two stores with two terms each, all of them the same trees. -/
structure Exchange (nodes nodes' : Nat → Term) (s : Store) (a b : Term) (u : Store)
    (a' b' : Term) : Prop where
  first : s.Spans₂ nodes a b
  second : u.Spans₂ nodes' a' b'
  cells : s.cells.trees = u.cells.trees
  left : a.tree = a'.tree
  right : b.tree = b'.tree

namespace Exchange

variable (h : Exchange nodes nodes' s a b u a' b')
include h

/-- Structural equality does not depend on nodes. -/
theorem eqv_eq (hnan : s.NaNFree₂ a b) (hnan' : u.NaNFree₂ a' b') : a.eqv b = a'.eqv b' := by
  have hiff := Term.eqv_iff_under_eq (Term.comparable_of_filed h.first.left.filed hnan.left)
    (Term.comparable_of_filed h.first.right.filed hnan.right)
  have hiff' := Term.eqv_iff_under_eq (Term.comparable_of_filed h.second.left.filed hnan'.left)
    (Term.comparable_of_filed h.second.right.filed hnan'.right)
  rw [Term.under_eq_of_tree_eq h.left, Term.under_eq_of_tree_eq h.right] at hiff
  exact Bool.eq_iff_iff.mpr (hiff.trans hiff'.symm)

/-- **Sharing cannot be observed.** Without NaNs, unification with the occurs check returns the same
for terms and stores with the same trees, and leaves stores in which every variable stands for the
same tree; structural equality is the same. The standard order is the same even for NaNs. To skip a
node and itself comes to the same as to go through its arguments. -/
theorem unobservable :
    (s.NaNFree₂ a b → u.NaNFree₂ a' b' →
      (∃ result s' u' τ, Settles (fun fuel => unify fuel true a b s) (result, s') ∧
        Settles (fun fuel => unify fuel true a' b' u) (result, u') ∧
          s'.cells.SameTrees τ u'.cells) ∧
      a.eqv b = a'.eqv b') ∧
    (∃ found s' u', Settles (fun fuel => compareTerms fuel a b s) (found, s') ∧
      Settles (fun fuel => compareTerms fuel a' b' u) (found, u')) ∧
    SkipsAlike nodes s a := by
  obtain ⟨τ, hτ⟩ := h.first.proper.acyclic.exists_resolves Reading.exact id
  have htrees := Cells.sameTrees_of_trees_eq h.cells hτ
  have hleft : a.under .exact τ = a'.under .exact τ := Term.under_eq_of_tree_eq h.left
  have hright : b.under .exact τ = b'.under .exact τ := Term.under_eq_of_tree_eq h.right
  refine ⟨fun hnan hnan' => ⟨?_, h.eqv_eq hnan hnan'⟩, ?_, h.first.skipsAlike⟩
  · exact unifyPairs_sameTrees (h.first.posed_pair hnan) (h.second.posed_pair hnan') htrees
      (.both hleft hright .nil)
  · obtain ⟨s', hfirst, -⟩ := compareTerms_settles htrees.left h.first.proper h.first.filed
      h.first.left h.first.right
    obtain ⟨u', hsecond, -⟩ := compareTerms_settles htrees.right h.second.proper h.second.filed
      h.second.left h.second.right
    rw [resolvedOrder, ← hleft, ← hright] at hsecond
    exact ⟨_, s', u', hfirst, hsecond⟩

end Exchange

/-- The term `g(X0)`, its node being the given one. -/
def wrapped (node : Nat) : Term := .compound node ⟨"g", .interned 1⟩ (.var 0) []

/-- Three cells, of which the second one is bound to `g(X0)`. -/
def wrappedCells (node : Nat) : Cells := #[none, some (wrapped node), none]

theorem bound_wrappedCells {node v : Nat} {t : Term} (h : (wrappedCells node).Bound v t) :
    v = 1 ∧ t = wrapped node := by
  match v, h with
  | 0, h => cases h
  | 1, h => cases h; exact ⟨rfl, rfl⟩
  | 2, h => cases h
  | v + 3, h => cases h

theorem proper_wrappedCells (node : Nat) : (wrappedCells node).Proper :=
  Cells.proper_of_below fun v t hv => by
    obtain ⟨rfl, rfl⟩ := bound_wrappedCells hv
    simp [wrapped, Term.Bounded]

/-- Let `X1` be bound to a node `g(X0)`, and `f(X1, X2)` be unified with `f(g(X0), 7)`. The outcome
is the same whether `g(X0)` is that node, which is skipped, or another one. -/
theorem Exchange.unobservable_skipped :
    let a : Term := .compound 2 ⟨"f", .interned 0⟩ (.var 1) [.var 2]
    let b (node : Nat) : Term := .compound 3 ⟨"f", .interned 0⟩ (wrapped node) [.int 7]
    ∃ s' u' τ, Settles (fun fuel => unify fuel true a (b 0) { cells := wrappedCells 0 })
        (.ok (), s') ∧
      Settles (fun fuel => unify fuel true a (b 1) { cells := wrappedCells 0 }) (.ok (), u') ∧
        s'.cells.SameTrees τ u'.cells := by
  intro a b
  let nodes (node : Nat) : Nat → Term
    | 0 => wrapped 0
    | 1 => wrapped 1
    | 2 => a
    | _ => b node
  let s : Store := { cells := wrappedCells 0 }
  have hcells : ∀ p : Term → Prop, (wrapped 0).Every p → s.cells.Every p := by
    intro p hp v t hv
    obtain ⟨rfl, rfl⟩ := bound_wrappedCells hv
    exact hp
  have hspans : ∀ node, node = 0 ∨ node = 1 → s.Spans₂ (nodes node) a (b node) := by
    rintro node (rfl | rfl)
    all_goals
      refine ⟨proper_wrappedCells 0, hcells _ ?_, ⟨?_, ?_⟩, ⟨?_, ?_⟩⟩ <;>
        simp [a, b, s, nodes, wrapped, wrappedCells, Term.Bounded, Term.Filed]
  have hnan : ∀ node, s.NaNFree₂ a (b node) := by
    intro node
    refine ⟨hcells _ ?_, ?_, ?_⟩ <;> simp [a, b, wrapped, Term.NaNFree, Term.NotNaN]
  have h : Exchange (nodes 0) (nodes 1) s a (b 0) s a (b 1) :=
    ⟨hspans 0 (.inl rfl), hspans 1 (.inr rfl), rfl, rfl, rfl⟩
  obtain ⟨⟨result, s', u', τ, hfirst, hsecond, hsame⟩, -⟩ := h.unobservable.1 (hnan 0) (hnan 1)
  have hrun : ∃ left, Settles (fun fuel => unify fuel true a (b 0) s) (.ok (), left) := by
    refine ⟨{ cells := #[none, some (wrapped 0), some (.int 7)], journal := [.bind 2 (.int 7)] },
      10, fun fuel hfuel => ?_⟩
    obtain ⟨more, rfl⟩ := Nat.exists_eq_add_of_le' hfuel
    rfl
  obtain ⟨left, hleft⟩ := hrun
  cases hfirst.unique hleft
  exact ⟨s', u', τ, hfirst, hsecond, hsame⟩

end Horn
