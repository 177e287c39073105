import Horn.Order
import Horn.Proofs.Unification
import Horn.Proofs.TreeOrder

/-!
# The standard order

In a proper store the comparison of two terms ends, and compares the trees that they stand for when
all bindings are resolved. It only shortens chains, so comparisons that are made one after the other
compare the same trees, and the standard order is the order of these trees.

- `Compares`: what the comparison of a list of pairs comes to.
- `comparePairs_settles`: it does so in every proper store.
- `compareTerms_total`: the standard order is a total preorder.
-/

namespace Horn

variable {s s₁ : Store} {τ : Nat → Tree Unit} {a b ra rb : Term} {rest : List (Term × Term)}
  {nodes : Nat → Term}

/-! ## Outermost symbols -/

/-- What is compared of two roots are the symbols of their trees. -/
theorem compareOutermost_eq (a b : Term) :
    compareOutermost a b = (a.under .exact .var).symbol.order (b.under .exact .var).symbol := by
  cases a <;> cases b
  case int.int m n => exact Binary64.compare_eq_place m n
  case float.float x y => exact Binary64.order_eq_place x y
  case int.float n x => exact Binary64.orderInt_eq_place n x
  case float.int x n =>
    have hswap := congrArg Ordering.swap (Binary64.orderInt_eq_place n x)
    exact hswap.trans (Place.order_swap _ _)
  case compound.compound i f x xs j g y ys =>
    have hlength : compare xs.length ys.length = compare (xs.length + 1) (ys.length + 1) :=
      compare_congr (by omega) (by omega)
    simp [compareOutermost, Symbol.order_eq, Tree.symbol, Term.under_compound, Term.kind, hlength]
  case var.var | atom.atom | box.box =>
    simp [compareOutermost, Symbol.order_eq, Tree.symbol, Leaf.symbol, Term.under, Term.kind]
  all_goals rfl

/-- The cases in which outermost symbols are equal: two leaves, or two nodes with as many
arguments. -/
inductive SameSymbol : Term → Term → Prop where
  | leaves {a b : Term} (ha : a.kind ≠ .compound) (hb : b.kind ≠ .compound) : SameSymbol a b
  | nodes {i j : Nat} {f g : Atom} {x y : Term} {xs ys : List Term}
      (hlength : xs.length = ys.length) :
      SameSymbol (.compound i f x xs) (.compound j g y ys)

/-- Terms that are equal but for their arguments have one symbol. -/
theorem sameSymbol_of_eq (h : compareOutermost a b = .eq) : SameSymbol a b := by
  by_cases ha : a.kind = .compound
  · cases a with
    | compound i f x xs =>
      cases b with
      | compound j g y ys =>
        rw [compareOutermost, Ordering.then_eq_eq, Ordering.then_eq_eq] at h
        exact .nodes (compare_eq_iff_eq.mp h.2.1)
      | _ => cases h
    | _ => cases ha
  · refine .leaves ha fun hb => ha ?_
    cases b with
    | compound j g y ys => cases a <;> first | rfl | cases h
    | _ => cases hb

theorem argumentPairs_leaves (ha : a.kind ≠ .compound) : argumentPairs a b = [] := by
  cases a with
  | compound => exact absurd rfl ha
  | _ => rfl

namespace SameSymbol

variable {ν : Type} {r : Reading ν} {σ : Nat → Tree ν} {p : Term → Prop}

/-- The pairs of arguments are smaller than the terms. -/
theorem size_lt (h : SameSymbol a b) :
    Tree.sizeAll ((argumentPairs a b).map fun q => q.1.under r σ) < (a.under r σ).size := by
  cases h with
  | leaves ha hb =>
    rw [argumentPairs_leaves ha]
    exact Tree.size_pos _
  | nodes hlength =>
    rw [argumentPairs]
    split
    · exact Tree.size_pos _
    · exact sizeAll_arguments_zip_lt _ _ hlength

theorem pairsEvery (h : SameSymbol a b) (ha : a.Every p) (hb : b.Every p) :
    PairsEvery p (argumentPairs a b) := by
  cases h with
  | leaves ha hb =>
    rw [argumentPairs_leaves ha]
    exact fun q hq => nomatch hq
  | nodes hlength =>
    rw [argumentPairs]
    split
    · exact fun q hq => nomatch hq
    · exact pairsEvery_arguments ha hb

end SameSymbol

/-! ## The order of resolved pairs -/

/-- The order of two lists of resolved terms: the first pair that is not equal decides. -/
def orderPairs (τ : Nat → Tree Unit) (pairs : List (Term × Term)) : Ordering :=
  Tree.orderAll (pairs.map fun q => q.1.under .exact τ) (pairs.map fun q => q.2.under .exact τ)

/-- The first pair decides, unless it is equal. -/
theorem orderPairs_cons : orderPairs τ ((a, b) :: rest) =
    ((a.under .exact τ).order (b.under .exact τ)).then (orderPairs τ rest) := rfl

/-- Pairs are compared one list after the other. -/
theorem orderPairs_append (more rest : List (Term × Term)) :
    orderPairs τ (more ++ rest) = (orderPairs τ more).then (orderPairs τ rest) := by
  rw [orderPairs, List.map_append, List.map_append]
  exact Tree.orderAll_append (by simp) _ _

theorem orderPairs_zip : ∀ {xs ys : List Term}, xs.length = ys.length →
    orderPairs τ (xs.zip ys) =
      Tree.orderAll (xs.map (Term.under .exact τ)) (ys.map (Term.under .exact τ))
  | [], [], _ => rfl
  | x :: xs, y :: ys, h => by
    rw [List.zip_cons_cons, orderPairs_cons, orderPairs_zip (Nat.succ.inj h)]
    rfl

section Roots

variable (hτ : s.cells.Resolves .exact id τ) (ha : s.cells.IsEnd a) (hb : s.cells.IsEnd b)
include hτ ha

/-- The outermost symbol of a root is not changed by bindings. -/
theorem symbol_of_isEnd : (a.under .exact τ).symbol = (a.under .exact .var).symbol := by
  cases a with
  | var v =>
    rw [Term.under_var, hτ.unbound v (ha v rfl)]
    rfl
  | compound i f x xs => simp [Tree.symbol]
  | _ => rfl

/-- An end of a chain other than a node has no branches. -/
theorem branches_of_isEnd (hkind : a.kind ≠ .compound) : (a.under .exact τ).branches = [] := by
  cases a with
  | var v =>
    rw [Term.under_var, hτ.unbound v (ha v rfl)]
    rfl
  | compound => exact absurd rfl hkind
  | _ => rfl

include hb

/-- The branches of nodes with equal symbols are compared by their pairs of arguments; those of a
node and the same node are equal. -/
theorem SameSymbol.orderPairs_eq (h : SameSymbol a b) (hfa : a.Every (Term.Filed nodes))
    (hfb : b.Every (Term.Filed nodes)) :
    orderPairs τ (argumentPairs a b) =
      Tree.orderAll (a.under .exact τ).branches (b.under .exact τ).branches := by
  cases h with
  | leaves hka hkb =>
    rw [argumentPairs_leaves hka, branches_of_isEnd hτ ha hka, branches_of_isEnd hτ hb hkb]
    rfl
  | @nodes i j f g x y xs ys hlength =>
    rw [argumentPairs, Term.under_compound, Term.under_compound]
    split
    · rename_i hij
      cases beq_iff_eq.mp hij
      cases hfa.here.symm.trans hfb.here
      exact (Tree.orderAll_self _).symm
    · have hzip : orderPairs τ ((x :: xs).zip (y :: ys)) = _ :=
        orderPairs_zip (congrArg Nat.succ hlength)
      exact hzip

/-- **What is compared of two roots** is first their outermost symbols and then their pairs of
arguments. -/
theorem order_roots (hfa : a.Every (Term.Filed nodes)) (hfb : b.Every (Term.Filed nodes)) :
    (a.under .exact τ).order (b.under .exact τ) =
      (compareOutermost a b).then (orderPairs τ (argumentPairs a b)) := by
  rw [Tree.order_eq, symbol_of_isEnd hτ ha, symbol_of_isEnd hτ hb, ← compareOutermost_eq]
  cases h : compareOutermost a b with
  | eq => rw [(sameSymbol_of_eq h).orderPairs_eq hτ ha hb hfa hfb]
  | _ => rfl

end Roots

/-! ## Running -/

/-- The comparison of the pairs ends and shortens chains on the way. It finds the order of the
resolved pairs, provided that nodes with one identity are one node. -/
def Compares (τ : Nat → Tree Unit) (pairs : List (Term × Term)) (s : Store) : Prop :=
  ∃ found s', Settles (fun fuel => comparePairs fuel pairs s) (found, s') ∧
    s.cells.Compressed s'.cells ∧ ∀ nodes, s.cells.Every (Term.Filed nodes) →
      PairsEvery (Term.Filed nodes) pairs → found = orderPairs τ pairs

/-- A round dereferences both terms of a pair, and goes on with their arguments if their outermost
symbols are equal. -/
theorem comparePairs_step {s₂ : Store} (ha : deref a s = .ok (ra, s₁))
    (hb : deref b s₁ = .ok (rb, s₂)) (rest : List (Term × Term)) (fuel : Nat) :
    comparePairs (fuel + 1) ((a, b) :: rest) s =
      if compareOutermost ra rb = .eq then comparePairs fuel (argumentPairs ra rb ++ rest) s₂
      else .ok (compareOutermost ra rb, s₂) := by
  rw [comparePairs, Run.bind_ok ha, Run.bind_ok hb]
  cases compareOutermost ra rb <;> rfl

/-- **The comparison of pairs ends**, with the order of the resolved pairs. The induction is on the
size of the resolved terms on the left. -/
theorem comparePairs_settles (hτ : s.cells.Resolves .exact id τ) (hs : s.cells.Proper)
    {pairs : List (Term × Term)} (hpairs : PairsBelow s.cells.size pairs) :
    Compares τ pairs s := by
  generalize hn : Tree.sizeAll (pairs.map fun q => q.1.under .exact τ) = n
  induction n using Nat.strong_induction_on generalizing s pairs with
  | _ n ih =>
    match pairs with
    | [] =>
      refine ⟨.eq, s, .of_forall fun fuel => ?_, .refl _, fun _ _ _ => rfl⟩
      cases fuel <;> rfl
    | (a, b) :: rest =>
      obtain ⟨ha, hb⟩ := hpairs (a, b) List.mem_cons_self
      obtain ⟨ra, hra⟩ := hs.rooted.root ha
      obtain ⟨rb, hrb⟩ := hs.rooted.root hb
      obtain ⟨_, s₁, hderef_a, hderef_b, hshort⟩ := deref_pair hra hrb
      have hrun := comparePairs_step hderef_a hderef_b rest
      have hcomp := hshort.compressed
      -- the roots stand for what the terms stand for
      have horder : ∀ nodes, s.cells.Every (Term.Filed nodes) →
          PairsEvery (Term.Filed nodes) ((a, b) :: rest) →
            (a.under .exact τ).order (b.under .exact τ) =
              (compareOutermost ra rb).then (orderPairs τ (argumentPairs ra rb)) := by
        intro nodes hcells hfiled
        obtain ⟨⟨hfa, hfb⟩, -⟩ := pairsEvery_cons.mp hfiled
        rw [hτ.solves.root hra, hτ.solves.root hrb]
        exact order_roots hτ hra.isEnd hrb.isEnd (hra.every hcells hfa) (hrb.every hcells hfb)
      by_cases heq : compareOutermost ra rb = .eq
      · have hsame := sameSymbol_of_eq heq
        have hmore : PairsBelow s.cells.size (argumentPairs ra rb ++ rest) := by
          refine pairsEvery_append.mpr ⟨?_, fun q hq => hpairs q (List.mem_cons_of_mem _ hq)⟩
          exact hsame.pairsEvery (hra.every hs.closed ha) (hrb.every hs.closed hb)
        have hlt : Tree.sizeAll ((argumentPairs ra rb ++ rest).map fun q => q.1.under .exact τ) <
            n := by
          have hsize := hsame.size_lt (r := .exact) (σ := τ)
          rw [List.map_cons, Tree.sizeAll, hτ.solves.root hra] at hn
          rw [List.map_append, Tree.sizeAll_append]
          omega
        obtain ⟨found, s', hsettles, hcomp', hfound⟩ := ih _ hlt
          ((hcomp.resolves hs.rooted).mpr hτ) (hcomp.proper hs) (hcomp.size ▸ hmore) rfl
        refine ⟨found, s', .of_succ ?_, hcomp.trans hcomp', fun nodes hcells hfiled => ?_⟩
        · simpa only [hrun, if_pos heq] using hsettles
        · obtain ⟨⟨hfa, hfb⟩, hrest⟩ := pairsEvery_cons.mp hfiled
          have harguments := hsame.pairsEvery (hra.every hcells hfa) (hrb.every hcells hfb)
          rw [hfound nodes (hcomp.every hcells) (pairsEvery_append.mpr ⟨harguments, hrest⟩),
            orderPairs_cons, orderPairs_append, horder nodes hcells hfiled, heq]
          rfl
      · refine ⟨compareOutermost ra rb, s₁, .of_succ (.of_forall fun fuel => ?_), hcomp,
          fun nodes hcells hfiled => ?_⟩
        · rw [hrun, if_neg heq]
        · rw [orderPairs_cons, horder nodes hcells hfiled]
          cases h : compareOutermost ra rb <;> first | rfl | exact absurd h heq

/-! ## The preorder -/

/-- A term over the variables of a store, whose nodes are those of a table. -/
structure Store.Spans (nodes : Nat → Term) (s : Store) (t : Term) : Prop where
  below : t.Below s.cells.size
  filed : t.Every (Term.Filed nodes)

/-- The order of each pair, found one after the other. -/
def compareEach (fuel : Nat) : List (Term × Term) → Run Store (List Ordering)
  | [] => pure []
  | (a, b) :: rest => do
    let found ← compareTerms fuel a b
    let others ← compareEach fuel rest
    pure (found :: others)

/-- A comparison on the store finds this order, on its own or after others. -/
def Store.Finds (nodes : Nat → Term) (s : Store) (a b : Term) (found : Ordering) : Prop :=
  ∃ questions answers s₁ s₂, (∀ q ∈ questions, s.Spans nodes q.1 ∧ s.Spans nodes q.2) ∧
    Settles (fun fuel => compareEach fuel questions s) (answers, s₁) ∧
      Settles (fun fuel => compareTerms fuel a b s₁) (found, s₂)

/-- The order of the trees that two terms stand for. -/
def resolvedOrder (τ : Nat → Tree Unit) (a b : Term) : Ordering :=
  (a.under .exact τ).order (b.under .exact τ)

section Preorder

variable (hτ : s.cells.Resolves .exact id τ) (hs : s.cells.Proper)
  (hcells : s.cells.Every (Term.Filed nodes))
include hτ hs hcells

/-- **Comparing two terms ends** with the order of their values, and shortens chains. -/
theorem compareTerms_settles (ha : s.Spans nodes a) (hb : s.Spans nodes b) :
    ∃ s', Settles (fun fuel => compareTerms fuel a b s) (resolvedOrder τ a b, s') ∧
      s.cells.Compressed s'.cells := by
  have hbelow := pairsBelow_single ha.below hb.below
  have hfiled := pairsEvery_single ha.filed hb.filed
  obtain ⟨found, s', hsettles, hcomp, hfound⟩ := comparePairs_settles hτ hs hbelow
  have horder : found = resolvedOrder τ a b := by
    rw [hfound nodes hcells hfiled, orderPairs_cons]
    exact Ordering.then_eq
  exact ⟨s', horder ▸ hsettles, hcomp⟩

/-- Comparisons made one after the other find the orders of the resolved terms. -/
theorem compareEach_settles {questions : List (Term × Term)}
    (hq : ∀ q ∈ questions, s.Spans nodes q.1 ∧ s.Spans nodes q.2) :
    ∃ s', Settles (fun fuel => compareEach fuel questions s)
        (questions.map fun q => resolvedOrder τ q.1 q.2, s') ∧ s.cells.Compressed s'.cells := by
  induction questions generalizing s with
  | nil => exact ⟨s, .of_forall fun fuel => rfl, .refl _⟩
  | cons q rest ih =>
    obtain ⟨ha, hb⟩ := hq q List.mem_cons_self
    obtain ⟨s₁, hfirst, hcomp⟩ := compareTerms_settles hτ hs hcells ha hb
    have hspans : ∀ {t}, s.Spans nodes t → s₁.Spans nodes t :=
      fun ht => ⟨hcomp.size ▸ ht.below, ht.filed⟩
    -- a comparison only shortens chains, which keeps all that the next one needs
    obtain ⟨s₂, hrest, hcomp'⟩ := ih ((hcomp.resolves hs.rooted).mpr hτ) (hcomp.proper hs)
      (hcomp.every hcells) fun q' hq' =>
        (hq q' (List.mem_cons_of_mem _ hq')).imp hspans hspans
    refine ⟨s₂, ?_, hcomp.trans hcomp'⟩
    have hlast : Settles (fun fuel => (compareEach fuel rest >>= fun others =>
          pure (resolvedOrder τ q.1 q.2 :: others) : Run Store (List Ordering)) s₁)
        (resolvedOrder τ q.1 q.2 :: rest.map fun q => resolvedOrder τ q.1 q.2, s₂) :=
      hrest.map fun fuel hrun => Run.bind_ok hrun
    exact hfirst.and_then hlast fun fuel hrun => Run.bind_ok hrun

/-- Whatever has been compared before, a comparison finds the order of the resolved terms. -/
theorem Store.Finds.eq {found : Ordering} (h : s.Finds nodes a b found) (ha : s.Spans nodes a)
    (hb : s.Spans nodes b) : found = resolvedOrder τ a b := by
  obtain ⟨questions, answers, s₁, s₂, hq, hbefore, hfound⟩ := h
  obtain ⟨s₁', hsettles, hcomp⟩ := compareEach_settles hτ hs hcells hq
  cases hbefore.unique hsettles
  obtain ⟨s₂', hthen, -⟩ := compareTerms_settles ((hcomp.resolves hs.rooted).mpr hτ)
    (hcomp.proper hs) (hcomp.every hcells) ⟨hcomp.size ▸ ha.below, ha.filed⟩
    ⟨hcomp.size ▸ hb.below, hb.filed⟩
  exact congrArg Prod.fst (hfound.unique hthen)

end Preorder

/-- **The standard order is a total preorder** on the resolved terms. In a proper store comparisons
end, however many are made one after the other, and find the order of the trees that the terms stand
for. So the order reverses if the terms are exchanged, and it is transitive, no matter what has been
compared in between; two terms are equal in it if and only if their trees agree. -/
theorem compareTerms_total (hs : s.cells.Proper) (hcells : s.cells.Every (Term.Filed nodes)) :
    ∃ τ, s.cells.Resolves .exact id τ ∧
      (∀ questions : List (Term × Term),
        (∀ q ∈ questions, s.Spans nodes q.1 ∧ s.Spans nodes q.2) →
          ∃ s', Settles (fun fuel => compareEach fuel questions s)
            (questions.map fun q => resolvedOrder τ q.1 q.2, s')) ∧
      ∀ a b c, s.Spans nodes a → s.Spans nodes b → s.Spans nodes c → ∀ ab ba bc ac,
        s.Finds nodes a b ab → s.Finds nodes b a ba → s.Finds nodes b c bc →
          s.Finds nodes a c ac →
            ba = ab.swap ∧ (ab.isLE → bc.isLE → ac.isLE) ∧
              (ab = .eq ↔ (a.under .exact τ).Agrees (b.under .exact τ)) := by
  obtain ⟨τ, hτ⟩ := hs.acyclic.exists_resolves Reading.exact id
  refine ⟨τ, hτ, fun questions hq => ?_, ?_⟩
  · obtain ⟨s', hsettles, -⟩ := compareEach_settles hτ hs hcells hq
    exact ⟨s', hsettles⟩
  · intro a b c ha hb hc ab ba bc ac hab hba hbc hac
    rw [hab.eq hτ hs hcells ha hb, hba.eq hτ hs hcells hb ha, hbc.eq hτ hs hcells hb hc,
      hac.eq hτ hs hcells ha hc]
    unfold resolvedOrder
    exact ⟨Std.OrientedCmp.eq_swap, Std.TransCmp.isLE_trans, Tree.order_eq_iff _ _⟩

/-- Let `X2` be an alias of `X0`. Then `f(X2, n)` and `f(X0, n)` are equal even if `n` is a NaN,
`X2` is before `X1`, and `f(X1)` after `X2`. -/
theorem compareTerms_total_aliased :
    ∃ s', Settles (fun fuel => compareEach fuel
        [(.compound 0 ⟨"f", .interned 0⟩ (.var 2) [.float ⟨0x7ff8000000000000⟩],
            .compound 1 ⟨"f", .interned 0⟩ (.var 0) [.float ⟨0x7ff8000000000000⟩]),
          (.var 2, .var 1), (.compound 2 ⟨"f", .interned 0⟩ (.var 1) [], .var 2)]
        { cells := aliasedCells }) ([.eq, .lt, .gt], s') := by
  let nodes : Nat → Term
    | 0 => .compound 0 ⟨"f", .interned 0⟩ (.var 2) [.float ⟨0x7ff8000000000000⟩]
    | 1 => .compound 1 ⟨"f", .interned 0⟩ (.var 0) [.float ⟨0x7ff8000000000000⟩]
    | _ => .compound 2 ⟨"f", .interned 0⟩ (.var 1) []
  let s : Store := { cells := aliasedCells }
  have hs : s.Sound nodes 0 := sound_aliasedCells _ _
  have hcells : s.cells.Every (Term.Filed nodes) := by
    intro v t hv
    obtain ⟨-, rfl⟩ := bound_aliasedCells hv
    simp [Term.Filed]
  have hvar : ∀ v < 3, s.Spans nodes (.var v) := fun v hv =>
    ⟨Term.below_var.mpr hv, Term.every_var.mpr trivial⟩
  have hnode : ∀ i < 3, s.Spans nodes (nodes i) := by
    intro i hi
    match i with
    | 0 | 1 | 2 =>
      exact ⟨by simp [nodes, s, aliasedCells, Term.Bounded], by simp [nodes, Term.Filed]⟩
  obtain ⟨τ, hτ, hall, -⟩ := compareTerms_total hs.proper hcells
  have h0 : τ 0 = .var 0 := hτ.unbound 0 rfl
  have h1 : τ 1 = .var 1 := hτ.unbound 1 rfl
  have h2 : τ 2 = .var 0 := (hτ.solves 2 (.var 0) rfl).trans h0
  have htrees : (nodes 0).under .exact τ = (nodes 1).under .exact τ := by
    simp [nodes, h0, h2]
  have hequal : resolvedOrder τ (nodes 0) (nodes 1) = .eq := by
    rw [resolvedOrder, htrees]
    exact Std.ReflCmp.compare_self
  have hless : resolvedOrder τ (.var 2) (.var 1) = .lt := by
    rw [resolvedOrder, Term.under_var, Term.under_var, h1, h2]
    rfl
  have hmore : resolvedOrder τ (nodes 2) (.var 2) = .gt := by
    rw [resolvedOrder, Term.under_var, h2]
    rfl
  obtain ⟨s', hsettles⟩ := hall [(nodes 0, nodes 1), (.var 2, .var 1), (nodes 2, .var 2)] (by
    simp [hvar, hnode])
  refine ⟨s', ?_⟩
  rw [List.map_cons, List.map_cons, List.map_cons, List.map_nil, hequal, hless, hmore] at hsettles
  exact hsettles

end Horn
