import Horn.Proofs.StandardOrder

/-!
# Unified terms in the standard order

Unification and the standard order have notions of equality of their own. A NaN unifies with no
number, itself included, and is equal to itself in the order; a node is the same as itself for both,
whatever is in it; zeros of both signs unify and are equal in the order. The order never tells apart
what unification has made equal, on the store that unification leaves.

- `Tree.Agrees`: what the order does not tell apart. It is kept by what unification does with a
  pair (`Move.Made.agrees`), and so by a whole run (`agrees_of_unifyPairs`).
- `Cells.Correspond`: subterms of two terms that are reached by the same path.
- `unify_equal_in_order`: terms that have been unified are equal in the order, and so are their
  corresponding subterms.
-/

namespace Horn

variable {s s' : Store} {cells : Cells} {a b t x y : Term} {σ : Nat → Tree Unit}
  {nodes : Nat → Term} {pairs more : List (Term × Term)}

/-! ## What a move makes equal -/

theorem Tree.agrees_self {ν : Type} (t : Tree ν) : t.Agrees t :=
  (Tree.order_eq_iff t t).mp Std.ReflCmp.compare_self

theorem Tree.agrees_of_eq {ν : Type} {t u : Tree ν} (h : t = u) : t.Agrees u := h ▸ t.agrees_self

/-- The trees of each pair agree. -/
def AgreeAll (σ : Nat → Tree Unit) (pairs : List (Term × Term)) : Prop :=
  ∀ q ∈ pairs, (q.1.under .exact σ).Agrees (q.2.under .exact σ)

/-- Floats that are numerically equal have one exact value. -/
theorem Leaf.agrees_of_eqv {x y : Binary64} (h : x.eqv y = true) :
    (Leaf.float x).Agrees (.float y) := by
  obtain ⟨⟨hx, hy⟩, hunits⟩ : (x.isNaN = false ∧ y.isNaN = false) ∧ x.units = y.units := by
    simpa [Binary64.eqv] using h
  have hexact : y.exact = x.exact := by
    rw [Binary64.exact_eq hx, Binary64.exact_eq hy, hunits]
  exact .inr ⟨x.exact, by simp [number?, hx], by simp [number?, hy, hexact]⟩

/-- Leaves that unify have the same place in the order. -/
theorem agrees_of_leavesAgree (h : leavesAgree a b = true) :
    (a.under .exact σ).Agrees (b.under .exact σ) := by
  cases a <;> cases b <;> simp only [leavesAgree, Bool.false_eq_true] at h
  case atom.atom x y => exact Tree.agrees_of_eq (by simpa [Term.under, Atom.eqv] using h)
  case int.int m n => exact Tree.agrees_of_eq (by simpa [Term.under] using h)
  case float.float x y => exact .leaf (Leaf.agrees_of_eqv h)
  case box.box x y => exact Tree.agrees_of_eq (by simpa [Term.under] using h)

/-- **Unified roots agree** if what is left to be done for them does. A node agrees with itself,
even if there are NaNs in it. -/
theorem Move.Made.agrees (h : Move.Made a b (.pairs more)) (ha : a.Every (Term.Filed nodes))
    (hb : b.Every (Term.Filed nodes)) (hmore : AgreeAll σ more) :
    (a.under .exact σ).Agrees (b.under .exact σ) := by
  cases h with
  | same v => exact Tree.agrees_self _
  | shared hname hlength => exact Tree.agrees_of_eq (by rw [ha.here.symm.trans hb.here])
  | @descend i j f g x y xs ys hij hname hlength =>
    have hargs : List.Forall₂ (fun t u => (t.under .exact σ).Agrees (u.under .exact σ))
        (x :: xs) (y :: ys) :=
      List.forall₂_iff_zip.mpr ⟨congrArg Nat.succ hlength, fun hq => hmore _ hq⟩
    rw [Term.under_compound, Term.under_compound, hname]
    exact .node (List.forall₂_map_left_iff.mpr (List.forall₂_map_right_iff.mpr hargs))
  | leaves ha hb h => exact agrees_of_leavesAgree h

/-! ## What a run makes equal -/

/-- **What has been unified agrees.** When a run has succeeded, a solution of the bindings that it
leaves is a solution of those that there were before, and makes the trees of each pair agree. -/
theorem agrees_of_unifyPairs (hs : s.cells.Proper) (hpairs : PairsBelow s.cells.size pairs) :
    s.cells.Every (Term.Filed nodes) → PairsEvery (Term.Filed nodes) pairs →
      Settles (fun fuel => unifyPairs true fuel pairs s) (.ok (), s') →
        s'.cells.Solves .exact σ → s.cells.Solves .exact σ ∧ AgreeAll σ pairs := by
  refine unify_induction
    (motive := fun s pairs => s.cells.Every (Term.Filed nodes) →
      PairsEvery (Term.Filed nodes) pairs →
        Settles (fun fuel => unifyPairs true fuel pairs s) (.ok (), s') →
          s'.cells.Solves .exact σ → s.cells.Solves .exact σ ∧ AgreeAll σ pairs)
    (fun s _ _ _ hrun hσ => ?_)
    (fun s a b rest ra rb s₁ h _ ihpairs ihbind hcells hfiled hrun hσ => ?_) hs hpairs
  · have hnil : Settles (fun fuel => unifyPairs true fuel [] s) (.ok (), s) :=
      .of_forall fun fuel => by cases fuel <;> rfl
    cases hrun.unique hnil
    exact ⟨hσ, fun _ hq => nomatch hq⟩
  · obtain ⟨⟨ha, hb⟩, hrest⟩ := pairsEvery_cons.mp hfiled
    obtain ⟨hra, hrb⟩ := h.every hcells ha hb
    have hmade := Move.made_ofRoots ra rb
    -- the terms of a pair have the trees of their roots
    have hcons : s.cells.Solves .exact σ → (ra.under .exact σ).Agrees (rb.under .exact σ) →
        AgreeAll σ rest → s.cells.Solves .exact σ ∧ AgreeAll σ ((a, b) :: rest) := by
      intro hsolves hroots hagree
      refine ⟨hsolves, List.forall_mem_cons.mpr ⟨?_, hagree⟩⟩
      rw [hsolves.root h.rootLeft, hsolves.root h.rootRight]
      exact hroots
    cases hm : Move.ofRoots ra rb with
    | pairs more =>
      rw [hm] at hmade
      obtain ⟨hsolves, hagree⟩ := ihpairs more hm (h.compressed.every hcells)
        (h.every_pairs hm hcells hfiled) (h.settles_pairs hm hrun) hσ
      obtain ⟨hmore, hagree⟩ := List.forall_mem_append.mp hagree
      exact hcons (h.solves_iff.mp hsolves) (hmade.agrees hra hrb hmore) hagree
    | fail e => cases h.settles_fail hm hrun
    | bind v t =>
      rw [hm] at hmade
      obtain ⟨τ, hτ⟩ := h.proper₁.acyclic.exists_resolves Reading.exact id
      obtain hfailed | ⟨s₂, hcomp, hocc, hrun'⟩ := h.settles_bind hm hτ hrun
      · cases hfailed
      obtain ⟨hset, hagree⟩ := ihbind v t s₂ hm hcomp (h.proper_bound hm hcomp hτ hocc)
        (h.every_bind hm hcomp hcells hfiled) hrest hrun' hσ
      -- the new binding is an equation between the roots
      obtain ⟨hsolves, heq⟩ := (Cells.solves_set (hcomp.unbound.mpr (h.bind hm).1)).mp hset
      have hroots : ra.under .exact σ = rb.under .exact σ := by
        rcases hmade.bind_cases.1 with ⟨rfl, rfl⟩ | ⟨rfl, rfl⟩
        · exact heq
        · exact heq.symm
      exact hcons (h.solves_iff.mp ((hcomp.solves h.proper₁.rooted).mp hsolves))
        (Tree.agrees_of_eq hroots) hagree

/-! ## Corresponding subterms -/

/-- The terms `x` and `y` are reached from `a` and `b` by one path of arguments, when bindings are
followed. -/
inductive Cells.Correspond (cells : Cells) (a b : Term) : Term → Term → Prop where
  | whole : Correspond cells a b a b
  | argument {x y rx ry u w : Term} {i : Nat} (h : Correspond cells a b x y)
      (hx : cells.Root x rx) (hy : cells.Root y ry) (hu : rx.arguments[i]? = some u)
      (hw : ry.arguments[i]? = some w) : Correspond cells a b u w

namespace Cells.Correspond

/-- What holds of two terms holds of subterms that correspond. -/
theorem every {p : Term → Prop} (h : cells.Correspond a b x y) (hcells : cells.Every p)
    (ha : a.Every p) (hb : b.Every p) : x.Every p ∧ y.Every p := by
  induction h with
  | whole => exact ⟨ha, hb⟩
  | argument _ hx hy hu hw ih =>
    exact ⟨(hx.every hcells ih.1).arg (List.mem_of_getElem? hu),
      (hy.every hcells ih.2).arg (List.mem_of_getElem? hw)⟩

end Cells.Correspond

/-- Arguments at one place of two nodes agree if the nodes do. -/
theorem agrees_arguments {i : Nat} {u w : Term}
    (h : (x.under .exact σ).Agrees (y.under .exact σ)) (hu : x.arguments[i]? = some u)
    (hw : y.arguments[i]? = some w) : (u.under .exact σ).Agrees (w.under .exact σ) := by
  cases x with
  | compound j f p ps =>
    cases y with
    | compound k g q qs =>
      rw [Term.under_compound, Term.under_compound, Tree.agrees_iff] at h
      obtain ⟨hi, rfl⟩ := List.getElem?_eq_some_iff.mp hu
      obtain ⟨hj, rfl⟩ := List.getElem?_eq_some_iff.mp hw
      exact (List.forall₂_map_left_iff.mp (List.forall₂_map_right_iff.mp h.2)).get hi hj
    | _ => cases hw
  | _ => cases hu

/-- Subterms that correspond agree if the terms do. -/
theorem Cells.Correspond.agrees (h : cells.Correspond a b x y) (hσ : cells.Solves .exact σ)
    (hab : (a.under .exact σ).Agrees (b.under .exact σ)) :
    (x.under .exact σ).Agrees (y.under .exact σ) := by
  induction h with
  | whole => exact hab
  | argument _ hx hy hu hw ih =>
    rw [hσ.root hx, hσ.root hy] at ih
    exact agrees_arguments ih hu hw

/-- **Unified terms are equal in the standard order.** In a proper store, whatever floats there are
in it and whichever nodes are shared: if two terms have been unified with the occurs check, their
comparison on the store that is left finds them equal, and so does the comparison of any two
subterms of them that are reached by the same path, when bindings are followed. -/
theorem unify_equal_in_order (hs : s.cells.Proper) (hcells : s.cells.Every (Term.Filed nodes))
    (ha : s.Spans nodes a) (hb : s.Spans nodes b) :
    ∃ result s', Settles (fun fuel => unify fuel true a b s) (result, s') ∧ (result = .ok () →
      (∃ s'', Settles (fun fuel => compareTerms fuel a b s') (.eq, s'')) ∧
        ∀ x y, s'.cells.Correspond a b x y →
          ∃ s'', Settles (fun fuel => compareTerms fuel x y s') (.eq, s'')) := by
  have hbelow := pairsBelow_single ha.below hb.below
  have hfiled := pairsEvery_single ha.filed hb.filed
  obtain ⟨result, s', hsettles, hunifies⟩ := unifyPairs_settles hs hbelow (.inl rfl)
  refine ⟨result, s', hsettles, fun hok => ?_⟩
  subst hok
  obtain ⟨τ, hτ⟩ := hunifies.proper.acyclic.exists_resolves Reading.exact id
  have hcells' := hunifies.every _ hcells hfiled
  obtain ⟨-, hagree⟩ := agrees_of_unifyPairs hs hbelow hcells hfiled hsettles hτ.solves
  have hab : (a.under .exact τ).Agrees (b.under .exact τ) := hagree _ List.mem_cons_self
  have hall : ∀ x y, s'.cells.Correspond a b x y →
      ∃ s'', Settles (fun fuel => compareTerms fuel x y s') (.eq, s'') := by
    intro x y hxy
    have hbelow' := hxy.every hunifies.proper.closed (hunifies.size ▸ ha.below)
      (hunifies.size ▸ hb.below)
    have hfiled' := hxy.every hcells' ha.filed hb.filed
    obtain ⟨s'', hcompare, -⟩ := compareTerms_settles hτ hunifies.proper hcells'
      ⟨hbelow'.1, hfiled'.1⟩ ⟨hbelow'.2, hfiled'.2⟩
    have hequal : resolvedOrder τ x y = .eq :=
      (Tree.order_eq_iff _ _).mpr (hxy.agrees hτ.solves hab)
    exact ⟨s'', hequal ▸ hcompare⟩
  exact ⟨hall a b .whole, hall⟩

/-- Let `X2` be an alias of `X0`, and `n` one node `h(NaN)`. Then `f(X2, 0.0, n)` and
`f(n, -0.0, X0)` unify, as `n` is not looked into, and are equal in the order afterwards. So are the
NaN that is reached through `X2` and the one that is reached through `n`. -/
theorem unify_equal_in_order_nan :
    let nan : Term := .float ⟨0x7ff8000000000000⟩
    let n : Term := .compound 2 ⟨"h", .interned 1⟩ nan []
    let a : Term := .compound 0 ⟨"f", .interned 0⟩ (.var 2) [.float ⟨0⟩, n]
    let b : Term := .compound 1 ⟨"f", .interned 0⟩ n [.float ⟨0x8000000000000000⟩, .var 0]
    ∃ s', Settles (fun fuel => unify fuel true a b { cells := aliasedCells }) (.ok (), s') ∧
      (∃ s'', Settles (fun fuel => compareTerms fuel a b s') (.eq, s'')) ∧
      ∃ s'', Settles (fun fuel => compareTerms fuel nan nan s') (.eq, s'') := by
  intro nan n a b
  let nodes : Nat → Term
    | 0 => a
    | 1 => b
    | _ => n
  let s : Store := { cells := aliasedCells }
  have hs : s.Sound nodes 0 := sound_aliasedCells _ _
  have hcells : s.cells.Every (Term.Filed nodes) := fun v t hv => by
    obtain ⟨-, rfl⟩ := bound_aliasedCells hv
    simp [Term.Filed]
  have ha : s.Spans nodes a :=
    ⟨by simp [a, n, nan, s, aliasedCells, Term.Bounded], by simp [a, n, nan, nodes, Term.Filed]⟩
  have hb : s.Spans nodes b :=
    ⟨by simp [b, n, nan, s, aliasedCells, Term.Bounded], by simp [b, n, nan, nodes, Term.Filed]⟩
  obtain ⟨result, s', hsettles, hequal⟩ := unify_equal_in_order hs.proper hcells ha hb
  have hrun : Settles (fun fuel => unify fuel true a b s)
      (.ok (), { cells := #[some n, none, some (.var 0)], journal := [.bind 0 n] }) :=
    .of_add 10 fun _ => rfl
  cases hsettles.unique hrun
  obtain ⟨hab, hall⟩ := hequal rfl
  -- the first arguments are `X2`, which leads to the node by now, and the node itself
  have hfirst : Cells.Correspond #[some n, none, some (.var 0)] a b (.var 2) n :=
    .argument (i := 0) .whole rfl rfl rfl rfl
  have hlead : Cells.Root #[some n, none, some (.var 0)] (.var 2) n :=
    Cells.Bound.leads_next rfl (Cells.Bound.leads rfl Kind.noConfusion)
  exact ⟨_, hsettles, hab, hall nan nan (.argument (i := 0) hfirst hlead rfl rfl rfl)⟩

end Horn
