import Mathlib.Data.List.Zip
import Horn.Proofs.Twins

/-!
# Sharing of nodes

Terms that stand for the same tree may differ in which nodes they share. A run of unification takes
a node to be equal to itself, so one run may be done with a pair for which another run still has the
arguments to go through. These arguments stand for the same trees on both sides: going through them
shortens chains and does nothing else. Runs on stores and pairs that differ only in their nodes
therefore end with the same outcome.

- `Cells.SameTrees`: two stores in which every variable stands for the same tree.
- `unifyPairs_equal`: pairs that are equal already are done with.
- `TreeMoves`, `treeMoves`: what two runs do with roots that stand for the same trees.
- `Tallies`: pairs of two runs, one of which may have equal pairs that the other one is spared.
- `unifyPairs_sameTrees`: both runs end alike.
-/

namespace Horn

open Twins (Resembles)

variable {nodes nodes' : Nat → Term} {τ : Nat → Tree Unit} {s s₁ s₂ u u₁ u₂ : Store}
  {a a' b b' ra ra' rb rb' t t' : Term} {v : Nat} {more more' ps qs rest : List (Term × Term)}
  {cells cells' cells₁ cells₁' : Cells}

/-! ## Stores with the same trees -/

/-- Every variable stands for the same tree in both stores. -/
structure Cells.SameTrees (τ : Nat → Tree Unit) (cells cells' : Cells) : Prop where
  size : cells'.size = cells.size
  left : cells.Resolves .exact id τ
  right : cells'.Resolves .exact id τ

namespace Cells.SameTrees

theorem compressed (h : cells.SameTrees τ cells') (hs : cells.Rooted) (hs' : cells'.Rooted)
    (hl : cells.Compressed cells₁) (hr : cells'.Compressed cells₁') :
    cells₁.SameTrees τ cells₁' where
  size := hr.size.trans (h.size.trans hl.size.symm)
  left := (hl.resolves hs).mpr h.left
  right := (hr.resolves hs').mpr h.right

/-- A variable is bound to terms that stand for the same tree. -/
theorem set (h : cells.SameTrees τ cells') (hv : cells.Unbound v) (hv' : cells'.Unbound v)
    (heq : t.under .exact τ = t'.under .exact τ) (hocc : ¬(t.under .exact τ).Occurs v) :
    SameTrees (fun w => (τ w).subst (Tree.single v (t.under .exact τ)))
      (cells.setIfInBounds v (some t)) (cells'.setIfInBounds v (some t')) where
  size := by rw [Array.size_setIfInBounds, Array.size_setIfInBounds, h.size]
  left := h.left.set hv (fun _ _ hw => hw) hocc
  right := by
    rw [heq] at hocc ⊢
    exact h.right.set hv' (fun _ _ hw => hw) hocc

end Cells.SameTrees

/-- Pairs to be made equal in a proper store. No NaN occurs, and the nodes are those of a table. -/
structure Posed (nodes : Nat → Term) (s : Store) (pairs : List (Term × Term)) : Prop where
  proper : s.cells.Proper
  below : PairsBelow s.cells.size pairs
  cells : s.cells.Every (Term.Plain nodes)
  pairs : PairsEvery (Term.Plain nodes) pairs

namespace Posed

/-- A pair may be left out. -/
theorem tail (h : Posed nodes s ((a, b) :: rest)) (hcomp : s.cells.Compressed s₁.cells) :
    Posed nodes s₁ rest where
  proper := hcomp.proper h.proper
  below q hq := hcomp.size ▸ h.below q (List.mem_cons_of_mem _ hq)
  cells := hcomp.every h.cells
  pairs := (pairsEvery_cons.mp h.pairs).2

/-- A posed pair reduces to its roots. -/
theorem exists_reduces (h : Posed nodes s ((a, b) :: rest)) :
    ∃ ra rb s₁, Reduces s a b ra rb s₁ :=
  Horn.exists_reduces h.proper (h.below _ List.mem_cons_self).1 (h.below _ List.mem_cons_self).2

theorem roots (h : Posed nodes s ((a, b) :: rest)) (hr : Reduces s a b ra rb s₁) :
    ra.Comparable nodes ∧ rb.Comparable nodes :=
  hr.every h.cells (pairsEvery_cons.mp h.pairs).1.1 (pairsEvery_cons.mp h.pairs).1.2

/-- The pairs that a step leaves are posed. -/
theorem step (h : Posed nodes s ((a, b) :: rest)) (hr : Reduces s a b ra rb s₁)
    (hm : Move.ofRoots ra rb = .pairs more) : Posed nodes s₁ (more ++ rest) where
  proper := hr.proper₁
  below q hq := by
    rcases List.mem_append.mp hq with hq | hq
    · exact hr.pairsBelow hm q hq
    · exact (h.tail hr.compressed).below q hq
  cells := hr.compressed.every h.cells
  pairs := hr.every_pairs hm h.cells h.pairs

/-- The pairs that are left after a binding are posed in the store that it leaves. -/
theorem bind (h : Posed nodes s ((a, b) :: rest)) (hr : Reduces s a b ra rb s₁)
    (hm : Move.ofRoots ra rb = .bind v t) (hcomp : s₁.cells.Compressed s₂.cells)
    (hproper : (s₂.bound v t).cells.Proper) : Posed nodes (s₂.bound v t) rest where
  proper := hproper
  below := by
    rw [Store.size_bound]
    exact (h.tail (hr.compressed.trans hcomp)).below
  cells := hr.every_bind hm hcomp h.cells h.pairs
  pairs := (pairsEvery_cons.mp h.pairs).2

end Posed

/-! ## Roots that stand for the same tree -/

/-- Ends of chains that stand for the same tree. -/
inductive TreeRoots (τ : Nat → Tree Unit) : Term → Term → Prop where
  | var (v : Nat) : TreeRoots τ (.var v) (.var v)
  | leaf {a a' : Term} (h : Resembles a a') (ha : a.kind ≠ .compound) : TreeRoots τ a a'
  | node {i j : Nat} {f g : Atom} {x y : Term} {xs ys : List Term} (hname : f.name = g.name)
      (hargs : (x :: xs).map (Term.under .exact τ) = (y :: ys).map (Term.under .exact τ)) :
      TreeRoots τ (.compound i f x xs) (.compound j g y ys)

/-- Ends of chains that denote the same tree are alike at the root. -/
theorem treeRoots (h : cells.SameTrees τ cells') (ha : cells.IsEnd a) (ha' : cells'.IsEnd a')
    (heq : a.under .exact τ = a'.under .exact τ) : TreeRoots τ a a' := by
  by_cases hkind : a.kind = .var
  · cases a with
    | var v =>
      rw [Term.under_var, h.left.unbound v (ha v rfl)] at heq
      obtain ⟨w, rfl, -, hw⟩ := h.right.of_under_eq_var ha' heq.symm
      cases hw
      exact .var v
    | _ => cases hkind
  -- a variable cannot stand for what a leaf or a node stands for
  have hkind' : a'.kind ≠ .var := by
    intro hvar
    cases a' with
    | var w =>
      rw [Term.under_var, h.right.unbound w (ha' w rfl)] at heq
      obtain ⟨v, rfl, -⟩ := h.left.of_under_eq_var ha heq
      exact hkind rfl
    | _ => cases hvar
  cases a <;> cases a' <;>
    simp only [Term.under, Tree.leaf.injEq, reduceCtorEq, ne_eq, Term.kind, not_true_eq_false] at *
  case atom.atom x y => exact .leaf (.atom (Leaf.atom.inj heq)) Kind.noConfusion
  case int.int m n => exact Leaf.int.inj heq ▸ .leaf (.int m) Kind.noConfusion
  case float.float x y =>
    have hxy : x = y := Leaf.float.inj heq
    exact hxy ▸ .leaf (.float x) Kind.noConfusion
  case box.box b c => exact .leaf (.box (Leaf.box.inj heq)) Kind.noConfusion
  case compound.compound i f x xs j g y ys =>
    obtain ⟨-, hname, hargs⟩ := Tree.node.inj heq
    rw [← Term.underAll, ← Term.underAll, Term.underAll_eq_map, Term.underAll_eq_map] at hargs
    exact .node hname hargs

namespace TreeRoots

theorem resembles (h : TreeRoots τ a a') (ha : a.kind ≠ .var) : Resembles a a' := by
  cases h with
  | var v => exact absurd rfl ha
  | leaf h => exact h
  | node => exact .compound

/-- Nothing but more equal pairs comes of a pair whose sides stand for the same tree. -/
theorem equal_pairs (h : TreeRoots τ a b) (hnan : a.NaNFree) :
    ∃ more, Move.ofRoots a b = .pairs more ∧ Equal .exact τ τ more := by
  cases h with
  | var v => exact ⟨[], by simp [Move.ofRoots], equal_nil⟩
  | leaf h ha =>
    have hagree : leavesAgree a b = true := by
      cases h with
      | float x => simpa [leavesAgree, Binary64.eqv, Term.NotNaN] using hnan
      | compound => exact absurd rfl ha
      | _ => simp_all [leavesAgree, Atom.eqv]
    refine ⟨[], ?_, equal_nil⟩
    rw [Move.ofRoots_leaves h.kind_ne_var (h.kind_eq ▸ h.kind_ne_var) (.inl ha), hagree, if_pos rfl]
  | @node i j f g x y xs ys hname hargs =>
    have hlength : xs.length = ys.length := by
      simpa using congrArg List.length hargs
    by_cases hij : i = j
    · subst hij
      exact ⟨[], Move.ofRoots_shared hname hlength, equal_nil⟩
    · have hlengths : (x :: xs).length = (y :: ys).length := congrArg Nat.succ hlength
      exact ⟨_, Move.ofRoots_nodes hij hname hlength, (equal_zip hlengths).mpr hargs⟩

end TreeRoots

/-! ## Equal pairs -/

/-- **Equal pairs are done with.** If both sides of every pair stand for the same tree, the run goes
through the pairs and shortens chains. -/
theorem unifyPairs_equal (h : Posed nodes s ps) (hτ : s.cells.Resolves .exact id τ)
    (heq : Equal .exact τ τ ps) : ∃ s', s.cells.Compressed s'.cells ∧
      ∀ rest r, Settles (fun fuel => unifyPairs true fuel rest s') r →
        Settles (fun fuel => unifyPairs true fuel (ps ++ rest) s) r := by
  refine unify_induction
    (motive := fun s ps => Posed nodes s ps → s.cells.Resolves .exact id τ → Equal .exact τ τ ps →
      ∃ s', s.cells.Compressed s'.cells ∧
        ∀ rest r, Settles (fun fuel => unifyPairs true fuel rest s') r →
          Settles (fun fuel => unifyPairs true fuel (ps ++ rest) s) r)
    (fun s _ _ _ _ => ⟨s, .refl _, fun _ _ => id⟩)
    (fun s a b ps ra rb s₁ hr _ ihpairs _ h hτ heq => ?_) h.proper h.below h hτ heq
  obtain ⟨hab, heq⟩ := equal_cons.mp heq
  have hτ₁ := (hr.compressed.resolves h.proper.rooted).mpr hτ
  have hroots : TreeRoots τ ra rb :=
    treeRoots ⟨rfl, hτ, hτ⟩ hr.rootLeft.isEnd hr.rootRight.isEnd ((hr.equal_iff hτ.solves).mp hab)
  obtain ⟨more, hm, hmore⟩ := hroots.equal_pairs (h.roots hr).1.nanFree
  obtain ⟨s', hcomp, hrun⟩ := ihpairs more hm (h.step hr hm) hτ₁ (equal_append.mpr ⟨hmore, heq⟩)
  refine ⟨s', hr.compressed.trans hcomp, fun rest r hrest => .of_succ ?_⟩
  simpa only [List.cons_append, hr.run_pairs hm, List.append_assoc] using hrun rest r hrest

/-! ## Moves for the same trees -/

/-- What the pairs stand for. -/
def treePairs (τ : Nat → Tree Unit) (pairs : List (Term × Term)) : List (Tree Unit × Tree Unit) :=
  pairs.map fun q => (q.1.under .exact τ, q.2.under .exact τ)

theorem treePairs_zip (τ : Nat → Tree Unit) (xs ys : List Term) :
    treePairs τ (xs.zip ys) =
      (xs.map (Term.under .exact τ)).zip (ys.map (Term.under .exact τ)) := by
  rw [List.zip_map]
  rfl

/-- The moves of two runs for roots that stand for the same trees. One run may be done with a node
where the other one has the arguments of two nodes. -/
inductive TreeMoves (τ : Nat → Tree Unit) : Move → Move → Prop where
  | pairs {more more' : List (Term × Term)} (h : treePairs τ more = treePairs τ more') :
      TreeMoves τ (.pairs more) (.pairs more')
  | left {more : List (Term × Term)} (h : Equal .exact τ τ more) :
      TreeMoves τ (.pairs more) (.pairs [])
  | right {more : List (Term × Term)} (h : Equal .exact τ τ more) :
      TreeMoves τ (.pairs []) (.pairs more)
  | bind (v : Nat) {t t' : Term} (h : t.under .exact τ = t'.under .exact τ) :
      TreeMoves τ (.bind v t) (.bind v t')
  | fail (e : UnifyError) : TreeMoves τ (.fail e) (.fail e)

/-- Nodes with one identity are one node. -/
theorem Term.Comparable.args_eq {i : Nat} {f g : Atom} {x y : Term} {xs ys : List Term}
    (h : (compound i f x xs).Comparable nodes) (h' : (compound i g y ys).Comparable nodes) :
    x :: xs = y :: ys := by
  have heq : compound i f x xs = compound i g y ys := Eq.trans (Eq.symm h.here) h'.here
  cases heq
  rfl

theorem treeMoves_nodes {i i' j j' : Nat} {f f' g g' : Atom} {x x' y y' : Term}
    {xs xs' ys ys' : List Term} (hf : f.name = f'.name)
    (hx : (x :: xs).map (Term.under .exact τ) = (x' :: xs').map (Term.under .exact τ))
    (hg : g.name = g'.name)
    (hy : (y :: ys).map (Term.under .exact τ) = (y' :: ys').map (Term.under .exact τ))
    (ha : (Term.compound i f x xs).Comparable nodes)
    (hb : (Term.compound j g y ys).Comparable nodes)
    (ha' : (Term.compound i' f' x' xs').Comparable nodes')
    (hb' : (Term.compound j' g' y' ys').Comparable nodes') :
    TreeMoves τ (Move.ofRoots (.compound i f x xs) (.compound j g y ys))
      (Move.ofRoots (.compound i' f' x' xs') (.compound j' g' y' ys')) := by
  have hxs : xs.length = xs'.length := by simpa using congrArg List.length hx
  have hys : ys.length = ys'.length := by simpa using congrArg List.length hy
  by_cases hfunctor : xs.length = ys.length ∧ f.name = g.name
  · obtain ⟨hlength, hname⟩ := hfunctor
    have hlength' : xs'.length = ys'.length := by rw [← hxs, hlength, hys]
    have hname' : f'.name = g'.name := by rw [← hf, hname, hg]
    -- on either side the two nodes may be one, whose arguments are not visited: the other side then
    -- has pairs of equal trees
    by_cases hij : i = j <;> by_cases hij' : i' = j'
    · subst hij hij'
      rw [Move.ofRoots_shared hname hlength, Move.ofRoots_shared hname' hlength']
      exact .pairs rfl
    · subst hij
      rw [Move.ofRoots_shared hname hlength, Move.ofRoots_nodes hij' hname' hlength']
      have hlengths : (x' :: xs').length = (y' :: ys').length := congrArg Nat.succ hlength'
      refine .right ((equal_zip hlengths).mpr ?_)
      rw [← hx, ← hy, ha.args_eq hb]
    · subst hij'
      rw [Move.ofRoots_nodes hij hname hlength, Move.ofRoots_shared hname' hlength']
      have hlengths : (x :: xs).length = (y :: ys).length := congrArg Nat.succ hlength
      refine .left ((equal_zip hlengths).mpr ?_)
      rw [hx, hy, ha'.args_eq hb']
    · rw [Move.ofRoots_nodes hij hname hlength, Move.ofRoots_nodes hij' hname' hlength']
      refine .pairs ?_
      rw [treePairs_zip, treePairs_zip, hx, hy]
  · have hfunctor' : ¬(xs'.length = ys'.length ∧ f'.name = g'.name) := by
      rwa [← hxs, ← hys, ← hf, ← hg]
    rw [Move.ofRoots_functors hfunctor, Move.ofRoots_functors hfunctor']
    exact .fail _

/-- **Roots that stand for the same trees make for such moves.** -/
theorem treeMoves (ha : TreeRoots τ a a') (hb : TreeRoots τ b b') (hna : a.Comparable nodes)
    (hnb : b.Comparable nodes) (hna' : a'.Comparable nodes') (hnb' : b'.Comparable nodes')
    (heq : a.under .exact τ = a'.under .exact τ) (heq' : b.under .exact τ = b'.under .exact τ) :
    TreeMoves τ (Move.ofRoots a b) (Move.ofRoots a' b') := by
  have hne : ∀ {c : Term} (v : Nat), c.kind ≠ .var → c ≠ .var v :=
    fun v hc h => hc (congrArg Term.kind h)
  by_cases hvar : a.kind = .var
  · cases ha with
    | var v =>
      by_cases hbv : b = .var v
      · subst hbv
        cases hb with
        | var => exact (by simpa [Move.ofRoots] using .pairs rfl)
        | leaf h => cases h
      · have hbv' : b' ≠ .var v := by
          rintro rfl
          cases hb with
          | var => exact hbv rfl
          | leaf h => cases h
        rw [Move.ofRoots_var hbv, Move.ofRoots_var hbv']
        exact .bind v heq'
    | leaf h => exact absurd hvar h.kind_ne_var
    | node => cases hvar
  -- from here on both left roots are leaves or nodes, and they are of one kind
  have hres := ha.resembles hvar
  have hvar' : a'.kind ≠ .var := hres.kind_eq ▸ hvar
  by_cases hbvar : b.kind = .var
  · cases hb with
    | var w =>
      rw [Move.ofRoots_var_right hvar, Move.ofRoots_var_right hvar']
      exact .bind w heq
    | leaf h => exact absurd hbvar h.kind_ne_var
    | node => cases hbvar
  have hres' := hb.resembles hbvar
  by_cases hleaf : a.kind ≠ .compound ∨ b.kind ≠ .compound
  · rw [hres.ofRoots_eq hres' hleaf]
    cases Move.ofRoots a' b' with
    | pairs more => exact .pairs rfl
    | bind v t => exact .bind v rfl
    | fail e => exact .fail e
  · obtain ⟨hnode, hnode'⟩ : a.kind = .compound ∧ b.kind = .compound := by simpa using hleaf
    cases ha with
    | var v => cases hnode
    | leaf h ha => exact absurd hnode ha
    | node hf hx =>
      cases hb with
      | var v => cases hnode'
      | leaf h hb => exact absurd hnode' hb
      | node hg hy => exact treeMoves_nodes hf hx hg hy hna hnb hna' hnb'

/-! ## Runs on the same trees -/

/-- The pairs of two runs stand for the same trees, but for equal pairs that only the first run
has. -/
inductive Tallies (τ : Nat → Tree Unit) : List (Term × Term) → List (Term × Term) → Prop where
  | nil : Tallies τ [] []
  | both {a a' b b' : Term} {ps qs : List (Term × Term)} (ha : a.under .exact τ = a'.under .exact τ)
      (hb : b.under .exact τ = b'.under .exact τ) (rest : Tallies τ ps qs) :
      Tallies τ ((a, b) :: ps) ((a', b') :: qs)
  | equal {a b : Term} {ps qs : List (Term × Term)} (h : a.under .exact τ = b.under .exact τ)
      (rest : Tallies τ ps qs) : Tallies τ ((a, b) :: ps) qs

namespace Tallies

/-- Equal pairs may be added on one side, as unifying them changes nothing. -/
theorem append_equal (h : Tallies τ ps qs) : ∀ {more : List (Term × Term)},
    Equal .exact τ τ more → Tallies τ (more ++ ps) qs
  | [], _ => h
  | (_, _) :: _, heq => .equal (equal_cons.mp heq).1 (h.append_equal (equal_cons.mp heq).2)

/-- Pairs with the same trees may be added on both sides. -/
theorem append (h : Tallies τ ps qs) : ∀ {more more' : List (Term × Term)},
    treePairs τ more = treePairs τ more' → Tallies τ (more ++ ps) (more' ++ qs)
  | [], [], _ => h
  | (_, _) :: _, (_, _) :: _, heq => by
    obtain ⟨hhead, htail⟩ := List.cons.inj heq
    exact .both (congrArg Prod.fst hhead) (congrArg Prod.snd hhead) (h.append htail)

theorem subst (h : Tallies τ ps qs) (δ : Nat → Tree Unit) :
    Tallies (fun v => (τ v).subst δ) ps qs := by
  have hsubst : ∀ {a b : Term}, a.under .exact τ = b.under .exact τ →
      a.under .exact (fun v => (τ v).subst δ) = b.under .exact fun v => (τ v).subst δ := by
    intro a b hab
    rw [← Term.under_subst, ← Term.under_subst, hab]
  induction h with
  | nil => exact .nil
  | both ha hb _ ih => exact .both (hsubst ha) (hsubst hb) ih
  | equal h _ ih => exact .equal (hsubst h) ih

end Tallies

/-- Both runs end with the same outcome, in stores where every variable stands for the same tree. -/
def EndAlike (s u : Store) (ps qs : List (Term × Term)) : Prop :=
  ∃ result s' u' τ, Settles (fun fuel => unifyPairs true fuel ps s) (result, s') ∧
    Settles (fun fuel => unifyPairs true fuel qs u) (result, u') ∧
      Cells.SameTrees τ s'.cells u'.cells

namespace EndAlike

theorem nil (h : s.cells.SameTrees τ u.cells) : EndAlike s u [] [] := by
  refine ⟨.ok (), s, u, τ, .of_forall fun fuel => ?_, .of_forall fun fuel => ?_, h⟩ <;>
    cases fuel <;> rfl

/-- The first run goes on alone. -/
theorem left (h : Reduces s a b ra rb s₁) (hm : Move.ofRoots ra rb = .pairs more)
    (hrest : EndAlike s₁ u (more ++ ps) qs) : EndAlike s u ((a, b) :: ps) qs := by
  obtain ⟨result, s', u', τ, hs, hu, htrees⟩ := hrest
  refine ⟨result, s', u', τ, .of_succ ?_, hu, htrees⟩
  simpa only [h.run_pairs hm] using hs

section Steps

variable (h : Reduces s a b ra rb s₁) (h' : Reduces u a' b' ra' rb' u₁)
include h h'

/-- They do so if what is left after one round does. -/
theorem pairs (hm : Move.ofRoots ra rb = .pairs more) (hm' : Move.ofRoots ra' rb' = .pairs more')
    (hrest : EndAlike s₁ u₁ (more ++ ps) (more' ++ qs)) :
    EndAlike s u ((a, b) :: ps) ((a', b') :: qs) := by
  obtain ⟨result, s', u', τ, hs, hu, htrees⟩ := hrest
  refine ⟨result, s', u', τ, .of_succ ?_, .of_succ ?_, htrees⟩
  · simpa only [h.run_pairs hm] using hs
  · simpa only [h'.run_pairs hm'] using hu

/-- The first run is done with the pair, and the second one goes through equal arguments. -/
theorem right (hm : Move.ofRoots ra rb = .pairs []) (hm' : Move.ofRoots ra' rb' = .pairs more')
    (hu : Posed nodes' u ((a', b') :: qs)) (hτ : u₁.cells.Resolves .exact id τ)
    (heq : Equal .exact τ τ more')
    (hrest : ∀ u₂ : Store, u₁.cells.Compressed u₂.cells → EndAlike s₁ u₂ ps qs) :
    EndAlike s u ((a, b) :: ps) ((a', b') :: qs) := by
  have hposed := hu.step h' hm'
  have hmore : Posed nodes' u₁ more' :=
    ⟨hposed.proper, fun q hq => hposed.below q (List.mem_append_left _ hq), hposed.cells,
      (pairsEvery_append.mp hposed.pairs).1⟩
  obtain ⟨u₂, hcomp, hrun⟩ := unifyPairs_equal hmore hτ heq
  obtain ⟨result, s', u', τ', hs, hu₂, htrees⟩ := hrest u₂ hcomp
  refine ⟨result, s', u', τ', .of_succ ?_, .of_succ ?_, htrees⟩
  · simpa only [h.run_pairs hm, List.nil_append] using hs
  · simpa only [h'.run_pairs hm'] using hrun qs _ hu₂

theorem fail {e : UnifyError} (hm : Move.ofRoots ra rb = .fail e)
    (hm' : Move.ofRoots ra' rb' = .fail e) (htrees : s₁.cells.SameTrees τ u₁.cells) :
    EndAlike s u ((a, b) :: ps) ((a', b') :: qs) :=
  ⟨.error e, s₁, u₁, τ, .of_succ (.of_forall fun _ => h.run_fail hm),
    .of_succ (.of_forall fun _ => h'.run_fail hm'), htrees⟩

/-- The occurs check fails in both runs, or both go on after they have bound the variable. -/
theorem bind (hm : Move.ofRoots ra rb = .bind v t) (hm' : Move.ofRoots ra' rb' = .bind v t')
    (htrees : s₁.cells.SameTrees τ u₁.cells) (heq : t.under .exact τ = t'.under .exact τ)
    (hnext : ∀ s₂ u₂ : Store, s₁.cells.Compressed s₂.cells → u₁.cells.Compressed u₂.cells →
      (s₂.bound v t).cells.Proper → (u₂.bound v t').cells.Proper →
        (s₂.bound v t).cells.SameTrees
          (fun w => (τ w).subst (Tree.single v (t.under .exact τ))) (u₂.bound v t').cells →
            EndAlike (s₂.bound v t) (u₂.bound v t') ps qs) :
    EndAlike s u ((a, b) :: ps) ((a', b') :: qs) := by
  obtain ⟨hv, hend, hbelow, -⟩ := h.bind hm
  obtain ⟨hv', hend', hbelow', -⟩ := h'.bind hm'
  obtain ⟨s₂, hcomp, hs⟩ := bindVar_checked htrees.left h.proper₁ hv hbelow
  obtain ⟨u₂, hcomp', hu⟩ := bindVar_checked htrees.right h'.proper₁ hv' hbelow'
  -- both occurs checks look for one variable in one tree, so they agree
  rw [← heq] at hu
  have htrees₂ := htrees.compressed h.proper₁.rooted h'.proper₁.rooted hcomp hcomp'
  rcases hs with ⟨hocc, hrun⟩ | ⟨hocc, hrun⟩
  · have hrun' := (hu.resolve_right fun hright => hright.1 hocc).2
    exact ⟨.error .occursCheck, s₂, u₂, τ, .of_succ (hrun.map fun fuel => h.run_bind_fail hm),
      .of_succ (hrun'.map fun fuel => h'.run_bind_fail hm'), htrees₂⟩
  · have hrun' := (hu.resolve_left fun hleft => hocc hleft.1).2
    have hv₂ := hcomp.unbound.mpr hv
    have hv₂' := hcomp'.unbound.mpr hv'
    have hproper : (s₂.bound v t).cells.Proper := (hcomp.proper h.proper₁).set hv₂
      (fun w hw => hcomp.unbound.mpr (hend w hw)) (hcomp.size ▸ hbelow) htrees₂.left hocc
    have hproper' : (u₂.bound v t').cells.Proper := (hcomp'.proper h'.proper₁).set hv₂'
      (fun w hw => hcomp'.unbound.mpr (hend' w hw)) (hcomp'.size ▸ hbelow') htrees₂.right
      (heq ▸ hocc)
    obtain ⟨result, s', u', τ', hs', hu', hends⟩ :=
      hnext s₂ u₂ hcomp hcomp' hproper hproper' (htrees₂.set hv₂ hv₂' heq hocc)
    exact ⟨result, s', u', τ', .of_succ (hrun.and_then hs' fun fuel => h.run_bind hm),
      .of_succ (hrun'.and_then hu' fun fuel => h'.run_bind hm'), hends⟩

end Steps

end EndAlike

/-- **Sharing cannot be observed.** Runs with the occurs check on pairs that stand for the same
trees end alike. The induction is on the moves of the first run. -/
theorem unifyPairs_sameTrees (hs : Posed nodes s ps) (hu : Posed nodes' u qs)
    (htrees : s.cells.SameTrees τ u.cells) (h : Tallies τ ps qs) : EndAlike s u ps qs := by
  revert τ u qs
  refine unify_induction
    (motive := fun s ps => Posed nodes s ps → ∀ {τ : Nat → Tree Unit} {u : Store}
      {qs : List (Term × Term)}, Posed nodes' u qs → s.cells.SameTrees τ u.cells → Tallies τ ps qs →
        EndAlike s u ps qs)
    (fun s _ _ τ u qs _ htrees h => ?_)
    (fun s a b ps ra rb s₁ hr _ ihpairs ihbind hs τ u qs hu htrees h => ?_) hs.proper hs.below hs
  · cases h
    exact .nil htrees
  have hra := htrees.left.solves.root hr.rootLeft
  have hrb := htrees.left.solves.root hr.rootRight
  cases h with
  | equal hab rest =>
    have hroots : TreeRoots τ ra rb := treeRoots ⟨rfl, htrees.left, htrees.left⟩
      hr.rootLeft.isEnd hr.rootRight.isEnd (hra.symm.trans (hab.trans hrb))
    -- the pair has no counterpart on the other side, where it was skipped
    obtain ⟨more, hm, hmore⟩ := hroots.equal_pairs (hs.roots hr).1.nanFree
    have htrees₁ := htrees.compressed hs.proper.rooted hu.proper.rooted hr.compressed (.refl _)
    exact .left hr hm (ihpairs more hm (hs.step hr hm) hu htrees₁ (rest.append_equal hmore))
  | both ha hb rest =>
    -- the pair has a counterpart, which makes a move on the same trees
    obtain ⟨ra', rb', u₁, hr'⟩ := hu.exists_reduces
    have hra' := htrees.right.solves.root hr'.rootLeft
    have hrb' := htrees.right.solves.root hr'.rootRight
    have hsame := hra.symm.trans (ha.trans hra')
    have hsame' := hrb.symm.trans (hb.trans hrb')
    have htrees₁ := htrees.compressed hs.proper.rooted hu.proper.rooted hr.compressed hr'.compressed
    have hmoves := treeMoves (treeRoots htrees hr.rootLeft.isEnd hr'.rootLeft.isEnd hsame)
      (treeRoots htrees hr.rootRight.isEnd hr'.rootRight.isEnd hsame') (hs.roots hr).1
      (hs.roots hr).2 (hu.roots hr').1 (hu.roots hr').2 hsame hsame'
    generalize hm : Move.ofRoots ra rb = m, hm' : Move.ofRoots ra' rb' = m' at hmoves
    cases hmoves with
    | @pairs more more' heq =>
      exact .pairs hr hr' hm hm'
        (ihpairs more hm (hs.step hr hm) (hu.step hr' hm') htrees₁ (rest.append heq))
    | @left more heq =>
      exact .pairs hr hr' hm hm' (ihpairs more hm (hs.step hr hm) (hu.step hr' hm') htrees₁
        (rest.append_equal heq))
    | right heq =>
      -- the second run works off its pairs of equal trees before the first goes on
      refine .right hr hr' hm hm' hu htrees₁.right heq fun u₂ hcomp => ?_
      exact ihpairs [] hm (hs.step hr hm) (hu.tail (hr'.compressed.trans hcomp))
        (htrees₁.compressed hr.proper₁.rooted hr'.proper₁.rooted (.refl _) hcomp) rest
    | bind v heq =>
      exact .bind hr hr' hm hm' htrees₁ heq fun s₂ u₂ hcomp hcomp' hproper hproper' htrees₂ =>
        ihbind v _ s₂ hm hcomp hproper (hs.bind hr hm hcomp hproper)
          (hu.bind hr' hm' hcomp' hproper') htrees₂ (rest.subst _)
    | fail e => exact .fail hr hr' hm hm' htrees₁

end Horn
