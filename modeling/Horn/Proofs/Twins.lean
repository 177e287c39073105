import Horn.Proofs.Copies
import Horn.Proofs.Unification

/-!
# Two stores that resolve alike

Two runs that do the same with different variables leave stores that resolve alike: there is a
renaming of the variables of the first store into those of the second one under which terms that
have been dealt with alike denote the same trees, node identities and bits of floats included.
Terms that denote the same have roots of one form, so unification makes the same move for them, and
stores that resolve alike are kept so by it. The second run makes the occurs check and the first one
does not; this makes no difference as long as the check does not fail.

- `Twins`: two stores, the renaming, and what their variables stand for.
- `Twins.Alike`: the stores resolve alike.
- `Twins.Alike.moves`: the moves for roots that denote the same.
- `Twins.Follows`: what unification does to twins.
- `Twins.lockstep`: unification of pairs that denote the same.
-/

namespace Horn

/-- Two stores, a renaming of the variables of the left one into those of the right one, and what
the variables of both stand for, in variables of the right one. -/
structure Twins where
  left : Store
  right : Store
  ρ : Nat → Nat
  σ : Nat → Tree Nat
  τ : Nat → Tree Nat

namespace Twins

variable {d d' : Twins} {a b a' b' t t' : Term} {v w x : Nat} {s₁ s₂ : Store}

/-- The two stores are proper, and their variables resolve to what is said they stand for. -/
structure Alike (d : Twins) : Prop where
  leftProper : d.left.cells.Proper
  rightProper : d.right.cells.Proper
  leftResolves : d.left.cells.Resolves .marked d.ρ d.σ
  rightResolves : d.right.cells.Resolves .marked id d.τ
  injective : ∀ u < d.left.cells.size, ∀ v < d.left.cells.size, d.ρ u = d.ρ v → u = v

/-- A term over the left store denotes the same as one over the right store. -/
def Same (d : Twins) (a a' : Term) : Prop := a.under .marked d.σ = a'.under .marked d.τ

/-- A leaf that is no variable denotes itself. -/
theorem same_leaf (ha : a.kind ≠ .var) (ha' : a.kind ≠ .compound) : d.Same a a := by
  cases a with
  | var v => exact absurd rfl ha
  | compound i f x xs => exact absurd rfl ha'
  | _ => rfl

/-- The pairs of two lists denote the same. -/
def SamePairs (d : Twins) : List (Term × Term) → List (Term × Term) → Prop :=
  List.Forall₂ fun q q' => d.Same q.1 q'.1 ∧ d.Same q.2 q'.2

/-! ## Roots that denote the same -/

/-- Two leaves that no comparison tells apart, or two nodes. -/
inductive Resembles : Term → Term → Prop where
  | atom {x y : Atom} (h : x.name = y.name) : Resembles (.atom x) (.atom y)
  | int (n : Int64) : Resembles (.int n) (.int n)
  | float (x : Binary64) : Resembles (.float x) (.float x)
  | box {b c : BlackBox} (h : b.serial = c.serial) : Resembles (.box b) (.box c)
  | compound {i j : Nat} {f g : Atom} {x y : Term} {xs ys : List Term} :
      Resembles (.compound i f x xs) (.compound j g y ys)

namespace Resembles

theorem kind_eq (h : Resembles a a') : a.kind = a'.kind := by
  cases h <;> rfl

theorem kind_ne_var (h : Resembles a a') : a.kind ≠ .var := by
  cases h <;> exact Kind.noConfusion

/-- Whether two leaves agree is the same for those that resemble them. -/
theorem leavesAgree_eq (h : Resembles a a') (h' : Resembles b b') :
    leavesAgree a b = leavesAgree a' b' := by
  cases h <;> cases h' <;> simp_all [leavesAgree, Atom.eqv]

theorem mismatch_eq (h : Resembles a a') (h' : Resembles b b') : mismatch a b = mismatch a' b' := by
  cases h <;> cases h' <;> rfl

/-- The same is done with leaves that resemble each other. -/
theorem ofRoots_eq (h : Resembles a a') (h' : Resembles b b')
    (hleaf : a.kind ≠ .compound ∨ b.kind ≠ .compound) :
    Move.ofRoots a b = Move.ofRoots a' b' := by
  have hleaf' : a'.kind ≠ .compound ∨ b'.kind ≠ .compound := h.kind_eq ▸ h'.kind_eq ▸ hleaf
  rw [Move.ofRoots_leaves h.kind_ne_var h'.kind_ne_var hleaf,
    Move.ofRoots_leaves (h.kind_eq ▸ h.kind_ne_var) (h'.kind_eq ▸ h'.kind_ne_var) hleaf',
    h.leavesAgree_eq h', h.mismatch_eq h']

end Resembles

/-- A copy resembles its source. -/
theorem Resembles.copied {m : Nat → Term} {n : Nat} (h : a.kind ≠ .var) :
    Resembles a (a.copied m n).1 := by
  cases a with
  | var v => exact absurd rfl h
  | atom x => exact .atom rfl
  | int n => exact .int n
  | float x => exact .float x
  | box b => exact .box rfl
  | compound i f x xs => exact .compound

/-- Roots that denote the same. -/
inductive Roots (d : Twins) : Term → Term → Prop where
  | var (v : Nat) : Roots d (.var v) (.var (d.ρ v))
  | leaf {a a' : Term} (h : Resembles a a') (ha : a.kind ≠ .compound) : Roots d a a'
  | node {i : Nat} {f g : Atom} {x y : Term} {xs ys : List Term} (hname : f.name = g.name)
      (hargs : List.Forall₂ d.Same (x :: xs) (y :: ys)) :
      Roots d (.compound i f x xs) (.compound i g y ys)

/-- Terms of two lists denote the same if the lists do. -/
theorem sameAll_of_map_eq : ∀ {xs ys : List Term},
    xs.map (Term.under .marked d.σ) = ys.map (Term.under .marked d.τ) → List.Forall₂ d.Same xs ys
  | [], [], _ => .nil
  | _ :: _, _ :: _, h => .cons (List.cons.inj h).1 (sameAll_of_map_eq (List.cons.inj h).2)

theorem map_eq_of_sameAll {xs ys : List Term} (h : List.Forall₂ d.Same xs ys) :
    xs.map (Term.under .marked d.σ) = ys.map (Term.under .marked d.τ) := by
  induction h with
  | nil => rfl
  | cons hx _ ih => exact congrArg₂ List.cons hx ih

theorem samePairs_zip {xs xs' : List Term} (h : List.Forall₂ d.Same xs xs') :
    ∀ {ys ys' : List Term}, List.Forall₂ d.Same ys ys' → d.SamePairs (xs.zip ys) (xs'.zip ys') := by
  induction h with
  | nil => exact fun _ => .nil
  | cons hx _ ih =>
    intro ys ys' h'
    cases h' with
    | nil => exact .nil
    | cons hy h' => exact .cons ⟨hx, hy⟩ (ih h')

/-- Ends of chains that denote the same are of one form. -/
theorem Alike.roots (h : d.Alike) (ha : d.left.cells.IsEnd a) (ha' : d.right.cells.IsEnd a')
    (hsame : d.Same a a') : d.Roots a a' := by
  unfold Same at hsame
  by_cases hkind : a.kind = .var
  · cases a with
    | var v =>
      rw [Term.under_var, h.leftResolves.unbound v (ha v rfl)] at hsame
      obtain ⟨w, rfl, -, hw⟩ := h.rightResolves.of_under_eq_var ha' hsame.symm
      cases hw
      exact .var v
    | _ => cases hkind
  -- a variable cannot denote what a leaf or a node denotes
  have hkind' : a'.kind ≠ .var := by
    intro hvar
    cases a' with
    | var w =>
      rw [Term.under_var, h.rightResolves.unbound w (ha' w rfl)] at hsame
      obtain ⟨v, rfl, -⟩ := h.leftResolves.of_under_eq_var ha hsame
      exact hkind rfl
    | _ => cases hvar
  cases a <;> cases a' <;>
    simp only [Term.under, Tree.leaf.injEq, reduceCtorEq, ne_eq, Term.kind, not_true_eq_false] at *
  case atom.atom x y => exact .leaf (.atom (Leaf.atom.inj hsame)) Kind.noConfusion
  case int.int m n => exact Leaf.int.inj hsame ▸ .leaf (.int m) Kind.noConfusion
  case float.float x y =>
    have hxy : x = y := Leaf.float.inj hsame
    exact hxy ▸ .leaf (.float x) Kind.noConfusion
  case box.box b c => exact .leaf (.box (Leaf.box.inj hsame)) Kind.noConfusion
  case compound.compound i f x xs j g y ys =>
    obtain ⟨hij, hname, hargs⟩ := Tree.node.inj hsame
    rw [← Term.underAll, ← Term.underAll, Term.underAll_eq_map, Term.underAll_eq_map] at hargs
    have hij : i = j := hij
    exact hij ▸ .node hname (sameAll_of_map_eq hargs)

/-- The roots of terms that denote the same do so, too. -/
theorem Alike.roots_of_same {r r' : Term} (h : d.Alike) (hr : d.left.cells.Root t r)
    (hr' : d.right.cells.Root t' r') (hsame : d.Same t t') : d.Same r r' ∧ d.Roots r r' := by
  have hsame' : d.Same r r' := (h.leftResolves.solves.root hr).symm.trans
    (Eq.trans hsame (h.rightResolves.solves.root hr'))
  exact ⟨hsame', h.roots hr.isEnd hr'.isEnd hsame'⟩

/-- Moves that do the same. -/
inductive Moves (d : Twins) : Move → Move → Prop where
  | pairs {more more' : List (Term × Term)} (h : d.SamePairs more more') :
      Moves d (.pairs more) (.pairs more')
  | bind {v : Nat} {t t' : Term} (h : d.Same t t') : Moves d (.bind v t) (.bind (d.ρ v) t')
  | fail (e : UnifyError) : Moves d (.fail e) (.fail e)

/-- Roots that correspond and are no variables resemble each other. -/
theorem Roots.resembles (h : d.Roots a a') (ha : a.kind ≠ .var) : Resembles a a' := by
  cases h with
  | var v => exact absurd rfl ha
  | leaf h _ => exact h
  | node _ _ => exact .compound

/-- Two variables that are unbound in the first store are one if their names in the second one
are. -/
theorem Alike.moves_vars (h : d.Alike) {w : Nat} (hv : v < d.left.cells.size)
    (hw : w < d.left.cells.size) (hsame : d.Same (.var w) (.var (d.ρ w))) :
    d.Moves (Move.ofRoots (.var v) (.var w)) (Move.ofRoots (.var (d.ρ v)) (.var (d.ρ w))) := by
  by_cases hvw : v = w
  · subst hvw
    simpa [Move.ofRoots] using Moves.pairs .nil
  · have hne : Term.var w ≠ .var v := fun h => hvw (Term.var.inj h).symm
    have hne' : Term.var (d.ρ w) ≠ .var (d.ρ v) := fun heq =>
      hvw (h.injective v hv w hw (Term.var.inj heq).symm)
    rw [Move.ofRoots_var hne, Move.ofRoots_var hne']
    exact .bind hsame

/-- Nodes with the same identities, functor names and arguments that denote the same. -/
theorem moves_nodes {i j : Nat} {f f' g g' : Atom} {x x' y y' : Term} {xs xs' ys ys' : List Term}
    (hname : f.name = f'.name) (hargs : List.Forall₂ d.Same (x :: xs) (x' :: xs'))
    (hname' : g.name = g'.name) (hargs' : List.Forall₂ d.Same (y :: ys) (y' :: ys')) :
    d.Moves (Move.ofRoots (.compound i f x xs) (.compound j g y ys))
      (Move.ofRoots (.compound i f' x' xs') (.compound j g' y' ys')) := by
  have hfunctors : (xs.length == ys.length && f.eqv g) =
      (xs'.length == ys'.length && f'.eqv g') := by
    rw [Atom.eqv, Atom.eqv, hname, hname', Nat.succ.inj hargs.length_eq,
      Nat.succ.inj hargs'.length_eq]
  by_cases htrue : (xs'.length == ys'.length && f'.eqv g') = true
  · simp only [Move.ofRoots, hfunctors, if_pos htrue]
    refine .pairs ?_
    by_cases hij : i = j
    · simpa [hij] using .nil
    · simpa [hij] using samePairs_zip hargs hargs'
  · simp only [Move.ofRoots, hfunctors, if_neg htrue]
    exact .fail _

/-- **The same move is made** for roots that denote the same. The cases are those of
`Move.ofRoots`: a variable on the left, one on the right, leaves, and nodes. -/
theorem Alike.moves (h : d.Alike) (hroots : d.Roots a a') (hroots' : d.Roots b b')
    (hsame : d.Same a a') (hsame' : d.Same b b') (ha : a.Below d.left.cells.size)
    (hb : b.Below d.left.cells.size) : d.Moves (Move.ofRoots a b) (Move.ofRoots a' b') := by
  by_cases hkind : a.kind = .var
  · cases hroots with
    | var v =>
      cases hroots' with
      | var w => exact h.moves_vars ha.here hb.here hsame'
      | leaf hb _ =>
        rw [Move.ofRoots_var fun h => hb.kind_ne_var (congrArg Term.kind h),
          Move.ofRoots_var fun h => hb.kind_ne_var (hb.kind_eq.trans (congrArg Term.kind h))]
        exact .bind hsame'
      | node _ _ => exact .bind hsame'
    | leaf h _ => exact absurd hkind h.kind_ne_var
    | node _ _ => cases hkind
  -- the left roots are no variables, hence of one kind
  have hres := hroots.resembles hkind
  by_cases hkind' : b.kind = .var
  · cases hroots' with
    | var w =>
      rw [Move.ofRoots_var_right hkind, Move.ofRoots_var_right (hres.kind_eq ▸ hkind)]
      exact .bind hsame
    | leaf h _ => exact absurd hkind' h.kind_ne_var
    | node _ _ => cases hkind'
  have hres' := hroots'.resembles hkind'
  by_cases hleaf : a.kind ≠ .compound ∨ b.kind ≠ .compound
  · rw [← hres.ofRoots_eq hres' hleaf, Move.ofRoots_leaves hkind hkind' hleaf]
    split
    · exact .pairs .nil
    · exact .fail _
  · obtain ⟨hnode, hnode'⟩ : a.kind = .compound ∧ b.kind = .compound := by simpa using hleaf
    cases hroots with
    | var v => cases hnode
    | leaf _ ha => exact absurd hnode ha
    | node hname hargs =>
      cases hroots' with
      | var w => cases hnode'
      | leaf _ hb => exact absurd hnode' hb
      | node hname' hargs' => exact moves_nodes hname hargs hname' hargs'

/-! ## Steps of both stores -/

/-- Chains are shortened in both stores. -/
theorem Alike.compressed (h : d.Alike) (hl : d.left.cells.Compressed s₁.cells)
    (hr : d.right.cells.Compressed s₂.cells) : Alike { d with left := s₁, right := s₂ } where
  leftProper := hl.proper h.leftProper
  rightProper := hr.proper h.rightProper
  leftResolves := (hl.resolves h.leftProper.rooted).mpr h.leftResolves
  rightResolves := (hr.resolves h.rightProper.rooted).mpr h.rightResolves
  injective := by
    show ∀ u < s₁.cells.size, ∀ v < s₁.cells.size, _
    rw [hl.size]
    exact h.injective

/-- What denotes the same goes on doing so when variables are replaced. -/
theorem Same.subst (h : d.Same a a') (δ : Nat → Tree Nat) :
    a.under .marked (fun u => (d.σ u).subst δ) = a'.under .marked fun u => (d.τ u).subst δ := by
  rw [← Term.under_subst, ← Term.under_subst, show a.under .marked d.σ = _ from h]

/-- A variable of the left store and the one of its name are bound. -/
def bound (d : Twins) (v : Nat) (t t' : Term) : Twins where
  left := d.left.bound v t
  right := d.right.bound (d.ρ v) t'
  ρ := d.ρ
  σ u := (d.σ u).subst (Tree.single (d.ρ v) (t'.under .marked d.τ))
  τ u := (d.τ u).subst (Tree.single (d.ρ v) (t'.under .marked d.τ))

@[simp]
theorem bound_left : (d.bound v t t').left = d.left.bound v t := rfl

/-- Binding to terms that denote the same keeps the stores alike, if no cycle comes about. -/
theorem Alike.bound (h : d.Alike) (hv : d.left.cells.Unbound v)
    (hv' : d.right.cells.Unbound (d.ρ v)) (ht : d.left.cells.IsEnd t)
    (ht' : d.right.cells.IsEnd t') (hbelow : t.Below d.left.cells.size)
    (hbelow' : t'.Below d.right.cells.size) (hsame : d.Same t t')
    (hocc : ¬(t'.under .marked d.τ).Occurs (d.ρ v)) : (d.bound v t t').Alike := by
  -- otherwise the variable would occur in what it is bound to
  have hne : t ≠ .var v := by
    rintro rfl
    refine hocc ?_
    rw [← show (Term.var v).under .marked d.σ = _ from hsame, Term.under_var,
      h.leftResolves.unbound v hv]
    exact .here
  have hleft : Cells.Resolves .marked (d.left.bound v t).cells d.ρ (d.bound v t t').σ := by
    have hset := h.leftResolves.set (t := t) hv
      (fun u hu huv => h.injective u hu.lt v hv.lt huv)
      (by rwa [show t.under .marked d.σ = _ from hsame])
    rwa [show t.under .marked d.σ = _ from hsame] at hset
  exact
    { leftProper := ⟨h.leftProper.closed.set hbelow,
        Cells.acyclic_of_solves (h.leftProper.rooted.set hv ht hne) hleft.solves⟩
      rightProper := h.rightProper.set hv' ht' hbelow' h.rightResolves hocc
      leftResolves := hleft
      rightResolves := h.rightResolves.set hv' (fun _ _ huv => huv) hocc
      injective := by
        show ∀ u < (d.left.bound v t).cells.size, ∀ w < (d.left.bound v t).cells.size, _
        rw [Store.size_bound]
        exact h.injective }

/-- A variable of the right store that is nobody's name is bound. -/
def aliased (d : Twins) (x : Nat) (t' : Term) : Twins where
  left := d.left
  right := d.right.bound x t'
  ρ := d.ρ
  σ u := (d.σ u).subst (Tree.single x (t'.under .marked d.τ))
  τ u := (d.τ u).subst (Tree.single x (t'.under .marked d.τ))

/-- This does not concern the left store. -/
theorem Alike.aliased (h : d.Alike) (hx : d.right.cells.Unbound x)
    (hname : ∀ v < d.left.cells.size, d.ρ v ≠ x) (ht' : d.right.cells.IsEnd t')
    (hbelow' : t'.Below d.right.cells.size) (hocc : ¬(t'.under .marked d.τ).Occurs x) :
    (d.aliased x t').Alike where
  leftProper := h.leftProper
  rightProper := h.rightProper.set hx ht' hbelow' h.rightResolves hocc
  leftResolves := h.leftResolves.subst fun v hv => Tree.single_of_ne (hname v hv.lt) _
  rightResolves := h.rightResolves.set hx (fun _ _ huv => huv) hocc
  injective := h.injective

/-- Variables have been added to the left store, with names of their own. -/
def extended (d : Twins) (s : Store) (ρ : Nat → Nat) : Twins :=
  { d with
    left := s
    ρ
    σ := fun w => if w < d.left.cells.size then d.σ w else .var (ρ w) }

/-- What is over the old variables goes on denoting the same. -/
theorem under_extended {s : Store} {ρ : Nat → Nat} (ha : a.Below d.left.cells.size) :
    a.under .marked (d.extended s ρ).σ = a.under .marked d.σ :=
  Term.under_congr fun _ hv => if_pos (ha.lt hv)

/-- New variables may be named at will, as long as different ones get different names. -/
theorem Alike.extended {s : Store} {ρ : Nat → Nat} (h : d.Alike)
    (hext : d.left.cells.Extended s.cells) (hold : ∀ w < d.left.cells.size, ρ w = d.ρ w)
    (hinj : ∀ u < s.cells.size, ∀ v < s.cells.size, ρ u = ρ v → u = v) :
    (d.extended s ρ).Alike where
  leftProper := hext.proper h.leftProper
  rightProper := h.rightProper
  leftResolves := by
    refine ⟨fun v t hv => ?_, fun v hv => ?_⟩
    · have hbound : d.left.cells.Bound v t := hext.bound.mp hv
      rw [under_extended (h.leftProper.closed v t hbound)]
      exact (if_pos hbound.lt).trans (h.leftResolves.solves v t hbound)
    · by_cases hlt : v < d.left.cells.size
      · have hv' : d.left.cells.Unbound v := (hext.old v hlt).symm.trans hv
        have hname : d.σ v = .var (ρ v) := (hold v hlt).symm ▸ h.leftResolves.unbound v hv'
        exact (if_pos hlt).trans hname
      · exact if_neg hlt
  rightResolves := h.rightResolves
  injective := hinj

/-- Unification of the pairs `ps` over the left store and of the pairs `qs` over the right one has
led from `d` to `d'`. -/
structure Follows (d : Twins) (ps qs : List (Term × Term)) (d' : Twins) : Prop where
  alike : d'.Alike
  leftSize : d'.left.cells.size = d.left.cells.size
  rightSize : d'.right.cells.size = d.right.cells.size
  ρ : d'.ρ = d.ρ
  same : ∀ a a', d.Same a a' → d'.Same a a'
  /-- A variable that is nobody's name is not bound. -/
  unnamed : ∀ x, d.right.cells.Unbound x → (∀ v < d.left.cells.size, d.ρ v ≠ x) →
    d'.right.cells.Unbound x
  leftEvery : ∀ p, d.left.cells.Every p → PairsEvery p ps → d'.left.cells.Every p
  rightEvery : ∀ p, d.right.cells.Every p → PairsEvery p qs → d'.right.cells.Every p

namespace Follows

variable {ra rb ra' rb' : Term} {s₃ : Store} {ps qs more more' : List (Term × Term)}

theorem refl (h : d.Alike) : d.Follows [] [] d where
  alike := h
  leftSize := rfl
  rightSize := rfl
  ρ := rfl
  same _ _ h := h
  unnamed _ h _ := h
  leftEvery _ h _ := h
  rightEvery _ h _ := h

/-- Both pairs are replaced by others. -/
theorem pairs (hl : Reduces d.left a b ra rb s₁) (hr : Reduces d.right a' b' ra' rb' s₂)
    (hm : Move.ofRoots ra rb = .pairs more) (hm' : Move.ofRoots ra' rb' = .pairs more')
    (h : Follows { d with left := s₁, right := s₂ } (more ++ ps) (more' ++ qs) d') :
    d.Follows ((a, b) :: ps) ((a', b') :: qs) d' where
  alike := h.alike
  leftSize := h.leftSize.trans hl.compressed.size
  rightSize := h.rightSize.trans hr.compressed.size
  ρ := h.ρ
  same := h.same
  unnamed x hx hne := h.unnamed x (hr.compressed.unbound.mpr hx) fun v hv =>
    hne v (hl.compressed.size ▸ hv)
  leftEvery p hp hps := h.leftEvery p (hl.compressed.every hp) (hl.every_pairs hm hp hps)
  rightEvery p hp hqs := h.rightEvery p (hr.compressed.every hp) (hr.every_pairs hm' hp hqs)

/-- A variable is bound in both stores. -/
theorem bind (hl : Reduces d.left a b ra rb s₁) (hr : Reduces d.right a' b' ra' rb' s₂)
    (hm : Move.ofRoots ra rb = .bind v t) (hm' : Move.ofRoots ra' rb' = .bind (d.ρ v) t')
    (hcomp : s₂.cells.Compressed s₃.cells)
    (h : Follows (bound { d with left := s₁, right := s₃ } v t t') ps qs d') :
    d.Follows ((a, b) :: ps) ((a', b') :: qs) d' where
  alike := h.alike
  leftSize := h.leftSize.trans (Store.size_bound.trans hl.compressed.size)
  rightSize := h.rightSize.trans
    (Store.size_bound.trans (hr.compressed.trans hcomp).size)
  ρ := h.ρ
  same _ _ hsame := h.same _ _ (hsame.subst _)
  unnamed x hx hne := by
    have hv : v < d.left.cells.size := hl.compressed.size ▸ (hl.bind hm).1.lt
    have hv' : d.ρ v < s₃.cells.size := hcomp.size ▸ (hr.bind hm').1.lt
    have hx₃ := (hr.compressed.trans hcomp).unbound.mpr hx
    refine h.unnamed x ((Cells.unbound_set hv').mpr ⟨(hne v hv).symm, hx₃⟩) fun u hu => ?_
    exact hne u (hl.compressed.size ▸ Store.size_bound.symm ▸ hu)
  leftEvery p hp hps :=
    h.leftEvery p (hl.every_bind hm (.refl _) hp hps) (pairsEvery_cons.mp hps).2
  rightEvery p hp hqs :=
    h.rightEvery p (hr.every_bind hm' hcomp hp hqs) (pairsEvery_cons.mp hqs).2

end Follows

/-! ## Unification in lockstep -/

/-- On the way of the right store to the given end, unification of the pairs `qs` is kept up with:
without the occurs check the pairs `ps` are unified in the left store as well, or fail with the
error that the right run ends in. -/
def KeepsUp (d : Twins) (ps qs rest : List (Term × Term)) (result : Except UnifyError Unit)
    (sEnd : Store) : Prop :=
  (∃ d', Settles (fun fuel => unifyPairs false fuel ps d.left) (.ok (), d'.left) ∧
    d.Follows ps qs d' ∧ Settles (fun fuel => unifyPairs true fuel rest d'.right) (result, sEnd)) ∨
  ∃ e s', result = .error e ∧
    Settles (fun fuel => unifyPairs false fuel ps d.left) (.error e, s')

/-- The same move is made for pairs that denote the same, once they are dereferenced. -/
theorem Alike.reduces {ra' rb' : Term} (h : d.Alike) (hsame : d.Same a a') (hsame' : d.Same b b')
    (ha : a.Below d.left.cells.size) (hb : b.Below d.left.cells.size)
    (hr : Reduces d.right a' b' ra' rb' s₂) :
    ∃ ra rb s₁, Reduces d.left a b ra rb s₁ ∧
      d.Moves (Move.ofRoots ra rb) (Move.ofRoots ra' rb') := by
  obtain ⟨ra, rb, s₁, hl⟩ := exists_reduces h.leftProper ha hb
  obtain ⟨hsame_a, hroots_a⟩ := h.roots_of_same hl.rootLeft hr.rootLeft hsame
  obtain ⟨hsame_b, hroots_b⟩ := h.roots_of_same hl.rootRight hr.rootRight hsame'
  obtain ⟨hbelow_a, hbelow_b⟩ := hl.every h.leftProper.closed ha hb
  exact ⟨ra, rb, s₁, hl, h.moves hroots_a hroots_b hsame_a hsame_b hbelow_a hbelow_b⟩

section Steps

variable {ra rb ra' rb' : Term} {ps qs more more' rest : List (Term × Term)}
  {result : Except UnifyError Unit} {sEnd s₃ : Store}
  (hl : Reduces d.left a b ra rb s₁) (hr : Reduces d.right a' b' ra' rb' s₂)
include hl hr

/-- After both pairs are replaced by others. -/
theorem KeepsUp.pairs (hm : Move.ofRoots ra rb = .pairs more)
    (hm' : Move.ofRoots ra' rb' = .pairs more')
    (h : KeepsUp { d with left := s₁, right := s₂ } (more ++ ps) (more' ++ qs) rest result sEnd) :
    d.KeepsUp ((a, b) :: ps) ((a', b') :: qs) rest result sEnd := by
  rcases h with ⟨d', hleft, hfollows, hend⟩ | ⟨e, s', herror, hleft⟩
  · refine .inl ⟨d', .of_succ ?_, .pairs hl hr hm hm' hfollows, hend⟩
    simpa only [hl.run_pairs hm] using hleft
  · refine .inr ⟨e, s', herror, .of_succ ?_⟩
    simpa only [hl.run_pairs hm] using hleft

/-- After a variable is bound in both stores. -/
theorem KeepsUp.bind (hm : Move.ofRoots ra rb = .bind v t)
    (hm' : Move.ofRoots ra' rb' = .bind (d.ρ v) t') (hcomp : s₂.cells.Compressed s₃.cells)
    (h : KeepsUp (bound { d with left := s₁, right := s₃ } v t t') ps qs rest result sEnd) :
    d.KeepsUp ((a, b) :: ps) ((a', b') :: qs) rest result sEnd := by
  have hv : s₁.cells.Unbound v := (hl.bind hm).1
  rcases h with ⟨d', hleft, hfollows, hend⟩ | ⟨e, s', herror, hleft⟩
  · refine .inl ⟨d', .of_succ ?_, .bind hl hr hm hm' hcomp hfollows, hend⟩
    simpa only [hl.run_bind hm (bindVar_unchecked _ hv), bound_left] using hleft
  · refine .inr ⟨e, s', herror, .of_succ ?_⟩
    simpa only [hl.run_bind hm (bindVar_unchecked _ hv), bound_left] using hleft

/-- The stores resolve alike after the variable is bound in both, the check having been made. -/
theorem Alike.bound_of_reduces (h : d.Alike) (hm : Move.ofRoots ra rb = .bind v t)
    (hm' : Move.ofRoots ra' rb' = .bind (d.ρ v) t') (hcomp : s₂.cells.Compressed s₃.cells)
    (ht : d.Same t t') (hocc : ¬(t'.under .marked d.τ).Occurs (d.ρ v)) :
    (Twins.bound { d with left := s₁, right := s₃ } v t t').Alike := by
  obtain ⟨hv, hend, hbelow, -⟩ := hl.bind hm
  obtain ⟨hv', hend', hbelow', -⟩ := hr.bind hm'
  exact (h.compressed hl.compressed (hr.compressed.trans hcomp)).bound hv
    (hcomp.unbound.mpr hv') hend (fun w hw => hcomp.unbound.mpr (hend' w hw)) hbelow
    (hcomp.size ▸ hbelow') ht hocc

end Steps

/-- **Unification in lockstep.** The induction is on the moves that are made in the right store. -/
theorem lockstep {ps qs rest : List (Term × Term)} {result : Except UnifyError Unit} {sEnd : Store}
    (hresult : result ≠ .error .occursCheck) (h : d.Alike) (hsame : d.SamePairs ps qs)
    (hps : PairsBelow d.left.cells.size ps) (hqs : PairsBelow d.right.cells.size qs)
    (hrun : Settles (fun fuel => unifyPairs true fuel (qs ++ rest) d.right) (result, sEnd)) :
    d.KeepsUp ps qs rest result sEnd := by
  -- the left run makes the same moves; only the right one is known to end
  generalize hright : d.right = s at hqs hrun
  have hproper : s.cells.Proper := hright ▸ h.rightProper
  revert d ps
  refine unify_induction
    (motive := fun s qs =>
      Settles (fun fuel => unifyPairs true fuel (qs ++ rest) s) (result, sEnd) →
      ∀ {d : Twins} {ps : List (Term × Term)}, d.Alike → d.SamePairs ps qs →
        PairsBelow d.left.cells.size ps → d.right = s → d.KeepsUp ps qs rest result sEnd)
    (fun s _ hrun d ps h hsame _ hright => ?_)
    (fun s a' b' qs ra' rb' s₂ hr _ ihpairs ihbind hrun d ps h hsame hps hright => ?_)
    hproper hqs hrun
  · cases hsame
    refine .inl ⟨d, .of_forall fun fuel => ?_, .refl h, hright ▸ hrun⟩
    cases fuel <;> rfl
  · subst hright
    cases hsame with
    | @cons q _ ps _ hq hsame =>
      obtain ⟨a, b⟩ := q
      obtain ⟨ha, hb⟩ := hps (a, b) List.mem_cons_self
      have hps : PairsBelow d.left.cells.size ps := fun q hq => hps q (List.mem_cons_of_mem _ hq)
      obtain ⟨ra, rb, s₁, hl, hmoves⟩ := h.reduces hq.1 hq.2 ha hb hr
      have h₁ := h.compressed hl.compressed hr.compressed
      generalize hm : Move.ofRoots ra rb = m, hm' : Move.ofRoots ra' rb' = m' at hmoves
      cases hmoves with
      | @pairs more more' hmore =>
        rw [List.cons_append] at hrun
        have hrun' := hr.settles_pairs hm' hrun
        -- the new pairs come before those that both runs have left
        rw [← List.append_assoc] at hrun'
        have hbelow : PairsBelow s₁.cells.size (more ++ ps) :=
          List.forall_mem_append.mpr ⟨hl.pairsBelow hm, hl.compressed.size ▸ hps⟩
        exact .pairs hl hr hm hm' <|
          ihpairs more' hm' hrun' h₁ (List.rel_append hmore hsame) hbelow rfl
      | @bind v t t' ht =>
        rcases hr.settles_bind hm' h₁.rightResolves hrun with hcheck | ⟨s₃, hcomp, hocc, hrun'⟩
        · exact absurd hcheck hresult
        have h₃ := h.bound_of_reduces hl hr hm hm' hcomp ht hocc
        have hbelow : PairsBelow (s₁.bound v t).cells.size ps := by
          rw [Store.size_bound, hl.compressed.size]
          exact hps
        have hsames : SamePairs (bound { d with left := s₁, right := s₃ } v t t') ps qs :=
          hsame.imp fun _ _ hq => ⟨hq.1.subst _, hq.2.subst _⟩
        exact .bind hl hr hm hm' hcomp <|
          ihbind _ t' s₃ hm' hcomp h₃.rightProper hrun' h₃ hsames hbelow rfl
      | fail e =>
        exact .inr ⟨e, s₁, hr.settles_fail hm' hrun, .of_succ (.of_forall fun _ => hl.run_fail hm)⟩

end Twins

end Horn
