import Horn.Proofs.FusedWalk
import Horn.Proofs.Tracking
import Horn.Proofs.Values

/-!
# The fused walk agrees with the plain one

The plain run copies the source and then unifies the copy with the goal, with the occurs check. If
the check does not fail, the fused walk ends as well, with the same outcome, and what it leaves
resolves to the same as what the plain run leaves, up to the names of new variables.

- `PlainRun.Agrees`: for a source, the fused walk keeps up with the plain run.
- `PlainRun.agrees`: it does for every source, by induction on it.
- `SameValue`: terms of two stores with the same value, up to the names of variables.
- `copyAndUnify_agrees`: the two runs as a whole.
-/

namespace Horn

/-- The plain run: what the source variables are copied to, which source variables there are, how
many variables there were before, and how the run ends. -/
structure PlainRun where
  image : Nat → Term
  known : Nat → Prop
  base : Nat
  result : Except UnifyError Unit
  final : Store

namespace PlainRun

variable {P : PlainRun} {n v : Nat} {memo memo' : Memo} {d d' : Twins} {s₁ s₂ : Store}
  {source goal goal' r r' t : Term} {rest : List (Term × Term)}

/-- With the pairs that are left the plain run comes to its end. -/
def EndsFrom (P : PlainRun) (s : Store) (pairs : List (Term × Term)) : Prop :=
  Settles (fun fuel => unifyPairs true fuel pairs s) (P.result, P.final)

/-- A later state of the two runs, from which the plain run goes on with the pairs that are left. -/
structure Reaches (P : PlainRun) (rest : List (Term × Term)) (d : Twins) (n : Nat) (memo : Memo)
    (d' : Twins) : Prop where
  tracks : d'.Tracks P.image P.known P.base n memo
  precedes : d.Precedes d'
  endsFrom : P.EndsFrom d'.right rest

/-- The fused walk of a source keeps up with the plain run: it gets to a copy that denotes the same
as the copy in the plain run, or fails with the error that the plain run ends in. -/
def WalksAlong (P : PlainRun) (source goal : Term) (rest : List (Term × Term)) (n : Nat)
    (memo : Memo) (d : Twins) : Prop :=
  (∃ copied memo' d',
    Walks source goal ⟨n⟩ ⟨d.left, memo⟩ (.ok copied) ⟨(source.copied P.image n).2⟩
        ⟨d'.left, memo'⟩ ∧
      P.Reaches rest d (source.copied P.image n).2 memo' d' ∧
      d'.left.Holds (source.copied P.image n).2 copied ∧
      d'.Same copied (source.copied P.image n).1) ∨
  ∃ e supply' i', P.result = .error e ∧ Walks source goal ⟨n⟩ ⟨d.left, memo⟩ (.error e) supply' i'

/-! ## Source variables -/

/-- A source variable seen for the first time. -/
theorem walksAlong_first (hP : P.result ≠ .error .occursCheck)
    (h : d.Tracks P.image P.known P.base n memo) (hv : P.known v) (hnone : memo.find? v = none)
    (hgoal : d.left.Holds n goal) (hgoal' : d.right.Holds n goal') (hsame : d.Same goal goal')
    (hrun : P.EndsFrom d.right ((P.image v, goal') :: rest)) :
    P.WalksAlong (.var v) goal rest n memo d := by
  obtain ⟨x, hx, -⟩ := h.plainly.var v hv
  obtain ⟨hfree, hname⟩ := h.unseen v x hv hnone hx
  obtain ⟨ra, rb, s₂, hr⟩ :=
    exists_reduces h.alike.rightProper (h.holds hv).below hgoal'.below
  have hra : ra = .var x := (hx ▸ hr.rootLeft).unique hfree.leads
  obtain ⟨r, hroot⟩ := h.alike.leftProper.rooted.root hgoal.below
  obtain ⟨-, hroots⟩ := h.alike.roots_of_same hroot hr.rootRight hsame
  -- the goal does not stand for the copy, which is nobody's name
  have hne : rb ≠ .var x := by
    rintro rfl
    cases hroots with
    | var w => exact hname w (hroot.every h.alike.leftProper.closed hgoal.below).here rfl
    | leaf hres _ => exact hres.kind_ne_var hres.kind_eq
  have hm : Move.ofRoots ra rb = .bind x rb := hra ▸ Move.ofRoots_var hne
  have h₂ := h.compressed (.refl _) hr.compressed
  rcases hr.settles_bind hm h₂.alike.rightResolves hrun with hcheck | ⟨s₃, hcomp, hocc, hrest⟩
  · exact absurd hcheck hP
  have hcomp₃ := hr.compressed.trans hcomp
  have h₃ := h.compressed (.refl _) hcomp₃
  have hrb : s₃.Holds n rb :=
    ⟨hcomp₃.size ▸ hr.rootRight.every h.alike.rightProper.closed hgoal'.below,
      hr.rootRight.every h.rightOlder hgoal'.older⟩
  have hsame_rb : d.Same goal rb := hsame.trans (h.alike.rightResolves.solves.root hr.rootRight)
  have htracks := h₃.first hv hnone hx hgoal hrb
    (fun w hw => hcomp₃.unbound.mpr (hr.rootRight.isEnd w hw)) hsame_rb hocc
  have hprecedes : d.Precedes (Twins.aliased { d with right := s₃ } x rb) :=
    (Twins.Precedes.compressed (.refl _) hcomp₃).trans .aliased
  exact .inl ⟨goal, memo.insert v goal, Twins.aliased { d with right := s₃ } x rb, .first hnone,
    ⟨htracks, hprecedes, hrest⟩, hgoal, (htracks.seen v goal (VarTable.find?_insert_self hnone)).2⟩

/-- A source variable seen before. -/
theorem walksAlong_seen (hP : P.result ≠ .error .occursCheck)
    (h : d.Tracks P.image P.known P.base n memo) (hv : P.known v) (hsome : memo.find? v = some t)
    (hgoal : d.left.Holds n goal) (hgoal' : d.right.Holds n goal') (hsame : d.Same goal goal')
    (hrun : P.EndsFrom d.right ((P.image v, goal') :: rest)) :
    P.WalksAlong (.var v) goal rest n memo d := by
  obtain ⟨ht, hsame_t⟩ := h.seen v t hsome
  have hv' := h.holds hv
  have hpairs : ∀ {p : Term → Prop} {a b : Term}, a.Every p → b.Every p → PairsEvery p [(a, b)] :=
    fun ha hb q hq => List.mem_singleton.mp hq ▸ ⟨ha, hb⟩
  have hsames : d.SamePairs [(t, goal)] [(P.image v, goal')] := .cons ⟨hsame_t, hsame⟩ .nil
  have hwalk : ∀ {result : Except UnifyError Unit} {s' : Store},
      Settles (fun fuel => unifyPairs false fuel [(t, goal)] d.left) (result, s') →
        Walks (.var v) goal ⟨n⟩ ⟨d.left, memo⟩ (result.map fun _ => t) ⟨n⟩ ⟨s', memo⟩ :=
    fun hleft => .known hsome hleft
  -- the pair of what the variable stands for and the goal is unified in both runs
  rcases Twins.lockstep hP h.alike hsames (hpairs ht.below hgoal.below)
    (hpairs hv'.below hgoal'.below) hrun with ⟨d', hleft, hfollows, hrest⟩ | ⟨e, s', herror, hleft⟩
  · refine .inl ⟨t, memo, d', hwalk hleft, ⟨?_, .of_follows hfollows, hrest⟩, ?_, ?_⟩
    · exact h.follows hfollows (hpairs ht.older hgoal.older) (hpairs hv'.older hgoal'.older)
    · exact ht.mono (Nat.le_of_eq hfollows.leftSize.symm) (Nat.le_refl _)
    · exact hfollows.same _ _ hsame_t
  · exact .inr ⟨e, _, _, herror, hwalk hleft⟩

/-! ## Sources that are no variables -/

/-- Both runs have dereferenced the goal that they match the source with, or unify its copy with. -/
structure Meets (P : PlainRun) (source goal goal' r r' : Term) (n : Nat) (memo : Memo) (d : Twins)
    (s₁ s₂ : Store) : Prop where
  tracks : d.Tracks P.image P.known P.base n memo
  known : ∀ v, Term.Within (.var v) source → P.known v
  kind : source.kind ≠ .var
  left : d.left.Holds n r
  right : d.right.Holds n r'
  roots : d.Roots r r'
  root : d.left.cells.Root goal r
  deref : deref goal d.left = .ok (r, s₁)
  compressed : d.left.cells.Compressed s₁.cells
  reduces : Reduces d.right (source.copied P.image n).1 goal' (source.copied P.image n).1 r' s₂

/-- Both walks dereference the goal of a source that is no variable, and what they find there
denotes the same. -/
theorem exists_meets (h : d.Tracks P.image P.known P.base n memo)
    (hknown : ∀ v, Term.Within (.var v) source → P.known v) (hkind : source.kind ≠ .var)
    (hgoal : d.left.Holds n goal) (hgoal' : d.right.Holds n goal') (hsame : d.Same goal goal') :
    ∃ r r' s₁ s₂, P.Meets source goal goal' r r' n memo d s₁ s₂ := by
  obtain ⟨r, hroot⟩ := h.alike.leftProper.rooted.root hgoal.below
  obtain ⟨s₁, hderef, hcomp⟩ := deref_run hroot
  have hcopy : (source.copied P.image n).1.Below d.right.cells.size :=
    Term.copied_below fun v hv => (h.holds (hknown v hv)).below
  obtain ⟨ra, r', s₂, hr⟩ := exists_reduces h.alike.rightProper hcopy hgoal'.below
  have hra : ra = (source.copied P.image n).1 :=
    (Cells.root_of_kind (Term.copied_kind hkind ▸ hkind)).mp hr.rootLeft
  subst hra
  have hroots : d.Roots r r' := (h.alike.roots_of_same hroot hr.rootRight hsame).2
  refine ⟨r, r', s₁, s₂, h, hknown, hkind, ⟨?_, ?_⟩, ⟨?_, ?_⟩, hroots, hroot, hderef, hcomp, hr⟩
  · exact hroot.every h.alike.leftProper.closed hgoal.below
  · exact hroot.every h.leftOlder hgoal.older
  · exact hr.rootRight.every h.alike.rightProper.closed hgoal'.below
  · exact hr.rootRight.every h.rightOlder hgoal'.older

section Meets

variable (hm : P.Meets source goal goal' r r' n memo d s₁ s₂)
  (hrun : P.EndsFrom d.right (((source.copied P.image n).1, goal') :: rest))
include hm

/-- Both runs have gone on from the goal to its root. -/
theorem Meets.reaches (hrest : P.EndsFrom s₂ rest) :
    P.Reaches rest d n memo { d with left := s₁, right := s₂ } where
  tracks := hm.tracks.compressed hm.compressed hm.reduces.compressed
  precedes := .compressed hm.compressed hm.reduces.compressed
  endsFrom := hrest

include hrun

/-- Leaves are compared. -/
theorem walksAlong_leaf (hroot : r.kind ≠ .var)
    (hleaf : source.kind ≠ .compound ∨ r.kind ≠ .compound) :
    P.WalksAlong source goal rest n memo d := by
  have hmove : Move.ofRoots (source.copied P.image n).1 r' =
      if leavesAgree source r then .pairs [] else .fail (mismatch source r) := by
    rw [← (Twins.Resembles.copied hm.kind).ofRoots_eq (hm.roots.resembles hroot) hleaf,
      Move.ofRoots_leaves hm.kind hroot hleaf]
  have hwalk : Walks source goal ⟨n⟩ ⟨d.left, memo⟩ _ _ _ := .leaf hm.kind hroot hleaf hm.deref
  by_cases hagree : leavesAgree source r = true
  · rw [if_pos hagree] at hmove hwalk
    have hcompound : source.kind ≠ .compound := by
      cases source <;> first | exact Kind.noConfusion | cases hagree
    have hcopied : source.copied P.image n = (source, n) := by
      cases source with
      | var v => exact absurd rfl hm.kind
      | compound i f x xs => exact absurd rfl hcompound
      | _ => rfl
    rw [WalksAlong, hcopied]
    exact .inl ⟨source, memo, { d with left := s₁, right := s₂ }, hwalk,
      hm.reaches (hm.reduces.settles_pairs hmove hrun), .of_leaf hm.kind hcompound,
      Twins.same_leaf hm.kind hcompound⟩
  -- the two runs fail with one error, as it depends on the two leaves only
  · rw [if_neg hagree] at hmove hwalk
    exact .inr ⟨_, _, _, hm.reduces.settles_fail hmove hrun, hwalk⟩

/-- An unbound variable of the goal is bound to a copy. -/
theorem walksAlong_bind {w : Nat} (hP : P.result ≠ .error .occursCheck) (hr : r = .var w)
    (hr' : r' = .var (d.ρ w)) : P.WalksAlong source goal rest n memo d := by
  subst hr hr'
  have h := hm.tracks
  have hkind : (source.copied P.image n).1.kind ≠ .var := Term.copied_kind hm.kind ▸ hm.kind
  have hmove := Move.ofRoots_var_right (w := d.ρ w) hkind
  rcases hm.reduces.settles_bind hmove (h.compressed hm.compressed
    hm.reduces.compressed).alike.rightResolves hrun with hcheck | ⟨s₃, hcomp, hocc, hrest⟩
  · exact absurd hcheck hP
  have hcomp₃ := hm.reduces.compressed.trans hcomp
  have h₁ := h.compressed hm.compressed hcomp₃
  obtain ⟨i, ρ, c, hc⟩ := h₁.exists_copiesAlike source hm.known
  have hw : s₁.cells.Unbound w := hm.compressed.unbound.mpr (hm.root.isEnd w rfl)
  have hw' : s₃.cells.Unbound (d.ρ w) := hcomp₃.unbound.mpr (hm.reduces.rootRight.isEnd _ rfl)
  have hw_i : i.store.cells.Unbound w := hc.extended.unbound hw
  -- the variable of the goal is an old one, so it keeps its name
  have hρw : ρ w = d.ρ w := hc.names w hw.lt
  rw [← hρw] at hocc hrest hw'
  have h₃ := hc.tracks.bound hw_i hw' hc.left hc.right
    (Cells.isEnd_of_kind (hc.kind hm.kind ▸ hm.kind)) (Cells.isEnd_of_kind hkind) hc.same hocc
  refine .inl ⟨c, i.memo, _, .bind hm.kind hm.deref hc.run hw_i.lt, ⟨h₃, ?_, hrest⟩,
    hc.left.mono (Nat.le_of_eq Store.size_bound.symm) (Nat.le_refl _), Twins.Same.subst hc.same _⟩
  exact (Twins.Precedes.compressed hm.compressed hcomp₃).trans
    ((Twins.Precedes.extended hc.extended).trans .bound)

end Meets

/-! ## Nodes -/

/-- The same for the arguments of two nodes, one after the other. -/
def WalksAlongAll (P : PlainRun) (sources goals : List Term) (rest : List (Term × Term)) (n : Nat)
    (memo : Memo) (d : Twins) : Prop :=
  (∃ copies memo' d',
    WalksAll (sources.zip goals) ⟨n⟩ ⟨d.left, memo⟩ (.ok copies)
        ⟨(Term.copiedAll P.image n sources).2⟩ ⟨d'.left, memo'⟩ ∧
      P.Reaches rest d (Term.copiedAll P.image n sources).2 memo' d' ∧
      (∀ c ∈ copies, d'.left.Holds (Term.copiedAll P.image n sources).2 c) ∧
      List.Forall₂ d'.Same copies (Term.copiedAll P.image n sources).1) ∨
  ∃ e supply' i', P.result = .error e ∧
    WalksAll (sources.zip goals) ⟨n⟩ ⟨d.left, memo⟩ (.error e) supply' i'

/-- The fused walk of the source keeps up with the plain run in all states, for all goals. -/
def Agrees (P : PlainRun) (source : Term) : Prop :=
  ∀ {n : Nat} {memo : Memo} {d : Twins} {goal goal' : Term} {rest : List (Term × Term)},
    d.Tracks P.image P.known P.base n memo → d.left.Holds n goal → d.right.Holds n goal' →
      d.Same goal goal' → P.EndsFrom d.right (((source.copied P.image n).1, goal') :: rest) →
        P.WalksAlong source goal rest n memo d

/-- Walks that agree on each of some sources agree on the list: what the first one has bound is
accounted for when the next one begins. -/
theorem walksAlongAll {sources goals goals' : List Term} (hagrees : ∀ x ∈ sources, P.Agrees x)
    (h : d.Tracks P.image P.known P.base n memo) (hlength : sources.length = goals.length)
    (hgoals : ∀ y ∈ goals, d.left.Holds n y) (hgoals' : ∀ y ∈ goals', d.right.Holds n y)
    (hsame : List.Forall₂ d.Same goals goals')
    (hrun : P.EndsFrom d.right ((Term.copiedAll P.image n sources).1.zip goals' ++ rest)) :
    P.WalksAlongAll sources goals rest n memo d := by
  induction sources generalizing goals goals' n memo d with
  | nil => exact .inl ⟨[], memo, d, .nil, ⟨h, .refl d, hrun⟩, fun c hc => (nomatch hc), .nil⟩
  | cons x xs ih =>
    cases hsame with
    | nil => cases hlength
    | @cons y y' ys ys' hy hsame =>
      rcases hagrees x List.mem_cons_self h (hgoals y List.mem_cons_self)
        (hgoals' y' List.mem_cons_self) hy hrun with
        ⟨copied, memo₁, d₁, hwalk, hreaches, hcopied, hsame₁⟩ | ⟨e, supply', i', herror, hwalk⟩
      · have hle : n ≤ (x.copied P.image n).2 := Term.le_copied x n
        have hgoals₁ : ∀ z ∈ ys, d₁.left.Holds (x.copied P.image n).2 z := fun z hz =>
          (hgoals z (List.mem_cons_of_mem _ hz)).mono hreaches.precedes.left hle
        have hgoals₁' : ∀ z ∈ ys', d₁.right.Holds (x.copied P.image n).2 z := fun z hz =>
          (hgoals' z (List.mem_cons_of_mem _ hz)).mono (Nat.le_of_eq hreaches.precedes.right.symm)
            hle
        have hsames₁ := hreaches.precedes.sameAll
          (fun z hz => (hgoals z (List.mem_cons_of_mem _ hz)).below) hsame
        -- the heads have been dealt with, and their bindings are in the twins `d₁`
        rcases ih (fun z hz => hagrees z (List.mem_cons_of_mem _ hz)) hreaches.tracks
          (Nat.succ.inj hlength) hgoals₁ hgoals₁' hsames₁ hreaches.endsFrom with
          ⟨copies, memo₂, d₂, hwalks, hreaches₂, hcopies, hsame₂⟩ | ⟨e, supply', i', herror, hwalks⟩
        · refine .inl ⟨copied :: copies, memo₂, d₂, .cons hwalk hwalks,
            ⟨hreaches₂.tracks, hreaches.precedes.trans hreaches₂.precedes, hreaches₂.endsFrom⟩,
            List.forall_mem_cons.mpr ⟨?_, hcopies⟩, .cons ?_ hsame₂⟩
          · exact hcopied.mono hreaches₂.precedes.left (Term.le_copiedAll xs _)
          · exact hreaches₂.precedes.same _ _ hcopied.below hsame₁
        · exact .inr ⟨e, supply', i', herror, .cons hwalk hwalks⟩
      · exact .inr ⟨e, supply', i', herror, .stop hwalk⟩

section Nodes

variable {j k : Nat} {f g g' : Atom} {x y y' : Term} {xs ys ys' : List Term}
  (hm : P.Meets (.compound j f x xs) goal goal' (.compound k g y ys) (.compound k g' y' ys') n memo
    d s₁ s₂)
  (hrun : P.EndsFrom d.right ((((Term.compound j f x xs).copied P.image n).1, goal') :: rest))
  (hname : g.name = g'.name) (hargs : List.Forall₂ d.Same (y :: ys) (y' :: ys'))
include hm hrun hname hargs

/-- Nodes with different functors do not unify. -/
theorem walksAlong_functors (h : ¬(xs.length = ys.length ∧ f.name = g.name)) :
    P.WalksAlong (.compound j f x xs) goal rest n memo d := by
  have h' : ¬((Term.copiedAll P.image (x.copied P.image n).2 xs).1.length = ys'.length ∧
      f.name = g'.name) := by
    rwa [Term.length_copiedAll, ← Nat.succ.inj hargs.length_eq, ← hname]
  exact .inr ⟨_, _, _, hm.reduces.settles_fail (Move.ofRoots_functors h') hrun,
    .functors hm.deref h⟩

/-- The arguments of nodes with one functor are matched one by one. The node of the copy is new in
the plain run as well, so that it is not taken to be the node of the goal. -/
theorem walksAlong_arguments (hagrees : ∀ z ∈ x :: xs, P.Agrees z)
    (hlength : xs.length = ys.length) (hfunctor : f.name = g.name) :
    P.WalksAlongAll (x :: xs) (y :: ys) rest n memo { d with left := s₁, right := s₂ } := by
  have hle : n ≤ (Term.copiedAll P.image n (x :: xs)).2 := Term.le_copiedAll (x :: xs) n
  have hne : (Term.copiedAll P.image n (x :: xs)).2 ≠ k :=
    (Nat.lt_of_lt_of_le hm.right.older.here hle).ne'
  have hlength' : (Term.copiedAll P.image (x.copied P.image n).2 xs).1.length = ys'.length := by
    rw [Term.length_copiedAll, hlength, Nat.succ.inj hargs.length_eq]
  -- the copy is a node of its own, so the plain run compares the arguments as well
  have hrun' := hm.reduces.settles_pairs
    (Move.ofRoots_nodes hne (hfunctor.trans hname) hlength') hrun
  have hgoals : ∀ z ∈ y :: ys, s₁.Holds n z := fun z hz =>
    ⟨hm.compressed.size ▸ hm.left.below.arg hz, hm.left.older.arg hz⟩
  have hgoals' : ∀ z ∈ y' :: ys', s₂.Holds n z := fun z hz =>
    ⟨hm.reduces.compressed.size ▸ hm.right.below.arg hz, hm.right.older.arg hz⟩
  have hlengths : (x :: xs).length = (y :: ys).length := congrArg Nat.succ hlength
  exact walksAlongAll hagrees (hm.tracks.compressed hm.compressed hm.reduces.compressed) hlengths
    hgoals hgoals' hargs hrun'

/-- Nodes with one functor are matched argument by argument. -/
theorem walksAlong_node (hagrees : ∀ z ∈ x :: xs, P.Agrees z) (hlength : xs.length = ys.length)
    (hfunctor : f.name = g.name) : P.WalksAlong (.compound j f x xs) goal rest n memo d := by
  let N := (Term.copiedAll P.image n (x :: xs)).2
  have hprecedes := Twins.Precedes.compressed hm.compressed hm.reduces.compressed
  rcases walksAlong_arguments hm hrun hname hargs hagrees hlength hfunctor with
    ⟨copies, memo', d', hwalks, hreaches, hcopies, hsame⟩ | ⟨e, supply', i', herror, hwalks⟩
  · -- the copied arguments have the same values as those of the copy that the plain run made
    have hmap := Twins.map_eq_of_sameAll hsame
    cases hsame with
    | @cons z _ zs _ _ _ =>
      have hwalks : WalksAll ((x, y) :: xs.zip ys) ⟨n⟩ { store := s₁, memo } (.ok (z :: zs)) ⟨N⟩
          ⟨d'.left, memo'⟩ := hwalks
      have hwalk := Walks.node (i := ⟨d.left, memo⟩) (j := j) hm.deref hfunctor hlength hwalks
      refine .inl ⟨.compound N f z zs, memo', d', hwalk,
        ⟨hreaches.tracks.later (Nat.le_succ N), hprecedes.trans hreaches.precedes,
          hreaches.endsFrom⟩, ⟨?_, ?_⟩, ?_⟩
      · exact .intro trivial fun c hc => (hcopies c hc).below
      · exact .intro (Nat.lt_succ_self N) fun c hc => (hcopies c hc).older.mono (Nat.le_succ N)
      · show (Term.compound N f z zs).under .marked d'.σ = _
        rw [Term.under_compound, hmap]
        exact Term.under_compound.symm
  · have hwalk : Walks (.compound j f x xs) goal ⟨n⟩ ⟨d.left, memo⟩ (.error e) supply' i' :=
      .node_error hm.deref hfunctor hlength hwalks
    exact .inr ⟨e, supply', i', herror, hwalk⟩

end Nodes

/-- **The fused walk keeps up with the plain run**, if the occurs check does not fail in it. The
induction is on the source. -/
theorem agrees (hP : P.result ≠ .error .occursCheck) (source : Term)
    (hknown : ∀ v, Term.Within (.var v) source → P.known v) : P.Agrees source := by
  induction source using Term.induction_arguments with
  | h source ih =>
    intro n memo d goal goal' rest h hgoal hgoal' hsame hrun
    by_cases hkind : source.kind = .var
    · cases source with
      | var v =>
        cases hv : memo.find? v with
        | none => exact walksAlong_first hP h (hknown v .here) hv hgoal hgoal' hsame hrun
        | some t => exact walksAlong_seen hP h (hknown v .here) hv hgoal hgoal' hsame hrun
      | _ => cases hkind
    -- a source that is no variable: both runs look at the root of the goal
    obtain ⟨r, r', s₁, s₂, hm⟩ := exists_meets h hknown hkind hgoal hgoal' hsame
    cases hm.roots with
    | var w => exact walksAlong_bind hm hrun hP rfl rfl
    | leaf hres hleaf => exact walksAlong_leaf hm hrun hres.kind_ne_var (.inr hleaf)
    | @node k g g' y y' ys ys' hname hargs =>
      by_cases hcompound : source.kind = .compound
      · cases source with
        | compound j f x xs =>
          by_cases hnames : xs.length = ys.length ∧ f.name = g.name
          · exact walksAlong_node hm hrun hname hargs
              (fun z hz => ih z hz fun v hv => hknown v (.arg hz hv)) hnames.1 hnames.2
          · exact walksAlong_functors hm hrun hname hargs hnames
        | _ => cases hcompound
      · exact walksAlong_leaf hm hrun Kind.noConfusion (.inl hcompound)

end PlainRun

/-! ## The two runs as a whole -/

/-- Both terms have values, and the values are the same once the variables of the first one are
renamed. Floats are compared by their bits. -/
def SameValue (ρ : Nat → Nat) (t : Term) (supply : Supply) (s : Store) (t' : Term)
    (supply' : Supply) (s' : Store) : Prop :=
  ∃ x x' supply₁ supply₂ s₁ s₂,
    Settles (fun fuel => value fuel t supply s) ((x, supply₁), s₁) ∧
      Settles (fun fuel => value fuel t' supply' s') ((x', supply₂), s₂) ∧
        x.under .exact (fun v => .var (ρ v)) = x'.under .exact .var

/-- Terms that denote the same have the same value. -/
theorem Twins.Alike.sameValue {d : Twins} {n : Nat} {t t' : Term} (h : d.Alike)
    (hleft : d.left.cells.Every (Term.Dated n)) (hright : d.right.cells.Every (Term.Dated n))
    (ht : d.left.Holds n t) (ht' : d.right.Holds n t') (hsame : d.Same t t') :
    SameValue d.ρ t ⟨n⟩ d.left t' ⟨n⟩ d.right := by
  obtain ⟨τ, hτ⟩ := h.leftProper.acyclic.exists_resolves Reading.exact id
  have htrue : ∀ u : Term, u.Every fun _ => True := fun u _ _ => trivial
  obtain ⟨x, supply₁, s₁, hx, -, -, hvx⟩ :=
    value_settles (p := fun _ => True) (fun _ _ _ _ => trivial)
      ⟨h.leftProper, hτ, hleft, fun _ u _ => htrue u⟩ ht.below ht.older (htrue t) (Nat.le_refl n)
  obtain ⟨x', supply₂, s₂, hx', -, -, hvx'⟩ :=
    value_settles (p := fun _ => True) (fun _ _ _ _ => trivial)
      ⟨h.rightProper, h.rightResolves.bare, hright, fun _ u _ => htrue u⟩ ht'.below ht'.older
      (htrue t') (Nat.le_refl n)
  refine ⟨x, x', supply₁, supply₂, s₁, s₂, hx, hx', ?_⟩
  calc x.under .exact (fun v => .var (d.ρ v))
    _ = (x.under .exact .var).rename d.ρ := by rw [Term.rename_under]; rfl
    _ = t.under .exact fun v => (τ v).rename d.ρ := by rw [hvx.tree, Term.rename_under]
    -- both are the resolved terms, up to the names of the unbound variables
    _ = t.under .exact fun v => (d.σ v).bare := Term.under_congr fun v hv =>
      (hτ.rename d.ρ).unique h.leftProper h.leftResolves.bare (ht.below.lt hv)
    _ = (t.under .marked d.σ).bare := Term.bare_under.symm
    _ = (t'.under .marked d.τ).bare := congrArg Tree.bare hsame
    _ = x'.under .exact .var := by rw [hvx'.tree]; exact Term.bare_under

/-- The two runs start from one store, to which the plain run has added the copies of the source
variables. -/
theorem tracks_start {s : Store} {n : Nat} {i : Instance} {τ : Nat → Tree Nat}
    (hs : s.cells.Proper) (hold : s.cells.Every (Term.Dated n))
    (henters : Instance.Enters { store := s, memo := {} } i)
    (hτ : i.store.cells.Resolves .marked id τ) :
    Twins.Tracks i.memo.image (fun v => (i.memo.find? v).isSome) s.cells.size n {}
      { left := s, right := i.store, ρ := id, σ := τ, τ } where
  alike :=
    { leftProper := hs
      rightProper := henters.extended.proper hs
      leftResolves := ⟨henters.extended.solves.mp hτ.solves, fun v hv =>
        hτ.unbound v (henters.extended.unbound hv)⟩
      rightResolves := hτ
      injective := fun _ _ _ _ h => h }
  plainly :=
    { var := fun v hv => by
        obtain ⟨t, ht⟩ := Option.isSome_iff_exists.mp hv
        -- an entry of a memo that was empty is a new cell
        obtain ⟨x, rfl, hle, hlt⟩ := henters.fresh v t rfl ht
        exact ⟨x, Memo.image_of_find? ht, hle, hlt⟩
      inj := fun u v hu hv huv => by
        obtain ⟨t, ht⟩ := Option.isSome_iff_exists.mp hu
        obtain ⟨t', ht'⟩ := Option.isSome_iff_exists.mp hv
        rw [Memo.image_of_find? ht, Memo.image_of_find? ht'] at huv
        exact henters.inj u v t rfl rfl ht (huv ▸ ht') }
  leftOlder := hold
  rightOlder := henters.extended.every hold
  seen _ _ hv := nomatch hv
  unseen v x hv _ hx := by
    obtain ⟨t, ht⟩ := Option.isSome_iff_exists.mp hv
    obtain ⟨y, rfl, hle, hlt⟩ := henters.fresh v t rfl ht
    cases (Memo.image_of_find? ht).symm.trans hx
    exact ⟨henters.extended.new _ hle hlt, fun w hw => Nat.ne_of_lt (Nat.lt_of_lt_of_le hw hle)⟩
  base_le := Nat.le_refl _
  old _ _ := rfl
  new _ hle hlt := absurd hlt (Nat.not_lt.mpr hle)

/-- At the end of both runs, the renaming leads from the new variables of the fused run to those of
the plain one, and under it the old variables and the two copies have the same values. -/
theorem Twins.Tracks.exists_renaming {image : Nat → Term} {known : Nat → Prop} {base n : Nat}
    {memo : Memo} {d : Twins} {t c : Term} (h : d.Tracks image known base n memo)
    (hbase : base ≤ d.right.cells.size) (hsames : ∀ v < base, d.Same (.var v) (.var v))
    (ht : d.left.Holds n t) (hc : d.right.Holds n c) (hsame : d.Same t c) :
    ∃ ρ : Nat → Nat, Set.InjOn ρ {v | v < d.left.cells.size} ∧ (∀ v < base, ρ v = v) ∧
      (∀ v, base ≤ v → v < d.left.cells.size → base ≤ ρ v ∧ ρ v < d.right.cells.size) ∧
      (∀ v < base, SameValue ρ (.var v) ⟨n⟩ d.left (.var v) ⟨n⟩ d.right) ∧
      SameValue ρ t ⟨n⟩ d.left c ⟨n⟩ d.right := by
  refine ⟨d.ρ, fun u hu v hv => h.alike.injective u hu v hv, h.old, h.new, fun v hv => ?_, ?_⟩
  · have hleft : v < d.left.cells.size := Nat.lt_of_lt_of_le hv h.base_le
    have hright : v < d.right.cells.size := Nat.lt_of_lt_of_le hv hbase
    exact h.alike.sameValue h.leftOlder h.rightOlder
      ⟨Term.below_var.mpr hleft, .of_leaf trivial rfl⟩
      ⟨Term.below_var.mpr hright, .of_leaf trivial rfl⟩ (hsames v hv)
  · exact h.alike.sameValue h.leftOlder h.rightOlder ht hc hsame

/-- **The fused walk agrees with the plain run.** The source is copied, and the copy is unified with
the target with the occurs check, which ends. If the check does not fail, the fused walk ends as
well. It succeeds if and only if the plain run does, and fails with the same error otherwise. If it
succeeds, there is a renaming of its new variables into those of the copy under which all old
variables have the same values in both stores, and what the walk returns has the value of the
copy. -/
theorem copyAndUnify_agrees (source : Term) (supply : Supply) {s : Store} {target : Term}
    (hs : s.cells.Proper) (hold : s.cells.Every (Term.Dated supply.next))
    (htarget : s.Holds supply.next target) :
    ∃ c supply' i result s',
      copy source supply { store := s, memo := {} } = .ok ((c, supply'), i) ∧
        Settles (fun fuel => unify fuel true c target i.store) (result, s') ∧
        (result ≠ .error .occursCheck → ∃ outcome supply'' i',
          Settles (fun fuel => copyAndUnify fuel source target supply { store := s, memo := {} })
              ((outcome, supply''), i') ∧
            (outcome.map fun _ => ()) = result ∧
            ∀ t, outcome = .ok t → ∃ ρ : Nat → Nat,
              Set.InjOn ρ {v | v < i'.store.cells.size} ∧ (∀ v < s.cells.size, ρ v = v) ∧
                (∀ v, s.cells.size ≤ v → v < i'.store.cells.size →
                  s.cells.size ≤ ρ v ∧ ρ v < i.store.cells.size) ∧
                (∀ v < s.cells.size, SameValue ρ (.var v) supply'' i'.store (.var v) supply' s') ∧
                SameValue ρ t supply'' i'.store c supply' s') := by
  obtain ⟨i, hcopy, henters, hseen⟩ := copy_run source supply { store := s, memo := {} }
  have hproper : i.store.cells.Proper := henters.extended.proper hs
  obtain ⟨τ, hτ⟩ := hproper.acyclic.exists_resolves Reading.marked id
  have hstart := tracks_start hs hold henters hτ
  have hknown : ∀ v, Term.Within (.var v) source → (i.memo.find? v).isSome :=
    fun v hv => (hseen v).mpr (.inr hv)
  let c := (source.copied i.memo.image supply.next).1
  have hc : i.store.Holds (source.copied i.memo.image supply.next).2 c :=
    ⟨Term.copied_below fun v hv => (hstart.holds (hknown v hv)).below,
      Term.copied_older fun v hv => (hstart.holds (hknown v hv)).older⟩
  have htarget' : i.store.Holds supply.next target :=
    htarget.mono henters.extended.le (Nat.le_refl _)
  have hpairs : PairsBelow i.store.cells.size [(c, target)] :=
    fun q hq => List.mem_singleton.mp hq ▸ ⟨hc.below, htarget'.below⟩
  obtain ⟨result, s', hrun, -⟩ := unifyPairs_settles hproper hpairs (.inl rfl)
  refine ⟨c, _, i, result, s', hcopy, hrun, fun hresult => ?_⟩
  let P : PlainRun :=
    { image := i.memo.image, known := fun v => (i.memo.find? v).isSome, base := s.cells.size,
      result, final := s' }
  rcases PlainRun.agrees (P := P) hresult source hknown hstart htarget htarget' rfl hrun with
    ⟨t, memo, d, hwalk, hreaches, ht, hsame⟩ | ⟨e, supply'', i', herror, hwalk⟩
  -- no pairs are left, so the plain run has ended in success
  · have hend : (result, s') = (.ok (), d.right) :=
      hreaches.endsFrom.unique (.of_forall fun fuel => by cases fuel <;> rfl)
    cases hend
    refine ⟨.ok t, _, _, hwalk.settles, rfl, fun t' ht' => ?_⟩
    cases ht'
    have hsize : d.right.cells.size = i.store.cells.size := hreaches.precedes.right
    rw [← hsize]
    exact hreaches.tracks.exists_renaming (hsize ▸ henters.extended.le)
      (fun v hv => hreaches.precedes.same _ _ (Term.below_var.mpr hv) rfl) ht
      (hc.mono (Nat.le_of_eq hsize.symm) (Nat.le_refl _)) hsame
  · exact ⟨.error e, supply'', i', hwalk.settles, herror.symm, fun t ht => nomatch ht⟩

/-- Both runs match `f(X0, g(X0))` with the goal `f(X2, X1)`, where `X2` is an alias of `X0`, and
what the fused walk returns has the value of the copy. The fused walk takes `X2` for the source
variable, the plain run binds a new variable to `X0`. -/
theorem copyAndUnify_agrees_aliased :
    let source : Term := .compound 0 ⟨"f", .interned 0⟩ (.var 0)
      [.compound 1 ⟨"g", .interned 1⟩ (.var 0) []]
    let target : Term := .compound 0 ⟨"f", .interned 0⟩ (.var 2) [.var 1]
    let s : Store := { cells := aliasedCells }
    ∃ c supply' i s' t supply'' i' ρ,
      copy source ⟨1⟩ { store := s, memo := {} } = .ok ((c, supply'), i) ∧
        Settles (fun fuel => unify fuel true c target i.store) (.ok (), s') ∧
        Settles (fun fuel => copyAndUnify fuel source target ⟨1⟩ { store := s, memo := {} })
          ((.ok t, supply''), i') ∧
        SameValue ρ t supply'' i'.store c supply' s' := by
  intro source target s
  have hs : Store.Sound (fun _ => target) 1 s := sound_aliasedCells _ _
  have htarget : s.Holds 1 target :=
    ⟨by simp [target, s, aliasedCells, Term.Bounded], by simp [target, Term.Dated]⟩
  obtain ⟨c, supply', i, result, s', hcopy, hunify, hagrees⟩ :=
    copyAndUnify_agrees source ⟨1⟩ hs.proper hs.older htarget
  have hplain : ∃ s₁, Settles (fun fuel => unify fuel true c target i.store) (.ok (), s₁) := by
    cases hcopy
    -- six rounds are enough for the copy to be unified with the goal
    exact ⟨_, .of_succ <| .of_succ <| .of_succ <| .of_succ <| .of_succ <| .of_succ <|
      .of_forall fun fuel => rfl⟩
  obtain ⟨s₁, hplain⟩ := hplain
  cases hunify.unique hplain
  obtain ⟨outcome, supply'', i', hfused, hok, hsame⟩ := hagrees (by simp)
  cases outcome with
  | error e => cases hok
  | ok t =>
    obtain ⟨ρ, -, -, -, -, hvalue⟩ := hsame t rfl
    exact ⟨c, supply', i, _, t, supply'', i', ρ, hcopy, hunify, hfused, hvalue⟩

end Horn
