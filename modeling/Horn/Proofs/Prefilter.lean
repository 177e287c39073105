import Horn.Proofs.Numbers
import Horn.Proofs.Renumbering
import Horn.Proofs.Safety

/-!
# The test by hashes

Before a clause is called, the hashes of the arguments of its head are compared with those of the
arguments of the goal. The test looks at the arguments as they are before anything is bound, and
each pair of them for itself. What it rejects does not unify nevertheless: it rejects only pairs of
terms that are no variables, such terms stay what they are whatever is bound meanwhile, and those
that unify have the same outermost symbol and so the same hash.

- `Clash`: two terms that are no variables and have different hashes.
- `Store.Clashes.grows`: what clashes goes on doing so.
- `Clause.mayUnify_sound`: a goal that is rejected unifies neither in a call nor with a copy of
  the head.
-/

namespace Horn

/-! ## Hashes -/

/-- The tag sets a bit. -/
theorem tagged_ne (value : Int64) {tag : Int64} (h : tag ≠ 0) :
    tagged value tag ≠ variableHash := by
  intro heq
  have hbits : (value <<< 3 ||| tag).toBitVec = 0#64 := congrArg Int64.toBitVec heq
  rw [Int64.toBitVec_or, BitVec.or_eq_zero_iff] at hbits
  exact h (Int64.toBitVec_inj.mp hbits.2)

namespace Binary64

variable {x y : Binary64}

theorem hashValue_of_magnitude (h : x.magnitude = 0) : x.hashValue = 0 := by
  have hsig : x.significand = 0 := by
    have hpow : 0 < 2 ^ (x.exponentField - 1) := Nat.two_pow_pos _
    exact (Nat.mul_eq_zero.mp h).resolve_right (Nat.ne_of_gt hpow)
  have hexp : x.exponentField = 0 := by
    unfold significand at hsig
    split at hsig <;> omega
  simp [hashValue, isFinite, normalSignificand, hsig, hexp]

/-- Numbers that are equal have equal hashes, the two zeros among them. -/
theorem hashValue_congr (h : x.eqv y = true) : x.hashValue = y.hashValue := by
  have hnan : x.isNaN = false ∧ y.isNaN = false := by
    simp only [eqv, Bool.and_eq_true, Bool.not_eq_true'] at h
    exact h.1
  have hsame := (eqv_iff hnan.1 hnan.2).mp h
  have hzero : ∀ z : Binary64, z.unsignedZero.hashValue = z.hashValue := by
    intro z
    unfold unsignedZero
    split
    · rename_i hz
      rw [hashValue_of_magnitude hz]
      rfl
    · rfl
  rw [← hzero x, hsame, hzero y]

end Binary64

namespace Term

variable {a b t : Term}

/-- Only variables have the hash of a variable. -/
theorem unifyHash_ne (h : t.kind ≠ .var) : t.unifyHash ≠ variableHash := by
  cases t with
  | var v => exact absurd rfl h
  | _ => exact tagged_ne _ (by decide)

/-- What has another hash than variables have is no variable. -/
theorem kind_ne_of_unifyHash (h : t.unifyHash ≠ variableHash) : t.kind ≠ .var := by
  cases t with
  | var v => exact absurd rfl h
  | _ => exact Kind.noConfusion

/-- Leaves that agree have equal hashes. -/
theorem unifyHash_of_leavesAgree (h : leavesAgree a b = true) : a.unifyHash = b.unifyHash := by
  cases a <;> cases b <;> simp only [leavesAgree, Bool.false_eq_true] at h
  case atom.atom a b =>
    have hname : a.name = b.name := by simpa [Atom.eqv] using h
    rw [unifyHash, unifyHash, hname]
  case int.int m n => rw [eq_of_beq h]
  case float.float x y => rw [unifyHash, unifyHash, Binary64.hashValue_congr h]
  case box.box x y => rw [unifyHash, unifyHash, eq_of_beq h]

/-- So have nodes with one functor and as many arguments. -/
theorem unifyHash_nodes {i j : Nat} {f g : Atom} {x y : Term} {xs ys : List Term}
    (hname : f.name = g.name) (hlength : xs.length = ys.length) :
    (compound i f x xs).unifyHash = (compound j g y ys).unifyHash := by
  rw [unifyHash, unifyHash, hname, hlength]

/-- A copy has the hash of its source. -/
theorem copied_unifyHash {m : Nat → Term} {n : Nat} (h : t.kind ≠ .var) :
    (t.copied m n).1.unifyHash = t.unifyHash := by
  cases t with
  | var v => exact absurd rfl h
  | compound i f x xs => exact unifyHash_nodes rfl (length_copiedAll xs _)
  | _ => rfl

end Term

/-! ## Terms that clash -/

/-- Two terms that are no variables and have different hashes. -/
structure Clash (a b : Term) : Prop where
  left : a.kind ≠ .var
  right : b.kind ≠ .var
  ne : a.unifyHash ≠ b.unifyHash

variable {a b : Term} {s s' : Store}

/-- Terms that the test takes for different clash. -/
theorem clash_of_not_compatible (h : compatible a.unifyHash b.unifyHash = false) : Clash a b := by
  simp only [compatible, Bool.or_eq_false_iff, beq_eq_false_iff_ne] at h
  exact ⟨Term.kind_ne_of_unifyHash h.1.1, Term.kind_ne_of_unifyHash h.1.2, h.2⟩

namespace Clash

/-- Terms that clash do not unify. -/
theorem ofRoots (h : Clash a b) : ∃ e, Move.ofRoots a b = .fail e := by
  have hmade := Move.made_ofRoots a b
  generalize Move.ofRoots a b = m at hmade ⊢
  cases hmade with
  | same v | left => exact absurd rfl h.left
  | right => exact absurd rfl h.right
  | shared hname hlength | descend _ hname hlength =>
    exact absurd (Term.unifyHash_nodes hname hlength) h.ne
  | leaves _ _ hagree => exact absurd (Term.unifyHash_of_leavesAgree hagree) h.ne
  | functors | mismatch => exact ⟨_, rfl⟩

/-- A copy clashes with what its source clashes with. -/
theorem copied {m : Nat → Term} {n : Nat} (h : Clash a b) : Clash (a.copied m n).1 b :=
  ⟨Term.copied_kind h.left ▸ h.left, h.right, Term.copied_unifyHash h.left ▸ h.ne⟩

/-- The fused walk finds out as well. -/
theorem matchRoot (h : Clash a b) : ∃ e, matchRoot a b = throw e := by
  by_cases hleaf : a.kind ≠ .compound ∨ b.kind ≠ .compound
  · rw [matchRoot_leaves h.left h.right hleaf]
    split
    · rename_i hagree
      exact absurd (Term.unifyHash_of_leavesAgree hagree) h.ne
    · exact ⟨_, rfl⟩
  · simp only [ne_eq, not_or, Decidable.not_not] at hleaf
    cases a with
    | compound i f x xs =>
      cases b with
      | compound j g y ys =>
        have hfunctors : (xs.length == ys.length && f.eqv g) = false := by
          by_contra heq
          simp only [Bool.not_eq_false, Bool.and_eq_true, beq_iff_eq, Atom.eqv] at heq
          exact h.ne (Term.unifyHash_nodes heq.2 heq.1)
        exact ⟨_, by rw [Horn.matchRoot, hfunctors]; rfl⟩
      | _ => cases hleaf.2
    | _ => cases hleaf.1

end Clash

/-- The roots of two terms clash. -/
def Store.Clashes (s : Store) (a b : Term) : Prop :=
  ∃ ra rb, s.cells.Root a ra ∧ s.cells.Root b rb ∧ Clash ra rb

/-- **What clashes goes on doing so**, whatever the engine does in the meantime. -/
theorem Store.Clashes.grows (h : s.Clashes a b) (hgrows : s.Grows s') : s'.Clashes a b := by
  obtain ⟨ra, rb, ha, hb, hclash⟩ := h
  exact ⟨ra, rb, hgrows.root ha hclash.left, hgrows.root hb hclash.right, hclash⟩

/-! ## Unifying -/

section Unifying

variable {occursCheck : Bool} {pairs more rest : List (Term × Term)}

/-- A step on terms that clash leaves no pairs. -/
theorem unifyStep_clashes (h : s.Clashes a b) (fuel : Nat) :
    unifyStep fuel occursCheck a b s ≠ .ok (.ok more, s') := by
  obtain ⟨ra, rb, ha, hb, hclash⟩ := h
  obtain ⟨s₁, s₂, hderef_a, hderef_b, -⟩ := deref_pair ha hb
  obtain ⟨e, hfail⟩ := hclash.ofRoots
  rw [unifyStep_run hderef_a hderef_b, hfail]
  exact nofun

/-- When the first pairs of a list have been worked off, the others are left to be unified. -/
theorem unifyPairs_rest : ∀ (fuel : Nat) {s : Store} {pairs : List (Term × Term)},
    s.cells.WellFormed → PairsBelow s.cells.size pairs →
      unifyPairs occursCheck fuel (pairs ++ rest) s = .ok (.ok (), s') →
        ∃ fuel' s₁, s.Grows s₁ ∧ unifyPairs occursCheck fuel' rest s₁ = .ok (.ok (), s')
  | fuel, s, [], _, _, h => ⟨fuel, s, .refl, h⟩
  | 0, s, _ :: _, _, _, h => nomatch h
  | fuel + 1, s, (a, b) :: pairs, hs, hpairs, h => by
    obtain ⟨⟨ha, hb⟩, hlater⟩ := List.forall_mem_cons.mp hpairs
    rw [List.cons_append, unifyPairs, Attempt.bind_eq_ok] at h
    rcases h with ⟨more, s₁, hstep, hrun⟩ | ⟨e, s₁, -, h⟩
    · obtain ⟨hgrows, hmore⟩ := Ends.of_eq_ok (unifyStep_grows fuel occursCheck hs ha hb) hstep
      have hall : PairsBelow s₁.cells.size (more ++ pairs) :=
        pairsEvery_append.mpr ⟨hmore more rfl, PairsBelow.mono hlater hgrows.size_le⟩
      rw [← List.append_assoc] at hrun
      obtain ⟨fuel', s₂, hgrows', hrest⟩ :=
        unifyPairs_rest fuel (hgrows.wellFormed hs) hall hrun
      exact ⟨fuel', s₂, hgrows.trans hgrows', hrest⟩
    · cases h

/-- A list of pairs in which one clashes is not unified: whatever is bound before its turn comes,
it clashes then. -/
theorem unifyPairs_clashes (hs : s.cells.WellFormed) (hpairs : PairsBelow s.cells.size pairs)
    (hq : (a, b) ∈ pairs) (h : s.Clashes a b) (fuel : Nat) :
    unifyPairs occursCheck fuel pairs s ≠ .ok (.ok (), s') := by
  obtain ⟨before, after, rfl⟩ := List.append_of_mem hq
  intro hrun
  have hbefore : PairsBelow s.cells.size before := (pairsEvery_append.mp hpairs).1
  obtain ⟨fuel', s₁, hgrows, hrest⟩ := unifyPairs_rest fuel hs hbefore hrun
  cases fuel' with
  | zero => cases hrest
  | succ fuel' =>
    rcases Attempt.bind_eq_ok.mp hrest with ⟨more, s₂, hstep, -⟩ | ⟨e, s₂, -, h⟩
    · exact unifyStep_clashes (h.grows hgrows) fuel' hstep
    · cases h

/-- Nodes of which two arguments beside each other clash are not unified, unless they are one
node. -/
theorem unify_clashes {i j : Nat} {f g : Atom} {x y t u : Term} {xs ys : List Term}
    (hs : s.cells.WellFormed) (ha : a.Below s.cells.size) (hb : b.Below s.cells.size)
    (hra : s.cells.Root a (.compound i f x xs)) (hrb : s.cells.Root b (.compound j g y ys))
    (hij : i ≠ j) (hq : (t, u) ∈ (x :: xs).zip (y :: ys)) (h : s.Clashes t u) (fuel : Nat) :
    unify fuel occursCheck a b s ≠ .ok (.ok (), s') := by
  intro hrun
  obtain ⟨_, s₁, hderef_a, hderef_b, hshort⟩ := deref_pair hra hrb
  cases fuel with
  | zero => cases hrun
  | succ fuel =>
    rw [unify, unifyPairs, Attempt.bind_eq_ok, unifyStep_run hderef_a hderef_b] at hrun
    rcases hrun with ⟨more, s₂, hmove, hrun⟩ | ⟨e, s₂, -, h⟩
    · -- with one functor the pair that clashes is among the next ones, else unification fails here
      by_cases hsame : xs.length = ys.length ∧ f.name = g.name
      · rw [Move.ofRoots_nodes hij hsame.2 hsame.1] at hmove
        cases hmove
        have hgrows := hshort.grows
        have hbelow : PairsBelow s₁.cells.size ((x :: xs).zip (y :: ys)) :=
          PairsBelow.mono (pairsEvery_arguments (hra.every hs.closed ha) (hrb.every hs.closed hb))
            hgrows.size_le
        rw [List.append_nil] at hrun
        exact unifyPairs_clashes (hgrows.wellFormed hs) hbelow hq (h.grows hgrows) fuel hrun
      · rw [Move.ofRoots_functors hsame] at hmove
        cases hmove
    · cases h

end Unifying

/-! ## Calling -/

section Calling

variable {i i' : Instance} {supply supply' : Supply} {source goal root copied : Term}

/-- The fused walk fails on a source that clashes with the root of the goal. -/
theorem copyAndUnify_clash (hroot : i.store.cells.Root goal root) (h : Clash source root)
    (fuel : Nat) : copyAndUnify fuel source goal supply i ≠ .ok ((.ok copied, supply'), i') := by
  obtain ⟨s', hderef, -⟩ := deref_shortens hroot
  obtain ⟨e, hthrow⟩ := h.matchRoot
  intro hrun
  cases fuel with
  | zero => cases hrun
  | succ fuel =>
    have hstep : matchStep fuel source goal supply i =
        .ok ((.error e, supply), { i with store := s' }) := by
      rw [Walks.matchStep_run h.left fuel hderef, hthrow]
      rfl
    rw [copyAndUnify, matchIn, Instantiation.bind_throw hstep] at hrun
    cases hrun

/-- The sources and goals of a list among which there is a source that clashes with the root of its
goal. -/
def ClashAmong (cells : Cells) (pairs : List (Term × Term)) : Prop :=
  ∃ q ∈ pairs, ∃ root, cells.Root q.2 root ∧ Clash q.1 root

theorem ClashAmong.grows {pairs : List (Term × Term)} (h : ClashAmong s.cells pairs)
    (hgrows : s.Grows s') : ClashAmong s'.cells pairs := by
  obtain ⟨q, hq, root, hroot, hclash⟩ := h
  exact ⟨q, hq, root, hgrows.root hroot hclash.right, hclash⟩

namespace Clause

variable {c : Clause}

/-- Arguments are not matched if there is a clash among them. -/
theorem matchAll_clash (fuel : Nat) : ∀ {pairs : List (Term × Term)} {supply : Supply}
    {i : Instance}, i.WellFormed → (∀ q ∈ pairs, q.2.Below i.store.cells.size) →
      ClashAmong i.store.cells pairs → matchAll fuel pairs supply i ≠ .ok ((.ok (), supply'), i')
  | [], _, _, _, _, h => by
    obtain ⟨q, hq, -⟩ := h
    cases hq
  | (source, goal) :: rest, supply, i, hi, hpairs, h => by
    obtain ⟨hgoal, hlater⟩ := List.forall_mem_cons.mp hpairs
    intro hrun
    obtain ⟨_, supply₁, i₁, hdiscard, hrest⟩ := Instantiation.ok_of_bind hrun
    obtain ⟨copied, supply₁, i₁, hfirst, hpure⟩ := Instantiation.ok_of_bind hdiscard
    cases hpure
    obtain ⟨q, hq, root, hroot, hclash⟩ := h
    rcases List.mem_cons.mp hq with rfl | hq
    · exact copyAndUnify_clash hroot hclash fuel hfirst
    · -- the first pair leaves the clash as it is
      have hgrows : i.Grows i₁ :=
        (Ends.of_eq_ok (copyAndUnify_makes fuel source supply hi hgoal) hfirst).1
      have hclash' := ClashAmong.grows ⟨q, hq, root, hroot, hclash⟩ hgrows.store
      exact matchAll_clash fuel hgrows.wellFormed
        (fun q hq => hgrows.store.term_below (hlater q hq)) hclash' hrest

/-- No call succeeds with a goal of which an argument clashes with that of the head. -/
theorem call_clash {body : Option Term} (hs : s.cells.WellFormed)
    (hgoal : goal.Below s.cells.size) (hroot : s.cells.Root goal root)
    (h : ClashAmong s.cells (c.head.arguments.zip root.arguments)) (fuel : Nat) :
    c.call fuel goal supply s ≠ .ok ((.ok body, supply'), s') := by
  obtain ⟨s₁, hderef, hshort⟩ := deref_shortens hroot
  have hs₁ := hshort.grows.wellFormed hs
  have hargs : ∀ q ∈ c.head.arguments.zip root.arguments, q.2.Below s₁.cells.size := fun q hq =>
    hshort.grows.term_below ((hroot.every hs.closed hgoal).of_mem_zip hq)
  rw [call_run hderef]
  split
  · intro hrun
    obtain ⟨i', hinst⟩ := ok_of_withNewMemo hrun
    obtain ⟨_, _, _, hmatch, -⟩ := Instantiation.ok_of_bind hinst
    exact matchAll_clash fuel (.empty hs₁) hargs (h.grows hshort.grows) hmatch
  · exact nofun

end Clause

end Calling

/-! ## The test -/

/-- The copies of the terms of a list stand where their sources do. -/
theorem Term.mem_zip_copiedAll {m : Nat → Term} {t u : Term} : ∀ {ts us : List Term} (n : Nat),
    (t, u) ∈ ts.zip us → ∃ k, ((t.copied m k).1, u) ∈ (copiedAll m n ts).1.zip us
  | [], _, _, h => nomatch h
  | _ :: _, [], _, h => nomatch h
  | v :: ts, w :: us, n, h => by
    rw [List.zip_cons_cons] at h
    rw [copiedAll, List.zip_cons_cons]
    rcases List.mem_cons.mp h with heq | h
    · obtain ⟨rfl, rfl⟩ := Prod.mk.inj heq
      exact ⟨n, List.mem_cons_self⟩
    · obtain ⟨k, hk⟩ := mem_zip_copiedAll (v.copied m n).2 h
      exact ⟨k, List.mem_cons_of_mem _ hk⟩

/-- The copy of a node is a new node, and its arguments clash with what those of the node clash
with. -/
theorem copy_node {i i' : Instance} {supply supply' : Supply} {copied x : Term} {l : Nat} {f : Atom}
    {xs us : List Term} (hi : i.WellFormed)
    (hcopy : copy (.compound l f x xs) supply i = .ok ((copied, supply'), i')) :
    i.Grows i' ∧ copied.Below i'.store.cells.size ∧ ∃ k x' xs', copied = .compound k f x' xs' ∧
      supply.next ≤ k ∧ ∀ t u r, (t, u) ∈ (x :: xs).zip us → Clash t r →
        ∃ t', (t', u) ∈ (x' :: xs').zip us ∧ Clash t' r := by
  obtain ⟨i₁, hrun, -⟩ := copy_run (.compound l f x xs) supply i
  obtain ⟨_, _, i₂, hrun', hgrows, -, hbelow, -⟩ := copy_grows (.compound l f x xs) supply hi
  cases hrun'.symm.trans hcopy
  cases hrun.symm.trans hcopy
  refine ⟨hgrows, hbelow, _, _, _, rfl,
    (Term.le_copied x supply.next).trans (Term.le_copiedAll xs _), fun t u r hmem hclash => ?_⟩
  obtain ⟨n, hmem'⟩ := Term.mem_zip_copiedAll (m := i'.memo.image) supply.next hmem
  exact ⟨_, hmem', hclash.copied⟩

namespace Clause

variable {c : Clause} {goal root : Term}

/-- The goal is no match for the clause: neither does a call succeed, nor does a new copy of the
head unify with the goal, with the occurs check or without. Identities given out by the supply are
those of no nodes that there are. -/
structure NoMatch (c : Clause) (goal : Term) (s : Store) : Prop where
  call : ∀ fuel supply body supply' s', c.call fuel goal supply s ≠ .ok ((.ok body, supply'), s')
  unify : ∀ supply : Supply, s.cells.Every (Term.Dated supply.next) → goal.Older supply.next →
    ∀ copied supply' i', copy c.head supply { store := s, memo := {} } =
      .ok ((copied, supply'), i') → ∀ fuel occursCheck s',
        Horn.unify fuel occursCheck copied goal i'.store ≠ .ok (.ok (), s')

/-- Arguments that clash make no match. -/
theorem noMatch_of_clash (hs : s.cells.WellFormed) (hgoal : goal.Below s.cells.size)
    (hroot : s.cells.Root goal root)
    (h : ClashAmong s.cells (c.head.arguments.zip root.arguments)) : c.NoMatch goal s where
  call fuel supply body supply' s' := call_clash hs hgoal hroot h fuel
  unify supply hdated holder copied supply' i' hcopy fuel occursCheck s' := by
    obtain ⟨⟨source, arg⟩, hq, r, hr, hclash⟩ := h
    obtain ⟨hmem_head, hmem_root⟩ := List.of_mem_zip hq
    cases hhead : c.head with
    | compound l f x xs =>
      cases root with
      | compound j g y ys =>
        rw [hhead] at hcopy hq
        obtain ⟨hgrows, hbelow, k, x', xs', rfl, hnew, hargs⟩ :=
          copy_node (i := { store := s, memo := {} }) (.empty hs) hcopy
        obtain ⟨arg', hq', hclash'⟩ := hargs source arg r hq hclash
        have hclashes : i'.store.Clashes arg' arg :=
          ⟨arg', r, (Cells.root_of_kind hclash'.left).mpr rfl, hgrows.store.root hr hclash.right,
            hclash'⟩
        -- the node of the copy is newer than that of the goal
        have hold : j < supply.next := (hroot.every hdated holder).here
        have hkj : k ≠ j := Nat.ne_of_gt (Nat.lt_of_lt_of_le hold hnew)
        exact unify_clashes hgrows.wellFormed.cells hbelow (hgrows.store.term_below hgoal) rfl
          (hgrows.store.root hroot Kind.noConfusion) hkj hq' hclashes fuel
      | _ => cases hmem_root
    | _ =>
      rw [hhead] at hmem_head
      cases hmem_head

/-- **When the hashes exclude a goal** there is a clash among the arguments. -/
theorem hashesAllow_false : ∀ {s : Store} {pairs : List (Term × Term)}, s.cells.WellFormed →
    (∀ q ∈ pairs, q.2.Below s.cells.size) →
      hashesAllow (pairs.map fun q => (q.1.unifyHash, q.2)) s = .ok (false, s') →
        ClashAmong s.cells pairs
  | s, [], _, _, h => nomatch h
  | s, (source, arg) :: rest, hs, hpairs, h => by
    obtain ⟨harg, hlater⟩ := List.forall_mem_cons.mp hpairs
    obtain ⟨r, s₁, hrun, hr, hshort, hs₁, -⟩ := hs.deref harg
    rw [List.map_cons, hashesAllow, Run.bind_ok hrun] at h
    split at h
    · obtain ⟨q, hq, root, hroot, hclash⟩ :=
        hashesAllow_false hs₁ (fun q hq => hshort.grows.term_below (hlater q hq)) h
      exact ⟨q, List.mem_cons_of_mem _ hq, root, hshort.compressed.root.mp hroot, hclash⟩
    · rename_i hcompatible
      exact ⟨_, List.mem_cons_self, r, hr, clash_of_not_compatible (by simpa using hcompatible)⟩

/-- **The test is sound.** In a well-formed store it ends, with chains shortened but no term leading
elsewhere than before, and if it rejects a goal, then the goal is no match for the clause, whether
it is tried on the store before the test or on the one after it. Floats that are equal have equal
hashes, and no term but a variable has the hash of a variable. -/
theorem mayUnify_sound :
    (∀ x y : Binary64, x.eqv y = true → (Term.float x).unifyHash = (Term.float y).unifyHash) ∧
    (∀ t : Term, t.kind ≠ .var → t.unifyHash ≠ variableHash) ∧
    ∀ {head : Term} {body : Option Term} {supply supply' : Supply} {c : Clause} {s : Store}
      {goal : Term}, make head body supply = .ok (.ok c, supply') → s.cells.WellFormed →
      goal.Below s.cells.size → ∃ b s', c.mayUnify goal s = .ok (b, s') ∧
        (∀ t : Term, t.Below s.cells.size → s'.cells.resolve t = s.cells.resolve t) ∧
        (b = false → c.NoMatch goal s ∧ c.NoMatch goal s') := by
  refine ⟨fun x y h => ?_, fun t => Term.unifyHash_ne, ?_⟩
  · rw [Term.unifyHash, Term.unifyHash, Binary64.hashValue_congr h]
  intro head body supply supply' c s goal hmake hs hgoal
  obtain ⟨b, s', hrun, hshort⟩ := c.mayUnify_shortens hs hgoal
  have hcomp := hshort.compressed
  refine ⟨b, s', hrun, fun t ht => ?_, ?_⟩
  · obtain ⟨r, hr, -⟩ := hs.root ht
    rw [hr.resolve, (hcomp.root.mpr hr).resolve]
  -- the test says no: two hashes differ, so two arguments clash
  rintro rfl
  obtain ⟨root, s₁, hderef, hroot, hshort₁, hs₁, hbelow⟩ := hs.deref hgoal
  have hclash : ClashAmong s.cells (c.head.arguments.zip root.arguments) := by
    rw [mayUnify, Run.bind_ok hderef, (made_of_make hmake).argHashes, List.zip_map_left] at hrun
    obtain ⟨q, hq, r, hr, hclash⟩ :=
      hashesAllow_false hs₁ (fun q hq => hbelow.of_mem_zip hq) hrun
    exact ⟨q, hq, r, hshort₁.compressed.root.mp hr, hclash⟩
  have hgrows := hshort.grows
  exact ⟨noMatch_of_clash hs hgoal hroot hclash, noMatch_of_clash (hgrows.wellFormed hs)
    (hgrows.term_below hgoal) (hcomp.root.mpr hroot) (hclash.grows hgrows)⟩

/-- The fact `p(X, 0.0, 1)` is no match for the goal `p(X2, -0.0, 2)`, where `X2` is an alias: the
zeros do not tell them apart, but the integers do. -/
theorem mayUnify_sound_zeros :
    let head : Term := .compound 0 ⟨"p", .interned 0⟩ (.var 0) [.float ⟨0⟩, .int 1]
    let goal : Term := .compound 1 ⟨"p", .interned 0⟩ (.var 2) [.float ⟨0x8000000000000000⟩, .int 2]
    let s : Store := { cells := aliasedCells }
    ∃ c s', (∃ supply, make head none ⟨2⟩ = .ok (.ok c, supply)) ∧
      c.mayUnify goal s = .ok (false, s') ∧ c.NoMatch goal s ∧ c.NoMatch goal s' := by
  intro head goal s
  let c : Clause := {
    head
    body := none
    varCount := 1
    signature := ⟨⟨"p", .interned 0⟩, 3⟩
    argHashes := head.arguments.map Term.unifyHash
    hasCut := false }
  have hmake : make head none ⟨2⟩ = .ok (.ok c, ⟨2⟩) := rfl
  have hs : s.cells.WellFormed := (sound_aliasedCells (fun _ => goal) 0).proper.wellFormed
  have hgoal : goal.Below s.cells.size := by
    simp [goal, s, aliasedCells, Term.Bounded]
  obtain ⟨b, s', hrun, -, hnone⟩ := mayUnify_sound.2.2 hmake hs hgoal
  obtain ⟨s₁, hfalse⟩ : ∃ s₁, c.mayUnify goal s = .ok (false, s₁) := ⟨_, rfl⟩
  cases hrun.symm.trans hfalse
  obtain ⟨hbefore, hafter⟩ := hnone rfl
  exact ⟨c, s', ⟨_, hmake⟩, hrun, hbefore, hafter⟩

end Clause

end Horn
