import Horn.Proofs.FusedWalk
import Horn.Proofs.Growth
import Horn.Proofs.Operations
import Horn.Proofs.Unification

/-!
# What is known stays known

Any cell may be written, bound or not, and the engine writes cells to shorten chains, to unify, and
to make instances. All the same it never takes anything back: a bound variable stays bound, what
leads to a node or a leaf goes on leading there, and aliases stay together. This is so whatever
terms an operation is given and however it ends, as the variable that is bound is always the end of
a chain, and what it is bound to is an end as well or a new node.

- `Store.Adds`: what is known of a store stays known.
- `Store.Preserves`: all variables stand for what they stood for.
- `Store.Adds.bound_end`: a binding that adds something.
- `basicsAdd`: the basic programs only add.
- `Operation.program_adds`: operations only add, and those that read the store preserve it.
-/

namespace Horn

variable {s s' s₁ : Store} {t r : Term} {v w : Nat}

/-! ## Adding -/

namespace Store

instance : Store.Change Shortened where
  refl _ := .refl
  trans := Shortened.trans

/-- What is known of a store stays known: which variables are bound, which node or leaf a variable
leads to, and which variables lead to one variable. -/
structure Adds (s s' : Store) : Prop where
  bound : ∀ v t, s.cells.Bound v t → ∃ u, s'.cells.Bound v u
  value : ∀ v t, t.kind ≠ .var → s.cells.Leads v t → s'.cells.Leads v t
  together : ∀ v w x, s.cells.Leads v (.var x) → s.cells.Leads w (.var x) →
    ∃ t, s'.cells.Leads v t ∧ s'.cells.Leads w t

/-- All variables stand for what they stood for. -/
def Preserves (s s' : Store) : Prop := ∀ v t, s.cells.Leads v t → s'.cells.Leads v t

instance : Store.Change Preserves where
  refl _ _ _ h := h
  trans h h' v t hv := h' v t (h v t hv)

/-- Nothing is added if all variables stand for what they stood for. -/
theorem Adds.of_preserves (hbound : ∀ v t, s.cells.Bound v t → ∃ u, s'.cells.Bound v u)
    (h : s.Preserves s') : s.Adds s' where
  bound := hbound
  value v t _ hv := h v t hv
  together v w x hv hw := ⟨.var x, h v _ hv, h w _ hw⟩

instance : Store.Change Adds where
  refl _ := .of_preserves (fun _ t hv => ⟨t, hv⟩) fun _ _ h => h
  trans {s t u} h h' := by
    refine ⟨fun v r hv => ?_, fun v r hr hv => h'.value v r hr (h.value v r hr hv),
      fun v w x hv hw => ?_⟩
    · obtain ⟨r', hv'⟩ := h.bound v r hv
      exact h'.bound v r' hv'
    · obtain ⟨r, hvr, hwr⟩ := h.together v w x hv hw
      -- in between the two may still lead to a variable
      by_cases hkind : r.kind = .var
      · cases r with
        | var y => exact h'.together v w y hvr hwr
        | _ => cases hkind
      · exact ⟨r, h'.value v r hkind hvr, h'.value w r hkind hwr⟩

/-- Shortening chains keeps what every variable is dereferenced to. -/
theorem Shortened.preserves (h : s.Shortened s') : s.Preserves s' :=
  fun v t hv => (h.compressed.leads v t).mpr hv

theorem Shortened.adds (h : s.Shortened s') : s.Adds s' := by
  refine .of_preserves (fun v t hv => ?_) h.preserves
  refine (Cells.bound_or_unbound (h.compressed.size ▸ hv.lt)).resolve_right fun hfree => ?_
  exact hv.not_unbound (h.compressed.unbound.mp hfree)

/-- Allocating variables takes nothing away. -/
theorem Allocates.adds (h : s.Allocates s') : s.Adds s' :=
  .of_preserves (fun _ t hv => ⟨t, h.extended.bound.mpr hv⟩) fun _ _ hv => h.extended.leads hv

/-- An unbound variable is bound to an end. -/
theorem Adds.bound_end (hv : s.cells.Unbound v) (ht : s.cells.IsEnd t) (hne : t ≠ .var v) :
    s.Adds (s.bound v t) := by
  refine ⟨fun u r hu => ⟨r, ?_⟩, fun u r hr hu => ?_, fun u w x hu hw => ?_⟩
  · have huv : u ≠ v := by
      rintro rfl
      exact hu.not_unbound hv
    exact (Cells.bound_set hv.lt).mpr (by rwa [if_neg huv])
  · exact (hu.set hv ht hne).2 fun heq => hr (congrArg Term.kind heq)
  · by_cases hxv : x = v
    · subst hxv
      exact ⟨t, (hu.set hv ht hne).1 rfl, (hw.set hv ht hne).1 rfl⟩
    · have hx : Term.var x ≠ .var v := fun h => hxv (Term.var.inj h)
      exact ⟨.var x, (hu.set hv ht hne).2 hx, (hw.set hv ht hne).2 hx⟩

end Store

/-! ## The basic programs -/

theorem deref_shortened (t : Term) : Keeps Store.Shortened id (deref t) :=
  fun _ _ _ h => (root_of_deref h).2

theorem alloc_allocates : Keeps Store.Allocates id Store.alloc := by
  intro s v s' h
  cases h
  exact .alloc .refl

/-- What a binding that is checked or not leaves. -/
theorem adds_bindVar {fuel : Nat} {occursCheck : Bool} {result : Except UnifyError Unit}
    (hv : s.cells.Unbound v) (ht : s.cells.IsEnd t) (hne : t ≠ .var v)
    (h : bindVar fuel occursCheck v t s = .ok (result, s')) : s.Adds s' := by
  cases occursCheck with
  | false =>
    rw [bindVar_unchecked fuel hv] at h
    cases h
    exact .bound_end hv ht hne
  | true =>
    rcases Attempt.bind_eq_ok.mp h with ⟨found, s₁, hsearch, hbind⟩ | ⟨e, s₁, hsearch, heq⟩
    · obtain ⟨_, s₂, hrun, heq⟩ := Attempt.lift_eq_ok.mp hsearch
      cases heq
      have hshort : s.Shortened s₁ := keeps_searchVar deref_shortened v fuel [t] s _ s₁ hrun
      cases found with
      | true =>
        cases hbind
        exact hshort.adds
      | false =>
        have hv₁ : s₁.cells.Unbound v := hshort.compressed.unbound.mpr hv
        have ht₁ : s₁.cells.IsEnd t := fun w hw => hshort.compressed.unbound.mpr (ht w hw)
        have hrun : (liftM (Store.bind v t) : Attempt Unit) s₁ = .ok (result, s') := hbind
        rw [Attempt.lift_run (Store.bind_run t hv₁.lt)] at hrun
        cases hrun
        exact Store.Change.trans hshort.adds (.bound_end hv₁ ht₁ hne)
    · obtain ⟨_, _, -, heq'⟩ := Attempt.lift_eq_ok.mp hsearch
      cases heq'

/-- A step adds what it binds. -/
theorem adds_unifyStep (fuel : Nat) (occursCheck : Bool) (a b : Term) :
    Keeps Store.Adds id (unifyStep fuel occursCheck a b) := by
  intro s result s' h
  -- both terms are dereferenced, as otherwise the step would not end
  have hderef : ∃ ra rb s₁ s₂, deref a s = .ok (ra, s₁) ∧ deref b s₁ = .ok (rb, s₂) := by
    rcases Attempt.bind_eq_ok.mp h with ⟨ra, s₁, hra, hrest⟩ | ⟨e, s₁, hra, -⟩
    · obtain ⟨_, _, hra, heq⟩ := Attempt.lift_eq_ok.mp hra
      cases heq
      rcases Attempt.bind_eq_ok.mp hrest with ⟨rb, s₂, hrb, -⟩ | ⟨e, s₂, hrb, -⟩
      · obtain ⟨_, _, hrb, heq⟩ := Attempt.lift_eq_ok.mp hrb
        cases heq
        exact ⟨_, _, _, _, hra, hrb⟩
      · obtain ⟨_, _, -, heq⟩ := Attempt.lift_eq_ok.mp hrb
        cases heq
    · obtain ⟨_, _, -, heq⟩ := Attempt.lift_eq_ok.mp hra
      cases heq
  obtain ⟨ra, rb, s₁, s₂, hra, hrb⟩ := hderef
  rw [unifyStep_run hra hrb] at h
  obtain ⟨hroot_a, hshort_a⟩ := root_of_deref hra
  obtain ⟨hroot_b, hshort_b⟩ := root_of_deref hrb
  have hends : s₂.cells.IsEnd ra ∧ s₂.cells.IsEnd rb :=
    ⟨(hshort_b.compressed.root.mpr (hshort_a.compressed.root.mpr hroot_a)).isEnd,
      (hshort_b.compressed.root.mpr hroot_b).isEnd⟩
  refine Store.Change.trans (hshort_a.trans hshort_b).adds ?_
  cases hm : Move.ofRoots ra rb with
  | pairs more =>
    rw [hm] at h
    cases h
    exact Store.Change.refl _
  | fail e =>
    rw [hm] at h
    cases h
    exact Store.Change.refl _
  | bind v t =>
    obtain ⟨hcases, hne⟩ := (hm ▸ Move.made_ofRoots ra rb).bind_cases
    have hbind : s₂.cells.Unbound v ∧ s₂.cells.IsEnd t := by
      rcases hcases with ⟨hv, rfl⟩ | ⟨hv, rfl⟩
      · exact ⟨hends.1 v hv, hends.2⟩
      · exact ⟨hends.2 v hv, hends.1⟩
    rw [hm, Move.run] at h
    rcases Attempt.bind_eq_ok.mp h with ⟨_, s₃, hrun, hrest⟩ | ⟨e, s₃, hrun, hrest⟩ <;> cases hrest
    · exact adds_bindVar hbind.1 hbind.2 hne hrun
    · exact adds_bindVar hbind.1 hbind.2 hne hrun

/-- A goal that is no variable is only looked at. -/
theorem matchRoot_of_kind (source : Term) {root : Term} (hroot : root.kind ≠ .var) :
    ∃ out, ∀ supply i, matchRoot source root supply i = .ok ((out, supply), i) := by
  cases root with
  | var w => exact absurd rfl hroot
  | _ =>
    cases source <;> simp only [matchRoot] <;> split <;> exact ⟨_, fun _ _ => rfl⟩

/-- An unbound variable of the goal is bound to a copy, and otherwise nothing is bound. -/
theorem adds_matchRoot {source root : Term} {supply supply' : Supply} {i i' : Instance}
    {result : Except UnifyError Matched} (hsource : source.kind ≠ .var)
    (hroot : i.store.cells.IsEnd root)
    (h : matchRoot source root supply i = .ok ((result, supply'), i')) :
    i.store.Adds i'.store := by
  by_cases hkind : root.kind = .var
  · cases root with
    | var w =>
      obtain ⟨i₁, hcopy, henters, -⟩ := copy_run source supply i
      have hw : i₁.store.cells.Unbound w := henters.extended.unbound (hroot w rfl)
      have hcopied : ((source.copied i₁.memo.image supply.next).1).kind ≠ .var := by
        rw [Term.copied_kind hsource]
        exact hsource
      rw [matchRoot_var, Instantiation.build_bind hcopy,
        Instantiation.run_bind (onStore_run (Store.bind_run _ hw.lt))] at h
      cases h
      exact Store.Change.trans henters.allocates.adds (.bound_end hw (Cells.isEnd_of_kind hcopied)
        fun heq => hcopied (congrArg Term.kind heq))
    | _ => cases hkind
  · obtain ⟨out, hrun⟩ := matchRoot_of_kind source hkind
    rw [hrun] at h
    cases h
    exact Store.Change.refl _

theorem adds_matchStep (fuel : Nat) (source goal : Term) :
    BuildKeeps Store.Adds Instance.store (matchStep fuel source goal) := by
  by_cases hsource : source.kind = .var
  · cases source with
    | var v =>
      have hunify : ∀ t, Keeps Store.Adds id (unify fuel false t goal) := fun t =>
        keeps_unifyPairs (fun fuel => adds_unifyStep fuel false) fuel [(t, goal)]
      refine Instantiation.keeps_bind (Instantiation.keeps_liftRun keeps_get) fun i => ?_
      split
      · refine Instantiation.keeps_bind
          (Instantiation.keeps_liftRun (keeps_onStore (hunify _))) ?_
        rintro (e | u)
        · exact Instantiation.keeps_throw e
        · exact Instantiation.keeps_pure _
      · exact Instantiation.keeps_bind (Instantiation.keeps_liftRun (keeps_remember v goal))
          fun _ => Instantiation.keeps_pure _
    | _ => cases hsource
  · rintro supply i ⟨result, supply'⟩ i' h
    cases hderef : deref goal i.store with
    | error f =>
      rw [Walks.matchStep_error hsource fuel hderef] at h
      cases h
    | ok r =>
      obtain ⟨root, s₁⟩ := r
      obtain ⟨hroot, hshort⟩ := root_of_deref hderef
      rw [Walks.matchStep_run hsource fuel hderef] at h
      exact Store.Change.trans hshort.adds
        (adds_matchRoot (i := { i with store := s₁ }) hsource
          (hshort.compressed.root.mpr hroot).isEnd h)

/-- **The basic operations add to the store.** -/
theorem basicsAdd : BasicsKeep Store.Adds where
  deref t s r s' h := (deref_shortened t s r s' h).adds
  alloc s v s' h := (alloc_allocates s v s' h).adds
  unifyStep := adds_unifyStep
  matchStep := adds_matchStep

/-! ## Operations -/

namespace Operation

/-- Nothing is unified, and no cell is written from outside. -/
def Reads : Operation → Prop
  | deref .. | value .. | contains .. | compare .. | mayUnify .. | copy .. | newVar => True
  | _ => False

/-- Operations that only read leave everything dereferenced to what it was. -/
theorem preserves {fuel : Nat} {op : Operation} (hop : op.Reads) :
    Keeps Store.Preserves id (op.program fuel) := by
  have hderef : ∀ t, Keeps Store.Preserves id (Horn.deref t) := fun t s r s' h =>
    (deref_shortened t s r s' h).preserves
  have halloc : Keeps Store.Preserves id Store.alloc := fun s v s' h _ _ hv =>
    (alloc_allocates s v s' h).extended.leads hv
  cases op with
  | newVar => exact keeps_answer _ halloc
  | deref t => exact keeps_answer _ (hderef t)
  | value supply t => exact keeps_answer _ (keeps_value hderef fuel t supply)
  | contains v t => exact keeps_answer _ (keeps_searchVar hderef v fuel [t])
  | compare a b => exact keeps_answer _ (keeps_comparePairs hderef fuel [(a, b)])
  | copy supply memo t => exact keeps_answer _ (keeps_withMemo memo (keeps_copy halloc t) supply)
  | mayUnify c goal => exact keeps_answer _ (keeps_mayUnify hderef c goal)
  | _ => exact hop.elim

/-- **Operations only add information**, however they end: a bound variable stays bound, a variable
that is dereferenced to a node or a leaf is dereferenced to the very same one afterwards, and
variables that are dereferenced to one unbound variable are dereferenced to one term afterwards.
Operations that read the store leave all variables what they are dereferenced to. -/
theorem program_adds {fuel : Nat} {op : Operation} {answer : Answer} (hop : ¬op.Writes)
    (h : op.program fuel s = .ok (answer, s')) :
    (∀ v t, s.cells.Bound v t → ∃ u, s'.cells.Bound v u) ∧
      (∀ v t, t.kind ≠ .var → s.Derefs v t → s'.Derefs v t) ∧
      (∀ v w x, s.Derefs v (.var x) → s.Derefs w (.var x) → ∃ t, s'.Derefs v t ∧ s'.Derefs w t) ∧
      (op.Reads → ∀ v t, s.Derefs v t → s'.Derefs v t) := by
  simp only [Store.derefs_iff]
  have hadds : s.Adds s' := keeps basicsAdd fuel hop s answer s' h
  exact ⟨hadds.bound, hadds.value, hadds.together, fun hreads => preserves hreads s answer s' h⟩

/-- The source `f(X0, g(X0), 7)` is matched with the goal `f(X2, X1, 8)`, where `X2` is an alias of
`X0`. This fails, and what has been bound until then leaves `X0` and `X2` aliases. -/
theorem program_adds_failing :
    let source : Term := .compound 0 ⟨"f", .interned 0⟩ (.var 0)
      [.compound 1 ⟨"g", .interned 1⟩ (.var 0) [], .int 7]
    let goal : Term := .compound 2 ⟨"f", .interned 0⟩ (.var 2) [.var 1, .int 8]
    let op : Operation := .copyAndUnify ⟨3⟩ {} source goal
    ∃ memo supply s', op.program 10 { cells := aliasedCells } =
        .ok (.copied (.error .numberMismatch) memo supply, s') ∧
      s'.cells.Bound 1 (.compound 3 ⟨"g", .interned 1⟩ (.var 2) []) ∧
      (∃ u, s'.cells.Bound 2 u) ∧ ∃ t, s'.Derefs 0 t ∧ s'.Derefs 2 t := by
  intro source goal op
  let copied : Term := .compound 3 ⟨"g", .interned 1⟩ (.var 2) []
  let s' : Store :=
    { cells := #[none, some copied, some (.var 0)], journal := [.bind 1 copied] }
  have hrun : op.program 10 { cells := aliasedCells } =
      .ok (.copied (.error .numberMismatch) ⟨[(0, .var 2)]⟩ ⟨4⟩, s') := rfl
  have hop : ¬op.Writes := id
  obtain ⟨hbound, -, htogether, -⟩ := program_adds hop hrun
  exact ⟨_, _, s', hrun, rfl, hbound 2 (.var 0) rfl, htogether 0 2 0 ⟨_, rfl⟩ ⟨_, rfl⟩⟩

end Operation

end Horn
