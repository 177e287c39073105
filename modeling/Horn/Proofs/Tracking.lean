import Horn.Proofs.Copies
import Horn.Proofs.Twins

/-!
# The invariant of the fused run and the plain one

A source can be copied first and the copy be unified with the goal, or both can be done in one walk.
The plain way allocates a variable for each source variable, where the fused walk lets the variable
stand for a part of the goal or allocates one later. So the stores of the two runs differ, and
nevertheless resolve alike: what a source variable stands for in the memo of the fused walk denotes
the same as its copy in the plain run, and the copy of a source variable that the fused walk has not
seen is unbound and nobody's name.

- `Twins.Tracks`: the invariant.
- `Tracks.follows`, `Tracks.first`, `Tracks.bound`, `Tracks.entered`: what it is kept by.
- `Tracks.exists_copiesAlike`: a source that the fused walk copies after all.
-/

namespace Horn

/-- The term is over the store, and its nodes have identities below `n`. -/
structure Store.Holds (s : Store) (n : Nat) (t : Term) : Prop where
  below : t.Below s.cells.size
  older : t.Older n

theorem Store.Holds.mono {s s' : Store} {n n' : Nat} {t : Term} (h : s.Holds n t)
    (hsize : s.cells.size ≤ s'.cells.size) (hle : n ≤ n') : s'.Holds n' t :=
  ⟨h.below.mono hsize, h.older.mono hle⟩

theorem Store.Holds.of_leaf {s : Store} {n : Nat} {t : Term} (h : t.kind ≠ .var)
    (h' : t.kind ≠ .compound) : s.Holds n t := by
  have hargs : t.arguments = [] := by
    cases t <;> first | rfl | exact absurd rfl h'
  exact ⟨.of_leaf (by cases t <;> trivial) hargs, .of_leaf (by cases t <;> trivial) hargs⟩

theorem Cells.older_mono {cells : Cells} {n n' : Nat} (h : cells.Every (Term.Dated n))
    (hle : n ≤ n') : cells.Every (Term.Dated n') := fun v t hv => Term.Older.mono (h v t hv) hle

namespace Twins

/-- The copies of the source variables in the plain run are variables of their own, from `base`
on. -/
structure Plainly (m : Nat → Term) (known : Nat → Prop) (base size : Nat) : Prop where
  var : ∀ v, known v → ∃ x, m v = .var x ∧ base ≤ x ∧ x < size
  inj : ∀ u v, known u → known v → m u = m v → u = v

variable {m : Nat → Term} {known : Nat → Prop} {base n n' v w x : Nat} {memo : Memo}
  {d d' d'' : Twins} {t t' : Term} {s₁ s₂ : Store}

/-- **The invariant of the two runs.** Here `m` gives the copies of source variables in the plain
run, the memo what they stand for in the fused one, `base` is the number of variables before, and
all nodes have identities below `n`. -/
structure Tracks (m : Nat → Term) (known : Nat → Prop) (base n : Nat) (memo : Memo) (d : Twins) :
    Prop where
  alike : d.Alike
  plainly : Plainly m known base d.right.cells.size
  leftOlder : d.left.cells.Every (Term.Dated n)
  rightOlder : d.right.cells.Every (Term.Dated n)
  seen : ∀ v t, memo.find? v = some t → d.left.Holds n t ∧ d.Same t (m v)
  unseen : ∀ v x, known v → memo.find? v = none → m v = .var x →
    d.right.cells.Unbound x ∧ ∀ w < d.left.cells.size, d.ρ w ≠ x
  base_le : base ≤ d.left.cells.size
  old : ∀ w < base, d.ρ w = w
  new : ∀ w, base ≤ w → w < d.left.cells.size → base ≤ d.ρ w ∧ d.ρ w < d.right.cells.size

/-- From one state of the two runs to a later one. -/
structure Precedes (d d' : Twins) : Prop where
  left : d.left.cells.size ≤ d'.left.cells.size
  right : d'.right.cells.size = d.right.cells.size
  same : ∀ a a', a.Below d.left.cells.size → d.Same a a' → d'.Same a a'

namespace Precedes

theorem refl (d : Twins) : d.Precedes d := ⟨Nat.le_refl _, rfl, fun _ _ _ h => h⟩

theorem trans (h : d.Precedes d') (h' : d'.Precedes d'') : d.Precedes d'' where
  left := Nat.le_trans h.left h'.left
  right := h'.right.trans h.right
  same a a' ha hsame := h'.same a a' (ha.mono h.left) (h.same a a' ha hsame)

/-- Terms of a list that denote the same go on doing so. -/
theorem sameAll (h : d.Precedes d') {ts ts' : List Term}
    (hts : ∀ t ∈ ts, t.Below d.left.cells.size) (hsame : List.Forall₂ d.Same ts ts') :
    List.Forall₂ d'.Same ts ts' := by
  induction hsame with
  | nil => exact .nil
  | cons hhead _ ih =>
    exact .cons (h.same _ _ (hts _ List.mem_cons_self) hhead)
      (ih fun t ht => hts t (List.mem_cons_of_mem _ ht))

/-- What a run leads to is preceded by where it began. -/
theorem of_follows {ps qs : List (Term × Term)} (h : d.Follows ps qs d') : d.Precedes d' :=
  ⟨Nat.le_of_eq h.leftSize.symm, h.rightSize, fun a a' _ hsame => h.same a a' hsame⟩

/-- Shortening chains on both sides. -/
theorem compressed (hl : d.left.cells.Compressed s₁.cells)
    (hr : d.right.cells.Compressed s₂.cells) :
    d.Precedes { d with left := s₁, right := s₂ } :=
  ⟨Nat.le_of_eq hl.size.symm, hr.size, fun _ _ _ h => h⟩

theorem extended {ρ : Nat → Nat} (h : d.left.cells.Extended s₁.cells) :
    d.Precedes (d.extended s₁ ρ) :=
  ⟨h.le, rfl, fun _ _ ha hsame => (under_extended ha).trans hsame⟩

theorem bound : d.Precedes (d.bound v t t') :=
  ⟨Nat.le_of_eq Store.size_bound.symm, Store.size_bound, fun _ _ _ h => h.subst _⟩

theorem aliased : d.Precedes (d.aliased x t) :=
  ⟨Nat.le_refl _, Store.size_bound, fun _ _ _ h => h.subst _⟩

end Precedes

namespace Tracks

/-- More identities are given out. -/
theorem later (h : d.Tracks m known base n memo) (hle : n ≤ n') :
    d.Tracks m known base n' memo :=
  { h with
    leftOlder := Cells.older_mono h.leftOlder hle
    rightOlder := Cells.older_mono h.rightOlder hle
    seen := fun v t hv => ⟨(h.seen v t hv).1.mono (Nat.le_refl _) hle, (h.seen v t hv).2⟩ }

/-- The copy of a source variable is over the store of the plain run. -/
theorem holds (h : d.Tracks m known base n memo) (hv : known v) : d.right.Holds n (m v) := by
  obtain ⟨x, hx, -, hlt⟩ := h.plainly.var v hv
  rw [hx]
  exact ⟨Term.below_var.mpr hlt, .of_leaf trivial rfl⟩

/-- Unification has gone on in both stores. -/
theorem follows {ps qs : List (Term × Term)} (h : d.Tracks m known base n memo)
    (hfollows : d.Follows ps qs d') (hps : PairsEvery (Term.Dated n) ps)
    (hqs : PairsEvery (Term.Dated n) qs) : d'.Tracks m known base n memo where
  alike := hfollows.alike
  plainly := hfollows.rightSize ▸ h.plainly
  leftOlder := hfollows.leftEvery _ h.leftOlder hps
  rightOlder := hfollows.rightEvery _ h.rightOlder hqs
  seen v t hv := ⟨(h.seen v t hv).1.mono (Nat.le_of_eq hfollows.leftSize.symm) (Nat.le_refl _),
    hfollows.same _ _ (h.seen v t hv).2⟩
  unseen v x hv hnone hx := by
    obtain ⟨hfree, hname⟩ := h.unseen v x hv hnone hx
    refine ⟨hfollows.unnamed x hfree hname, fun w hw => ?_⟩
    rw [hfollows.ρ]
    exact hname w (hfollows.leftSize ▸ hw)
  base_le := hfollows.leftSize ▸ h.base_le
  old := hfollows.ρ ▸ h.old
  new := hfollows.ρ ▸ hfollows.leftSize ▸ hfollows.rightSize ▸ h.new

/-- Chains have been shortened in both stores. -/
theorem compressed (h : d.Tracks m known base n memo) (hl : d.left.cells.Compressed s₁.cells)
    (hr : d.right.cells.Compressed s₂.cells) :
    Tracks m known base n memo { d with left := s₁, right := s₂ } where
  alike := h.alike.compressed hl hr
  plainly := hr.size.symm ▸ h.plainly
  leftOlder := hl.every h.leftOlder
  rightOlder := hr.every h.rightOlder
  seen v t hv :=
    ⟨(h.seen v t hv).1.mono (Nat.le_of_eq hl.size.symm) (Nat.le_refl _), (h.seen v t hv).2⟩
  unseen v x hv hnone hx := by
    obtain ⟨hfree, hname⟩ := h.unseen v x hv hnone hx
    exact ⟨hr.unbound.mpr hfree, fun w hw => hname w (hl.size ▸ hw)⟩
  base_le := hl.size.symm ▸ h.base_le
  old := h.old
  new w hle hlt := by
    show _ ∧ _ < s₂.cells.size
    rw [hr.size]
    exact h.new w hle (hl.size ▸ hlt)

/-- A source variable has been made to stand for the goal, in the plain run by a binding. -/
theorem first {goal : Term} (h : d.Tracks m known base n memo) (hv : known v)
    (hnone : memo.find? v = none) (hx : m v = .var x) (hgoal : d.left.Holds n goal)
    (ht : d.right.Holds n t) (hend : d.right.cells.IsEnd t) (hsame : d.Same goal t)
    (hocc : ¬(t.under .marked d.τ).Occurs x) :
    (d.aliased x t).Tracks m known base n (memo.insert v goal) := by
  obtain ⟨hfree, hname⟩ := h.unseen v x hv hnone hx
  have halike : (d.aliased x t).Alike := h.alike.aliased hfree hname hend ht.below hocc
  exact
    { alike := halike
      plainly := Store.size_bound (s := d.right) ▸ h.plainly
      leftOlder := h.leftOlder
      rightOlder := h.rightOlder.set ht.older
      seen := fun u s hu => by
        rcases (VarTable.find?_insert_iff hnone).mp hu with ⟨rfl, rfl⟩ | hu
        · have hbound : (d.right.bound x t).cells.Bound x t :=
            (Cells.bound_set hfree.lt).mpr (by rw [if_pos rfl])
          refine ⟨hgoal, (hsame.subst _).trans ?_⟩
          rw [hx]
          exact (halike.rightResolves.solves x t hbound).symm
        · exact ⟨(h.seen u s hu).1, (h.seen u s hu).2.subst _⟩
      -- other source variables have other copies, so these stay unbound
      unseen := fun u y hu hu_none hy => by
        have huv : u ≠ v := by
          rintro rfl
          rw [VarTable.find?_insert_self hnone] at hu_none
          cases hu_none
        rw [VarTable.find?_insert_of_ne hnone huv] at hu_none
        obtain ⟨hfree', hname'⟩ := h.unseen u y hu hu_none hy
        have hyx : y ≠ x := by
          rintro rfl
          exact huv (h.plainly.inj u v hu hv (hy.trans hx.symm))
        exact ⟨(Cells.unbound_set hfree.lt).mpr ⟨hyx, hfree'⟩, hname'⟩
      base_le := h.base_le
      old := h.old
      new := Store.size_bound (s := d.right) ▸ h.new }

/-- A variable of the goal has been bound, in both stores. -/
theorem bound (h : d.Tracks m known base n memo) (hv : d.left.cells.Unbound v)
    (hv' : d.right.cells.Unbound (d.ρ v)) (ht : d.left.Holds n t) (ht' : d.right.Holds n t')
    (hend : d.left.cells.IsEnd t) (hend' : d.right.cells.IsEnd t') (hsame : d.Same t t')
    (hocc : ¬(t'.under .marked d.τ).Occurs (d.ρ v)) :
    (d.bound v t t').Tracks m known base n memo where
  alike := h.alike.bound hv hv' hend hend' ht.below ht'.below hsame hocc
  plainly := Store.size_bound (s := d.right) ▸ h.plainly
  leftOlder := h.leftOlder.set ht.older
  rightOlder := h.rightOlder.set ht'.older
  seen u s hu := ⟨(h.seen u s hu).1.mono (Nat.le_of_eq Store.size_bound.symm) (Nat.le_refl _),
    (h.seen u s hu).2.subst _⟩
  unseen u x hu hnone hx := by
    obtain ⟨hfree, hname⟩ := h.unseen u x hu hnone hx
    refine ⟨(Cells.unbound_set hv'.lt).mpr ⟨(hname v hv.lt).symm, hfree⟩, fun w hw => ?_⟩
    exact hname w (Store.size_bound (s := d.left) ▸ hw)
  base_le := Store.size_bound (s := d.left) ▸ h.base_le
  old := h.old
  new := Store.size_bound (s := d.left) ▸ Store.size_bound (s := d.right) ▸ h.new

/-! ### New variables of the fused run -/

variable {i : Instance}

/-- A renaming that gives new variables of the fused run the names of the copies, in the plain run,
of the source variables that they were made for. -/
structure Names (m : Nat → Term) (known : Nat → Prop) (memo : Memo) (d : Twins) (i : Instance)
    (ρ : Nat → Nat) : Prop where
  old : ∀ w < d.left.cells.size, ρ w = d.ρ w
  copy : ∀ v w x, memo.find? v = none → i.memo.find? v = some (.var w) → m v = .var x → ρ w = x
  onto : ∀ w, d.left.cells.size ≤ w → w < i.store.cells.size →
    ∃ v, known v ∧ memo.find? v = none ∧ i.memo.find? v = some (.var w) ∧ m v = .var (ρ w)

/-- New variables of the left store get names on the right. -/
theorem exists_names (h : d.Tracks m known base n memo)
    (henters : Instance.Enters { store := d.left, memo } i)
    (hknown : ∀ v, memo.find? v = none → (i.memo.find? v).isSome → known v) :
    ∃ ρ, Names m known memo d i ρ := by
  classical
  let entered (w x : Nat) : Prop :=
    ∃ v, memo.find? v = none ∧ i.memo.find? v = some (.var w) ∧ m v = .var x
  have hunique : ∀ {w x y}, entered w x → entered w y → x = y := by
    rintro w x y ⟨u, hu, hut, hux⟩ ⟨v, hv, hvt, hvy⟩
    have huv : u = v := henters.inj u v _ hu hv hut hvt
    exact Term.var.inj (hux.symm.trans ((congrArg m huv).trans hvy))
  -- a new variable was made for one source variable only, and takes the name of its copy
  let ρ (w : Nat) : Nat := if hw : ∃ x, entered w x then hw.choose else d.ρ w
  have hnew : ∀ {w x}, entered w x → ρ w = x := by
    intro w x hx
    have hex : ∃ x, entered w x := ⟨x, hx⟩
    exact (dif_pos hex).trans (hunique hex.choose_spec hx)
  refine ⟨ρ, fun w hw => dif_neg ?_, fun v w x hv hvt hx => hnew ⟨v, hv, hvt, hx⟩, ?_⟩
  · rintro ⟨x, v, hv, hvt, -⟩
    obtain ⟨w', hw', hle, -⟩ := henters.fresh v _ hv hvt
    cases hw'
    exact absurd hw (Nat.not_lt.mpr hle)
  · intro w hle hlt
    obtain ⟨v, hv, hvt⟩ := henters.onto w hle hlt
    have hv_known : known v := hknown v hv (by rw [hvt]; rfl)
    obtain ⟨x, hx, -⟩ := h.plainly.var v hv_known
    exact ⟨v, hv_known, hv, hvt, hx.trans (congrArg Term.var (hnew ⟨v, hv, hvt, hx⟩).symm)⟩

/-- The names of new variables are not those of old ones. -/
theorem names_apart {ρ : Nat → Nat} (h : d.Tracks m known base n memo)
    (hρ : Names m known memo d i ρ) (hle : d.left.cells.size ≤ w) (hlt : w < i.store.cells.size) :
    ∀ u < d.left.cells.size, ρ u ≠ ρ w := by
  obtain ⟨v, hv, hnone, -, hx⟩ := hρ.onto w hle hlt
  intro u hu
  rw [hρ.old u hu]
  exact (h.unseen v _ hv hnone hx).2 u hu

/-- Different variables have different names. -/
theorem names_injective {ρ : Nat → Nat} (h : d.Tracks m known base n memo)
    (hρ : Names m known memo d i ρ) :
    ∀ u < i.store.cells.size, ∀ v < i.store.cells.size, ρ u = ρ v → u = v := by
  intro u hu v hv huv
  by_cases hu' : u < d.left.cells.size <;> by_cases hv' : v < d.left.cells.size
  · rw [hρ.old u hu', hρ.old v hv'] at huv
    exact h.alike.injective u hu' v hv' huv
  · exact absurd huv (h.names_apart hρ (Nat.le_of_not_lt hv') hv u hu')
  · exact absurd huv.symm (h.names_apart hρ (Nat.le_of_not_lt hu') hu v hv')
  · obtain ⟨u', hu_known, -, hut, hux⟩ := hρ.onto u (Nat.le_of_not_lt hu') hu
    obtain ⟨v', hv_known, -, hvt, hvx⟩ := hρ.onto v (Nat.le_of_not_lt hv') hv
    rw [huv, ← hvx] at hux
    cases h.plainly.inj u' v' hu_known hv_known hux
    exact Term.var.inj (Option.some.inj (hut.symm.trans hvt))

/-- The fused walk has made variables for source variables that it has seen for the first time. -/
theorem entered {ρ : Nat → Nat} (h : d.Tracks m known base n memo)
    (henters : Instance.Enters { store := d.left, memo } i)
    (hknown : ∀ v, memo.find? v = none → (i.memo.find? v).isSome → known v)
    (hρ : Names m known memo d i ρ) :
    (d.extended i.store ρ).Tracks m known base n i.memo where
  alike := h.alike.extended henters.extended hρ.old (h.names_injective hρ)
  plainly := h.plainly
  leftOlder := henters.extended.every h.leftOlder
  rightOlder := h.rightOlder
  seen v t hv := by
    cases hv' : memo.find? v with
    | some t' =>
      have htt' : t' = t := Option.some.inj ((henters.known v t' hv').symm.trans hv)
      obtain ⟨hholds, hsame⟩ := htt' ▸ h.seen v t' hv'
      exact ⟨hholds.mono henters.extended.le (Nat.le_refl _),
        (under_extended hholds.below).trans hsame⟩
    | none =>
      obtain ⟨w, rfl, hle, hlt⟩ := henters.fresh v t hv' hv
      have hv_known : known v := hknown v hv' (by rw [hv]; rfl)
      obtain ⟨x, hx, -⟩ := h.plainly.var v hv_known
      -- the new variable denotes its name, and so does the copy, which is unbound
      refine ⟨⟨Term.below_var.mpr hlt, .of_leaf trivial rfl⟩,
        (if_neg (Nat.not_lt.mpr hle)).trans ?_⟩
      rw [hρ.copy v w x hv' hv hx, hx]
      exact (h.alike.rightResolves.unbound x (h.unseen v x hv_known hv' hx).1).symm
  unseen v x hv hnone hx := by
    have hnone' : memo.find? v = none := by
      cases hv' : memo.find? v with
      | some t => cases (henters.known v t hv').symm.trans hnone
      | none => rfl
    obtain ⟨hx_free, hx_name⟩ := h.unseen v x hv hnone' hx
    refine ⟨hx_free, fun w hw heq => ?_⟩
    by_cases hw' : w < d.left.cells.size
    · exact hx_name w hw' ((hρ.old w hw').symm.trans heq)
    · obtain ⟨u, hu, -, hut, hux⟩ := hρ.onto w (Nat.le_of_not_lt hw') hw
      cases h.plainly.inj u v hu hv (hux.trans ((congrArg Term.var heq).trans hx.symm))
      cases hut.symm.trans hnone
  base_le := Nat.le_trans h.base_le henters.extended.le
  old w hw := (hρ.old w (Nat.lt_of_lt_of_le hw h.base_le)).trans (h.old w hw)
  new w hle hlt := by
    show base ≤ ρ w ∧ ρ w < _
    by_cases hw : w < d.left.cells.size
    · rw [hρ.old w hw]
      exact h.new w hle hw
    · obtain ⟨v, hv, -, -, hx⟩ := hρ.onto w (Nat.le_of_not_lt hw) hlt
      obtain ⟨x, hx', hbase, hsize⟩ := h.plainly.var v hv
      cases hx.symm.trans hx'
      exact ⟨hbase, hsize⟩

/-- The fused walk has copied a source, and `ρ` names the variables that it has made for that. The
copy denotes the same as the one in the plain run. -/
structure CopiesAlike (d : Twins) (m : Nat → Term) (known : Nat → Prop) (base n : Nat) (memo : Memo)
    (source : Term) (i : Instance) (ρ : Nat → Nat) (c : Term) : Prop where
  run : copy source ⟨n⟩ { store := d.left, memo } = .ok ((c, ⟨(source.copied m n).2⟩), i)
  extended : d.left.cells.Extended i.store.cells
  names : ∀ w < d.left.cells.size, ρ w = d.ρ w
  tracks : (d.extended i.store ρ).Tracks m known base (source.copied m n).2 i.memo
  left : i.store.Holds (source.copied m n).2 c
  right : d.right.Holds (source.copied m n).2 (source.copied m n).1
  same : (d.extended i.store ρ).Same c (source.copied m n).1
  kind : source.kind ≠ .var → c.kind = source.kind

/-- **A copy on the left is followed** by one on the right: they denote the same under the new
names. -/
theorem exists_copiesAlike (h : d.Tracks m known base n memo) (source : Term)
    (hknown : ∀ v, Term.Within (.var v) source → known v) :
    ∃ i ρ c, CopiesAlike d m known base n memo source i ρ c := by
  obtain ⟨i, hcopy, henters, hseen⟩ := copy_run source ⟨n⟩ { store := d.left, memo }
  have hnew : ∀ v, memo.find? v = none → (i.memo.find? v).isSome → known v := by
    intro v hnone hsome
    rcases (hseen v).mp hsome with hold | hv
    · exact absurd hold (by simp [hnone])
    · exact hknown v hv
  obtain ⟨ρ, hρ⟩ := h.exists_names henters hnew
  have h' := h.entered henters hnew hρ
  have himage : ∀ v, Term.Within (.var v) source → i.store.Holds n (i.memo.image v) ∧
      (d.extended i.store ρ).Same (i.memo.image v) (m v) := by
    intro v hv
    obtain ⟨t, ht⟩ := Option.isSome_iff_exists.mp ((hseen v).mpr (.inr hv))
    rw [Memo.image_of_find? ht]
    exact h'.seen v t ht
  -- copies of one source take equally many identities, whatever its variables are copied to
  obtain ⟨hsame, hn⟩ := Term.copied_under_congr source (n := n) fun v hv => (himage v hv).2
  exact ⟨i, ρ, (source.copied i.memo.image n).1,
    { run := hn ▸ hcopy
      extended := henters.extended
      names := hρ.old
      tracks := h'.later (Term.le_copied source n)
      left := ⟨Term.copied_below fun v hv => (himage v hv).1.below,
        hn ▸ Term.copied_older fun v hv => (himage v hv).1.older⟩
      right := ⟨Term.copied_below fun v hv => (h.holds (hknown v hv)).below,
        Term.copied_older fun v hv => (h.holds (hknown v hv)).older⟩
      same := hsame
      kind := Term.copied_kind }⟩

end Tracks

end Twins

end Horn
