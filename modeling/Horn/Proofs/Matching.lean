import Horn.Proofs.Copies
import Horn.Proofs.FusedWalk
import Horn.Proofs.Unification

/-!
# What the fused walk computes

While a source is matched with a goal, the store and the memo together are a set of equations: the
store over its own variables, the memo between the source variables and terms over the store. A pair
of a source and a goal is one more equation. If the equations have a solution, the walk ends, and
what it leaves is solved by exactly the solutions, extended to the variables that were allocated on
the way.

- `Instance.Agrees`: a solution of store and memo.
- `Instance.Extends`: the solutions of one instance that satisfy some pairs are those of another,
  restricted to the variables that there were.
- `Advances`: from one state of the walk to another.
- `Matches`: a source that can be matched with every goal for which there is a solution.
- `walks_of_solvable`: every source without NaNs can.
-/

namespace Horn

variable {nodes nodes' nodes'' : Nat → Term} {supply supply' supply'' : Supply}
  {i i' i'' : Instance} {σ θ : Nat → Tree Unit} {s s' : Store} {t : Term} {n n' : Nat}
  {pairs rest : List (Term × Term)}

/-! ## States of the walk -/

theorem Store.Sound.mono (h : s.Sound nodes n) (hle : n ≤ n')
    (htable : ∀ k < n, nodes' k = nodes k) : s.Sound nodes' n' where
  proper := h.proper
  plain v t hv := Term.Comparable.congr (h.plain v t hv) (h.older v t hv) htable
  older v t hv := Term.Older.mono (h.older v t hv) hle

theorem Store.Sound.compressed (h : s.Sound nodes n) (hcomp : s.cells.Compressed s'.cells) :
    s'.Sound nodes n :=
  ⟨hcomp.proper h.proper, hcomp.every h.plain, hcomp.every h.older⟩

/-- A term over a store stays one when the store grows and the table is continued. -/
theorem Store.Over.mono (h : s.Over nodes n t) (hsize : s.cells.size ≤ s'.cells.size)
    (hle : n ≤ n') (htable : ∀ k < n, nodes' k = nodes k) : s'.Over nodes' n' t where
  below := h.below.mono hsize
  plain := h.plain.congr h.older htable
  older := h.older.mono hle

/-- A sound store with a memo for it. -/
structure Instance.Sound (nodes : Nat → Term) (supply : Supply) (i : Instance) : Prop where
  store : i.store.Sound nodes supply.next
  memo : ∀ v t, i.memo.find? v = some t → i.store.Over nodes supply.next t

/-- The substitution `σ` solves the store, and `θ` gives the source variables what the memo says
they stand for. -/
structure Instance.Agrees (i : Instance) (σ θ : Nat → Tree Unit) : Prop where
  solves : i.store.cells.Solves .numeric σ
  known : ∀ v t, i.memo.find? v = some t → t.under .numeric σ = θ v

/-- The solutions of `i'` are those of `i` that make the pairs equal, extended to new variables. -/
structure Instance.Extends (i i' : Instance) (pairs : List (Term × Term)) : Prop where
  le : i.store.cells.size ≤ i'.store.cells.size
  sound : ∀ σ θ, i'.Agrees σ θ → i.Agrees σ θ ∧ Equal .numeric θ σ pairs
  complete : ∀ σ θ, i.Agrees σ θ → Equal .numeric θ σ pairs →
    ∃ σ', (∀ v < i.store.cells.size, σ' v = σ v) ∧ i'.Agrees σ' θ

/-- From one state of the walk to a later one, by which the pairs have been made equal. -/
structure Advances (nodes : Nat → Term) (supply : Supply) (i : Instance)
    (pairs : List (Term × Term)) (nodes' : Nat → Term) (supply' : Supply) (i' : Instance) :
    Prop where
  sound : i'.Sound nodes' supply'
  le : supply.next ≤ supply'.next
  table : ∀ k < supply.next, nodes' k = nodes k
  solutions : i.Extends i' pairs

/-- The goals of the pairs are over the store. -/
def GoalsOver (nodes : Nat → Term) (supply : Supply) (i : Instance)
    (pairs : List (Term × Term)) : Prop :=
  ∀ q ∈ pairs, i.store.Over nodes supply.next q.2

/-- A solution on the old variables is one for the goals. -/
theorem GoalsOver.equal_congr {σ' : Nat → Tree Unit} (h : GoalsOver nodes supply i pairs)
    (hσ : ∀ v < i.store.cells.size, σ' v = σ v) :
    Equal .numeric θ σ' pairs ↔ Equal .numeric θ σ pairs := by
  have hgoal : ∀ q ∈ pairs, q.2.under .numeric σ' = q.2.under .numeric σ :=
    fun q hq => Term.under_congr fun v hv => hσ v ((h q hq).below.lt hv)
  exact forall₂_congr fun q hq => by rw [hgoal q hq]

namespace Advances

theorem refl (h : i.Sound nodes supply) : Advances nodes supply i [] nodes supply i where
  sound := h
  le := Nat.le_refl _
  table _ _ := rfl
  solutions :=
    { le := Nat.le_refl _
      sound := fun _ _ h => ⟨h, equal_nil⟩
      complete := fun σ _ h _ => ⟨σ, fun _ _ => rfl, h⟩ }

theorem term_over (h : Advances nodes supply i pairs nodes' supply' i')
    (ht : i.store.Over nodes supply.next t) : i'.store.Over nodes' supply'.next t :=
  ht.mono h.solutions.le h.le h.table

/-- So are the goals that are left. -/
theorem goalsOver (h : Advances nodes supply i pairs nodes' supply' i')
    (hrest : GoalsOver nodes supply i rest) : GoalsOver nodes' supply' i' rest :=
  fun q hq => h.term_over (hrest q hq)

/-- **Matching some pairs and then others** is matching all of them. -/
theorem trans (h : Advances nodes supply i pairs nodes' supply' i')
    (h' : Advances nodes' supply' i' rest nodes'' supply'' i'')
    (hrest : GoalsOver nodes supply i rest) :
    Advances nodes supply i (pairs ++ rest) nodes'' supply'' i'' where
  sound := h'.sound
  le := Nat.le_trans h.le h'.le
  table k hk := (h'.table k (Nat.lt_of_lt_of_le hk h.le)).trans (h.table k hk)
  solutions :=
    { le := Nat.le_trans h.solutions.le h'.solutions.le
      sound := fun σ θ hagree => by
        obtain ⟨hagree', hequal'⟩ := h'.solutions.sound σ θ hagree
        obtain ⟨hagree, hequal⟩ := h.solutions.sound σ θ hagree'
        exact ⟨hagree, equal_append.mpr ⟨hequal, hequal'⟩⟩
      complete := fun σ θ hagree hequal => by
        obtain ⟨hequal, hequal'⟩ := equal_append.mp hequal
        obtain ⟨σ₁, heq₁, hagree₁⟩ := h.solutions.complete σ θ hagree hequal
        obtain ⟨σ₂, heq₂, hagree₂⟩ :=
          h'.solutions.complete σ₁ θ hagree₁ ((hrest.equal_congr heq₁).mpr hequal')
        refine ⟨σ₂, fun v hv => ?_, hagree₂⟩
        exact (heq₂ v (Nat.lt_of_lt_of_le hv h.solutions.le)).trans (heq₁ v hv) }

/-- Other pairs with the same solutions. -/
theorem congr (h : Advances nodes supply i pairs nodes' supply' i')
    (heq : ∀ σ θ, i.Agrees σ θ → (Equal .numeric θ σ pairs ↔ Equal .numeric θ σ rest)) :
    Advances nodes supply i rest nodes' supply' i' where
  sound := h.sound
  le := h.le
  table := h.table
  solutions :=
    { le := h.solutions.le
      sound := fun σ θ hagree => by
        obtain ⟨hagree, hequal⟩ := h.solutions.sound σ θ hagree
        exact ⟨hagree, (heq σ θ hagree).mp hequal⟩
      complete := fun σ θ hagree hequal =>
        h.solutions.complete σ θ hagree ((heq σ θ hagree).mpr hequal) }

/-- A solution of the equations that are left after the first ones. -/
theorem exists_rest (h : Advances nodes supply i pairs nodes' supply' i')
    (hrest : GoalsOver nodes supply i rest)
    (hsolvable : ∃ σ θ, i.Agrees σ θ ∧ Equal .numeric θ σ (pairs ++ rest)) :
    ∃ σ θ, i'.Agrees σ θ ∧ Equal .numeric θ σ rest := by
  obtain ⟨σ, θ, hagree, hequal⟩ := hsolvable
  obtain ⟨hequal, hequal'⟩ := equal_append.mp hequal
  obtain ⟨σ', heq, hagree'⟩ := h.solutions.complete σ θ hagree hequal
  exact ⟨σ', θ, hagree', (hrest.equal_congr heq).mpr hequal'⟩

/-! ### The steps -/

/-- The store is written without its size or its solutions changing, except that a pair becomes
equal. -/
theorem of_store (hi : i.Sound nodes supply)
    (hs : s'.Sound nodes supply.next) (hsize : s'.cells.size = i.store.cells.size)
    (hsolves : ∀ σ θ, { i with store := s' }.Agrees σ θ ↔
      i.Agrees σ θ ∧ Equal .numeric θ σ pairs) :
    Advances nodes supply i pairs nodes supply { i with store := s' } where
  sound :=
    { store := hs
      memo := fun v t hv =>
        (hi.memo v t hv).mono (Nat.le_of_eq hsize.symm) (Nat.le_refl _) fun _ _ => rfl }
  le := Nat.le_refl _
  table _ _ := rfl
  solutions :=
    { le := Nat.le_of_eq hsize.symm
      sound := fun σ θ h => (hsolves σ θ).mp h
      complete := fun σ θ h hequal => ⟨σ, fun _ _ => rfl, (hsolves σ θ).mpr ⟨h, hequal⟩⟩ }

/-- Chains are shortened. -/
theorem compressed (hi : i.Sound nodes supply) (hcomp : i.store.cells.Compressed s'.cells) :
    Advances nodes supply i [] nodes supply { i with store := s' } := by
  refine of_store hi (hi.store.compressed hcomp) hcomp.size fun σ θ => ?_
  have hsolves := hcomp.solves (r := .numeric) (σ := σ) hi.store.proper.rooted
  exact ⟨fun h => ⟨⟨hsolves.mp h.solves, h.known⟩, equal_nil⟩,
    fun h => ⟨hsolves.mpr h.1.solves, h.1.known⟩⟩

/-- What a source variable stands for is unified with the goal. -/
theorem unified {v : Nat} {goal : Term} (hi : i.Sound nodes supply)
    (hgoal : i.store.Over nodes supply.next goal) (hv : i.memo.find? v = some t)
    (h : Unifies i.store [(t, goal)] (.ok ()) s') :
    Advances nodes supply i [(.var v, goal)] nodes supply { i with store := s' } := by
  have ht := hi.memo v t hv
  refine of_store hi (h.sound hi.store ht hgoal) h.size fun σ θ => ?_
  have hexact := h.exact nodes hi.store.plain (pairsEvery_single ht.plain hgoal.plain) σ
  simp only [Satisfies, equal_cons, equal_nil, and_true, true_and] at hexact
  constructor
  · intro hagree
    obtain ⟨hsolves, hequal⟩ := hexact.mpr hagree.solves
    refine ⟨⟨hsolves, hagree.known⟩, ?_⟩
    simpa [← hagree.known v t hv] using hequal
  · rintro ⟨hagree, hequal⟩
    refine ⟨hexact.mp ⟨hagree.solves, ?_⟩, hagree.known⟩
    simpa [← hagree.known v t hv] using hequal

/-- A source variable is made to stand for the goal. -/
theorem remembered {v : Nat} {goal : Term} (hi : i.Sound nodes supply)
    (hgoal : i.store.Over nodes supply.next goal) (hv : i.memo.find? v = none) :
    Advances nodes supply i [(.var v, goal)] nodes supply
      { i with memo := i.memo.insert v goal } := by
  have hfind : ∀ w u, (i.memo.insert v goal).find? w = some u ↔
      w = v ∧ u = goal ∨ i.memo.find? w = some u := fun w u => VarTable.find?_insert_iff hv
  have hagree : ∀ σ θ, { i with memo := i.memo.insert v goal }.Agrees σ θ ↔
      i.Agrees σ θ ∧ Equal .numeric θ σ [(.var v, goal)] := by
    intro σ θ
    constructor
    · intro h
      refine ⟨⟨h.solves, fun w u hw => h.known w u ((hfind w u).mpr (.inr hw))⟩, ?_⟩
      simpa using (h.known v goal ((hfind v goal).mpr (.inl ⟨rfl, rfl⟩))).symm
    · rintro ⟨h, hequal⟩
      refine ⟨h.solves, fun w u hw => ?_⟩
      rcases (hfind w u).mp hw with ⟨rfl, rfl⟩ | hw
      · exact (show θ w = u.under .numeric σ by simpa using hequal).symm
      · exact h.known w u hw
  exact
    { sound :=
        { store := hi.store
          memo := fun w u hw => by
            rcases (hfind w u).mp hw with ⟨-, rfl⟩ | hw
            · exact hgoal
            · exact hi.memo w u hw }
      le := Nat.le_refl _
      table := fun _ _ => rfl
      solutions :=
        { le := Nat.le_refl _
          sound := fun σ θ h => (hagree σ θ).mp h
          complete := fun σ θ h hequal => ⟨σ, fun _ _ => rfl, (hagree σ θ).mpr ⟨h, hequal⟩⟩ } }

end Advances

/-! ### Copying -/

namespace Instance.Enters

/-- What is entered is over the store. -/
theorem image_over (h : i.Enters i') (hi : i.Sound nodes supply) {v : Nat}
    (hv : i'.memo.find? v = some t) : i'.store.Over nodes supply.next t := by
  cases hold : i.memo.find? v with
  | some u =>
    have htu : u = t := Option.some.inj ((h.known v u hold).symm.trans hv)
    exact htu ▸ (hi.memo v u hold).mono h.extended.le (Nat.le_refl _) fun _ _ => rfl
  | none =>
    obtain ⟨w, rfl, -, hlt⟩ := h.fresh v t hold hv
    exact ⟨Term.below_var.mpr hlt, .of_leaf trivial rfl, .of_leaf trivial rfl⟩

theorem sound (h : i.Enters i') (hi : i.Sound nodes supply) : i'.Sound nodes supply where
  store := ⟨h.extended.proper hi.store.proper, h.extended.every hi.store.plain,
    h.extended.every hi.store.older⟩
  memo _ _ hv := h.image_over hi hv

/-- What agrees with a memo agrees with the part of it that there was before. -/
theorem agrees_of (h : i.Enters i') (hagree : i'.Agrees σ θ) : i.Agrees σ θ where
  solves := h.extended.solves.mp hagree.solves
  known v t hv := hagree.known v t (h.known v t hv)

/-- A solution is extended to the new variables: they stand for what the source variables that they
were entered for stand for. -/
theorem exists_agrees (h : i.Enters i') (hi : i.Sound nodes supply) (hagree : i.Agrees σ θ) :
    ∃ σ', (∀ v < i.store.cells.size, σ' v = σ v) ∧ i'.Agrees σ' θ := by
  classical
  -- `entered w v`: the cell is the new one that was allocated for the source variable
  let entered (w v : Nat) : Prop := i.memo.find? v = none ∧ i'.memo.find? v = some (.var w)
  let σ' (w : Nat) : Tree Unit := if hw : ∃ v, entered w v then θ hw.choose else σ w
  have hold : ∀ w < i.store.cells.size, σ' w = σ w := by
    intro w hw
    refine dif_neg ?_
    rintro ⟨v, hnone, hsome⟩
    obtain ⟨w', hw', hle, -⟩ := h.fresh v _ hnone hsome
    cases hw'
    omega
  have hnew : ∀ v w, entered w v → σ' w = θ v := by
    intro v w hv
    have hex : ∃ v, entered w v := ⟨v, hv⟩
    -- no cell is allocated for two source variables, so the choice does not matter
    have hchoose := h.inj _ v _ hex.choose_spec.1 hv.1 hex.choose_spec.2 hv.2
    exact (dif_pos hex).trans (congrArg θ hchoose)
  have hunder : ∀ t : Term, t.Below i.store.cells.size →
      t.under .numeric σ' = t.under .numeric σ :=
    fun t ht => Term.under_congr fun v hv => hold v (ht.lt hv)
  refine ⟨σ', hold, h.extended.solves.mpr fun v t hv => ?_, fun v t hv => ?_⟩
  · rw [hold v hv.lt, hagree.solves v t hv, hunder t (hi.store.proper.closed v t hv)]
  · cases hknown : i.memo.find? v with
    | some u =>
      have htu : u = t := Option.some.inj ((h.known v u hknown).symm.trans hv)
      rw [← htu, hunder u (hi.memo v u hknown).below, hagree.known v u hknown]
    | none =>
      obtain ⟨w, rfl, -, -⟩ := h.fresh v t hknown hv
      exact hnew v w ⟨hknown, hv⟩

end Instance.Enters

namespace Advances

variable {source : Term}

/-- A source is copied. The copy denotes the source. -/
theorem copied (hi : i.Sound nodes supply) (h : i.Enters i')
    (hknown : ∀ v, Term.Within (.var v) source → (i'.memo.find? v).isSome)
    (hnan : source.NaNFree) :
    ∃ nodes', Advances nodes supply i [] nodes' ⟨(source.copied i'.memo.image supply.next).2⟩ i' ∧
      i'.store.Over nodes' (source.copied i'.memo.image supply.next).2
        (source.copied i'.memo.image supply.next).1 ∧
      ∀ σ θ, i'.Agrees σ θ →
        (source.copied i'.memo.image supply.next).1.under .numeric σ = source.under .numeric θ := by
  have hle := Term.le_copied (m := i'.memo.image) source supply.next
  have himage : ∀ v, Term.Within (.var v) source → ∃ t, i'.memo.find? v = some t ∧
      i'.memo.image v = t := by
    intro v hv
    obtain ⟨t, ht⟩ := Option.isSome_iff_exists.mp (hknown v hv)
    exact ⟨t, ht, Memo.image_of_find? ht⟩
  have hover : ∀ v, Term.Within (.var v) source →
      i'.store.Over nodes supply.next (i'.memo.image v) := by
    intro v hv
    obtain ⟨t, ht, heq⟩ := himage v hv
    exact heq ▸ h.image_over hi ht
  -- the nodes of the copy are entered into the table of nodes
  obtain ⟨nodes', htable, hplain⟩ := Term.exists_copied_comparable source nodes hnan
    fun v hv => ⟨(hover v hv).plain, (hover v hv).older⟩
  have hi' := h.sound hi
  refine ⟨nodes', ?_, ⟨?_, hplain, ?_⟩, fun σ θ hagree => ?_⟩
  · exact
      { sound :=
          { store := hi'.store.mono hle htable
            memo := fun v t hv => (hi'.memo v t hv).mono (Nat.le_refl _) hle htable }
        le := hle
        table := htable
        solutions :=
          { le := h.extended.le
            sound := fun σ θ hagree => ⟨h.agrees_of hagree, equal_nil⟩
            complete := fun σ θ hagree _ => h.exists_agrees hi hagree } }
  · exact Term.copied_below fun v hv => (hover v hv).below
  · exact Term.copied_older fun v hv => (hover v hv).older
  · rw [Term.copied_under]
    refine Term.under_congr fun v hv => ?_
    obtain ⟨t, ht, heq⟩ := himage v hv
    rw [heq, hagree.known v t ht]

/-- An unbound variable is bound to a copy of the source. -/
theorem bound {w : Nat} (hi : i.Sound nodes supply) (ht : i.store.Over nodes supply.next t)
    (hkind : t.kind ≠ .var) (hw : i.store.cells.Unbound w)
    (hcopy : ∀ σ θ, i.Agrees σ θ → t.under .numeric σ = source.under .numeric θ)
    (hsolvable : ∃ σ θ, i.Agrees σ θ ∧ Equal .numeric θ σ [(source, .var w)]) :
    Advances nodes supply i [(source, .var w)] nodes supply
      { i with store := i.store.bound w t } := by
  have hsolves : ∀ σ θ, { i with store := i.store.bound w t }.Agrees σ θ ↔
      i.Agrees σ θ ∧ Equal .numeric θ σ [(source, .var w)] := by
    intro σ θ
    have hset : (i.store.bound w t).cells.Solves .numeric σ ↔
        i.store.cells.Solves .numeric σ ∧ σ w = t.under .numeric σ := Cells.solves_set hw
    constructor
    · intro h
      obtain ⟨hσ, heq⟩ := hset.mp h.solves
      have hagree : i.Agrees σ θ := ⟨hσ, h.known⟩
      exact ⟨hagree, by simpa [← hcopy σ θ hagree] using heq.symm⟩
    · rintro ⟨h, hequal⟩
      refine ⟨hset.mpr ⟨h.solves, ?_⟩, h.known⟩
      rw [hcopy σ θ h]
      exact (show source.under .numeric θ = σ w by simpa using hequal).symm
  obtain ⟨σ, θ, hagree, hequal⟩ := hsolvable
  have heq : σ w = t.under .numeric σ := by
    rw [hcopy σ θ hagree]
    exact (show source.under .numeric θ = σ w by simpa using hequal).symm
  have hne : t ≠ .var w := fun htw => hkind (congrArg Term.kind htw)
  -- no occurs check is made, but the solution shows that the binding closes no cycle
  refine of_store hi ⟨?_, hi.store.plain.set ht.plain, hi.store.older.set ht.older⟩
    Store.size_bound hsolves
  exact hi.store.proper.set_of_solves hw (Cells.isEnd_of_kind hkind) ht.below hne hagree.solves heq

end Advances

/-! ## The walk -/

/-- Building a node takes no identity that has been given out. -/
theorem Term.le_apply (f : Atom) (args : List Term) (supply : Supply) :
    supply.next ≤ (Term.apply f args supply).2.next := by
  cases args with
  | nil => exact Nat.le_refl _
  | cons x xs => exact Nat.le_succ _

/-- More identities are given out. -/
theorem Advances.later (h : Advances nodes supply i pairs nodes' supply' i')
    (hle : supply'.next ≤ supply''.next) : Advances nodes supply i pairs nodes' supply'' i' where
  sound :=
    { store := h.sound.store.mono hle fun _ _ => rfl
      memo := fun v t hv => (h.sound.memo v t hv).mono (Nat.le_refl _) hle fun _ _ => rfl }
  le := Nat.le_trans h.le hle
  table := h.table
  solutions := h.solutions

/-- The source can be matched with every goal for which the equations have a solution. -/
def Matches (source : Term) : Prop :=
  ∀ {nodes : Nat → Term} {supply : Supply} {i : Instance} {goal : Term}, i.Sound nodes supply →
    i.store.Over nodes supply.next goal →
    (∃ σ θ, i.Agrees σ θ ∧ Equal .numeric θ σ [(source, goal)]) →
      ∃ copied nodes' supply' i', Walks source goal supply i (.ok copied) supply' i' ∧
        Advances nodes supply i [(source, goal)] nodes' supply' i'

/-- Pairs are matched one after the other, each with what the ones before it have left. -/
theorem walksAll_of_solvable (hmatches : ∀ q ∈ pairs, Matches q.1) :
    ∀ {nodes : Nat → Term} {supply : Supply} {i : Instance}, i.Sound nodes supply →
      GoalsOver nodes supply i pairs → (∃ σ θ, i.Agrees σ θ ∧ Equal .numeric θ σ pairs) →
        ∃ copies nodes' supply' i', WalksAll pairs supply i (.ok copies) supply' i' ∧
          Advances nodes supply i pairs nodes' supply' i' := by
  induction pairs with
  | nil => exact fun {nodes supply i} hi _ _ => ⟨[], nodes, supply, i, .nil, .refl hi⟩
  | cons q rest ih =>
    intro nodes supply i hi hover hsolvable
    have hrest : GoalsOver nodes supply i rest := fun p hp => hover p (List.mem_cons_of_mem _ hp)
    have hhead : ∃ σ θ, i.Agrees σ θ ∧ Equal .numeric θ σ [(q.1, q.2)] := by
      obtain ⟨σ, θ, hagree, hequal⟩ := hsolvable
      exact ⟨σ, θ, hagree, equal_cons.mpr ⟨hequal q List.mem_cons_self, equal_nil⟩⟩
    obtain ⟨copied, nodes₁, supply₁, i₁, hwalk, hadv⟩ :=
      hmatches q List.mem_cons_self hi (hover q List.mem_cons_self) hhead
    obtain ⟨copies, nodes₂, supply₂, i₂, hwalks, hadv'⟩ :=
      ih (fun p hp => hmatches p (List.mem_cons_of_mem _ hp)) hadv.sound (hadv.goalsOver hrest)
        (hadv.exists_rest hrest hsolvable)
    exact ⟨copied :: copies, nodes₂, supply₂, i₂, .cons hwalk hwalks, hadv.trans hadv' hrest⟩

/-- A source variable that is known. -/
theorem matches_known {v : Nat} {goal : Term} (hi : i.Sound nodes supply)
    (hgoal : i.store.Over nodes supply.next goal) (hv : i.memo.find? v = some t)
    (hsolvable : ∃ σ θ, i.Agrees σ θ ∧ Equal .numeric θ σ [(.var v, goal)]) :
    ∃ copied nodes' supply' i', Walks (.var v) goal supply i (.ok copied) supply' i' ∧
      Advances nodes supply i [(.var v, goal)] nodes' supply' i' := by
  have ht := hi.memo v t hv
  have hbelow := pairsBelow_single ht.below hgoal.below
  have hsatisfies : ∃ σ, Satisfies i.store [(t, goal)] σ := by
    obtain ⟨σ, θ, hagree, hequal⟩ := hsolvable
    refine ⟨σ, hagree.solves, ?_⟩
    simpa [hagree.known v t hv] using hequal
  obtain ⟨result, s', hsettles, h⟩ :=
    unifyPairs_settles hi.store.proper hbelow (.inr hsatisfies)
  have hevery := pairsEvery_single ht.plain hgoal.plain
  obtain ⟨σ, hσ⟩ := hsatisfies
  have hok : result = .ok () := ((h.exact nodes hi.store.plain hevery σ).mp hσ).1
  subst hok
  exact ⟨t, nodes, supply, { i with store := s' }, .known hv hsettles, .unified hi hgoal hv h⟩

/-! ### A goal that was dereferenced -/

/-- The source is matched with the root of the goal, in the store that dereferencing has left. -/
def MatchesRoot (nodes : Nat → Term) (supply : Supply) (i : Instance) (s' : Store)
    (source goal root : Term) : Prop :=
  ∃ copied nodes' supply' i', Walks source goal supply i (.ok copied) supply' i' ∧
    Advances nodes supply { i with store := s' } [(source, root)] nodes' supply' i'

/-- An unbound variable of the goal is bound to a copy of the source. -/
theorem matchesRoot_bind {source goal : Term} {w : Nat}
    (hi : { i with store := s' }.Sound nodes supply) (hgoal : s'.Over nodes supply.next (.var w))
    (hsolvable : ∃ σ θ, { i with store := s' }.Agrees σ θ ∧ Equal .numeric θ σ [(source, .var w)])
    (hderef : deref goal i.store = .ok (.var w, s')) (hw : s'.cells.Unbound w)
    (hkind : source.kind ≠ .var) (hnan : source.NaNFree) :
    MatchesRoot nodes supply i s' source goal (.var w) := by
  have hover : GoalsOver nodes supply { i with store := s' } [(source, .var w)] := fun q hq =>
    List.mem_singleton.mp hq ▸ hgoal
  obtain ⟨i₂, hcopy, henters, hknown⟩ := copy_run source supply { i with store := s' }
  obtain ⟨nodes₂, hadv, hcopied, hdenotes⟩ :=
    Advances.copied hi henters (fun v hv => (hknown v).mpr (.inr hv)) hnan
  have hw₂ : i₂.store.cells.Unbound w := henters.extended.unbound hw
  have hadv' := Advances.bound hadv.sound hcopied (Term.copied_kind hkind ▸ hkind) hw₂ hdenotes
    (hadv.exists_rest hover hsolvable)
  exact ⟨_, nodes₂, _, _, .bind hkind hderef hcopy hw₂.lt, hadv.trans hadv' hover⟩

/-- Leaves that agree are equal under all solutions. -/
theorem matchesRoot_leaf {source goal root : Term} (hi : { i with store := s' }.Sound nodes supply)
    (hderef : deref goal i.store = .ok (root, s')) (hkind : source.kind ≠ .var)
    (hroot : root.kind ≠ .var) (hagree : leavesAgree source root = true) :
    MatchesRoot nodes supply i s' source goal root := by
  have hleaf : source.kind ≠ .compound ∨ root.kind ≠ .compound := by
    cases source <;> cases root <;> first | exact .inl Kind.noConfusion | cases hagree
  have hwalk : Walks source goal supply i _ supply _ := .leaf hkind hroot hleaf hderef
  rw [if_pos hagree] at hwalk
  refine ⟨source, nodes, supply, _, hwalk, (Advances.refl hi).congr fun σ θ _ => ?_⟩
  exact ⟨fun _ => equal_cons.mpr ⟨under_eq_of_leavesAgree hagree, equal_nil⟩, fun _ => equal_nil⟩

/-- Nodes with one functor are matched argument by argument. -/
theorem matchesRoot_node {goal x y : Term} {j k : Nat} {f g : Atom} {xs ys : List Term}
    (hi : { i with store := s' }.Sound nodes supply)
    (hgoal : s'.Over nodes supply.next (.compound k g y ys))
    (hsolvable : ∃ σ θ, { i with store := s' }.Agrees σ θ ∧
      Equal .numeric θ σ [(.compound j f x xs, .compound k g y ys)])
    (hderef : deref goal i.store = .ok (.compound k g y ys, s'))
    (hargs : ∀ z ∈ x :: xs, Matches z) (hname : f.name = g.name) (hlength : xs.length = ys.length) :
    MatchesRoot nodes supply i s' (.compound j f x xs) goal (.compound k g y ys) := by
  have hequal : ∀ σ θ, Equal .numeric θ σ ((x :: xs).zip (y :: ys)) ↔
      Equal .numeric θ σ [(.compound j f x xs, .compound k g y ys)] := by
    intro σ θ
    rw [equal_zip (by simpa using hlength), equal_cons, Term.under_compound, Term.under_compound,
      Tree.node.injEq]
    simp [hname, Reading.numeric]
  have hover : GoalsOver nodes supply { i with store := s' } ((x :: xs).zip (y :: ys)) := by
    intro q hq
    exact ⟨hgoal.below.of_mem_zip hq, hgoal.plain.of_mem_zip hq, hgoal.older.of_mem_zip hq⟩
  have hmatches : ∀ q ∈ (x :: xs).zip (y :: ys), Matches q.1 := fun q hq =>
    hargs q.1 (List.of_mem_zip (show (q.1, q.2) ∈ _ from hq)).1
  obtain ⟨copies, nodes', supply', i', hwalks, hadv⟩ := walksAll_of_solvable hmatches hi hover (by
    obtain ⟨σ, θ, hagree, h⟩ := hsolvable
    exact ⟨σ, θ, hagree, (hequal σ θ).mpr h⟩)
  exact ⟨_, nodes', _, i', .node hderef hname hlength hwalks,
    (hadv.later (Term.le_apply f copies supply')).congr fun σ θ _ => hequal σ θ⟩

/-- **The fused walk of a pair that has a solution** ends, and leaves exactly the solutions. The
induction is on the source. -/
theorem walks_of_solvable (source : Term) (hnan : source.NaNFree) : Matches source := by
  induction source using Term.induction_arguments with
  | h source ih =>
    intro nodes supply i goal hi hgoal hsolvable
    by_cases hkind : source.kind = .var
    · cases source with
      | var v =>
        cases hv : i.memo.find? v with
        | some t => exact matches_known hi hgoal hv hsolvable
        | none => exact ⟨goal, nodes, supply, _, .first hv, .remembered hi hgoal hv⟩
      | _ => cases hkind
    obtain ⟨root, hroot⟩ := hi.store.proper.rooted.root hgoal.below
    obtain ⟨s₁, hderef, hcomp⟩ := deref_run hroot
    have hadv : Advances nodes supply i [] nodes supply { i with store := s₁ } :=
      .compressed hi hcomp
    have hover : GoalsOver nodes supply i [(source, root)] := by
      intro q hq
      cases List.mem_singleton.mp hq
      exact ⟨hroot.every hi.store.proper.closed hgoal.below,
        hroot.every hi.store.plain hgoal.plain, hroot.every hi.store.older hgoal.older⟩
    have hequal : ∀ σ θ, i.Agrees σ θ →
        (Equal .numeric θ σ [(source, root)] ↔ Equal .numeric θ σ [(source, goal)]) := by
      intro σ θ hagree
      simp [hagree.solves.root hroot]
    have hsolvable₁ := hadv.exists_rest hover (by
      obtain ⟨σ, θ, hagree, h⟩ := hsolvable
      exact ⟨σ, θ, hagree, (hequal σ θ hagree).mpr h⟩)
    have hgoal₁ := hadv.goalsOver hover (source, root) List.mem_cons_self
    -- it is enough to match the source with the root in the store that dereferencing has left
    suffices h : MatchesRoot nodes supply i s₁ source goal root by
      obtain ⟨copied, nodes', supply', i', hwalk, hadv'⟩ := h
      exact ⟨copied, nodes', supply', i', hwalk, (hadv.trans hadv' hover).congr hequal⟩
    have hne : ∀ e, ¬Move.Made source root (.fail e) := by
      intro e hmade
      obtain ⟨σ, θ, -, h⟩ := hsolvable₁
      exact hmade.ne_of_fail hnan hgoal₁.plain.nanFree (equal_cons.mp h).1
    have hmade := Move.made_ofRoots source root
    generalize Move.ofRoots source root = m at hmade
    cases hmade with
    | same v => exact absurd rfl hkind
    | left h => exact absurd rfl hkind
    | @right w _ h =>
      have hw : s₁.cells.Unbound w := hcomp.unbound.mpr (hroot.isEnd w rfl)
      exact matchesRoot_bind hadv.sound hgoal₁ hsolvable₁ hderef hw hkind hnan
    | shared hname hlength | descend hij hname hlength =>
      exact matchesRoot_node hadv.sound hgoal₁ hsolvable₁ hderef
        (fun z hz => ih z hz (hnan.arg hz)) hname hlength
    | leaves ha hb h => exact matchesRoot_leaf hadv.sound hderef hkind hb h
    | functors h => exact absurd (.functors h) (hne _)
    | mismatch ha hb hab h => exact absurd (.mismatch ha hb hab h) (hne _)

end Horn
