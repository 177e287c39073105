import Horn.Proofs.Solutions

/-!
# Stores that say the same

Two stores can say the same of their variables and hold different cells. Chains may have been
shortened in one and not in the other; and of two unbound variables that have been made equal,
either may be bound to the other. What a store says is which variables are aliases and which node or
leaf a variable stands for.

- `Cells.SameEnds`: every chain has the same end in both stores.
- `Cells.Aliased`: bindings lead from two variables to one unbound variable.
- `Cells.Equivalent`: the same variables are aliases, and the same variables stand for a term.
- `Cells.Equivalent.solves`: equivalent stores have the same solutions.
- `Cells.Equivalent.counterparts`: what one term is in two equivalent stores.
- `Cells.Equivalent.set_term`, `Cells.Equivalent.set_var`: bindings that keep stores equivalent.
-/

namespace Horn

/-- A variable that stands in what another one is replaced by stands in the result. -/
theorem Tree.Occurs.subst {ν : Type} {σ : Nat → Tree ν} {t : Tree ν} {v w : Nat}
    (h : t.Occurs v) (hw : (σ v).Occurs w) : (t.subst σ).Occurs w := by
  induction h with
  | here => exact hw
  | arg mem _ ih =>
    rw [Tree.subst_node]
    exact .arg (List.mem_map_of_mem mem) ih

namespace Cells

variable {ν : Type} {r : Reading ν} {σ τ τ' : Nat → Tree ν}
  {cells cells' cells'' left right : Cells} {u v w x x' y y' : Nat} {a b t : Term}

/-! ## Chains with the same ends -/

/-- There are as many variables in both stores, and every chain has the same end. -/
structure SameEnds (cells cells' : Cells) : Prop where
  size : cells'.size = cells.size
  leads : ∀ v t, cells'.Leads v t ↔ cells.Leads v t

/-- Shortening chains leaves their ends. -/
theorem Compressed.sameEnds (h : cells.Compressed cells') : cells.SameEnds cells' :=
  ⟨h.size, h.leads⟩

namespace SameEnds

theorem symm (h : cells.SameEnds cells') : cells'.SameEnds cells :=
  ⟨h.size.symm, fun v t => (h.leads v t).symm⟩

theorem trans (h : cells.SameEnds cells') (h' : cells'.SameEnds cells'') : cells.SameEnds cells'' :=
  ⟨h'.size.trans h.size, fun v t => (h'.leads v t).trans (h.leads v t)⟩

/-- Chains are shortened in both stores. -/
theorem compressed (h : cells.SameEnds cells') (hl : cells.Compressed left)
    (hr : cells'.Compressed right) : left.SameEnds right :=
  hl.sameEnds.symm.trans (h.trans hr.sameEnds)

theorem unbound (h : cells.SameEnds cells') : cells'.Unbound v ↔ cells.Unbound v := by
  rw [← leads_self, ← leads_self, h.leads]

theorem root (h : cells.SameEnds cells') : cells'.Root a t ↔ cells.Root a t := by
  cases a with
  | var v => exact h.leads v t
  | _ => exact Iff.rfl

/-- The same binding is made in both stores. -/
theorem set (h : cells.SameEnds cells') (hv : cells.Unbound v) (ht : cells.IsEnd t)
    (hne : t ≠ .var v) :
    SameEnds (cells.setIfInBounds v (some t)) (cells'.setIfInBounds v (some t)) where
  size := by rw [Array.size_setIfInBounds, Array.size_setIfInBounds, h.size]
  leads u s := by
    rw [leads_set (h.unbound.mpr hv) (fun w hw => h.unbound.mpr (ht w hw)) hne,
      leads_set hv ht hne, h.leads, h.leads]

end SameEnds

/-! ## Aliases -/

/-- Bindings lead from both variables to one unbound variable. -/
def Aliased (cells : Cells) (v w : Nat) : Prop :=
  ∃ x, cells.Leads v (.var x) ∧ cells.Leads w (.var x)

/-- What is aliased to a variable leads where the variable leads. -/
theorem Aliased.leads (h : cells.Aliased v w) (hw : cells.Leads w t) : cells.Leads v t := by
  obtain ⟨x, hv, hw'⟩ := h
  exact hw.unique hw' ▸ hv

/-- A binding to a term takes the aliases of the variable out of the unbound ones. -/
theorem aliased_set_term (hx : cells.Unbound x) (ht : t.kind ≠ .var) :
    Aliased (cells.setIfInBounds x (some t)) v w ↔
      cells.Aliased v w ∧ ¬cells.Leads v (.var x) := by
  have hne : t ≠ .var x := fun h => ht (congrArg Term.kind h)
  have hleads : ∀ u z, Leads (cells.setIfInBounds x (some t)) u (.var z) ↔
      cells.Leads u (.var z) ∧ z ≠ x := by
    intro u z
    have hz : Term.var z ≠ t := fun h => ht (congrArg Term.kind h.symm)
    simp [leads_set hx (isEnd_of_kind ht) hne, hz]
  simp only [Aliased, hleads]
  constructor
  · rintro ⟨z, ⟨hv, hz⟩, hw, -⟩
    exact ⟨⟨z, hv, hw⟩, fun hvx => hz (Term.var.inj (hv.unique hvx))⟩
  · rintro ⟨⟨z, hv, hw⟩, hvx⟩
    have hz : z ≠ x := by
      rintro rfl
      exact hvx hv
    exact ⟨z, ⟨hv, hz⟩, hw, hz⟩

/-- The variable leads to one of the two. -/
def LeadsToEither (cells : Cells) (v x y : Nat) : Prop :=
  cells.Leads v (.var x) ∨ cells.Leads v (.var y)

/-- A binding of one variable to another makes aliases of all that lead to either of them. -/
theorem aliased_set_var (hx : cells.Unbound x) (hy : cells.Unbound y) (hxy : x ≠ y) :
    Aliased (cells.setIfInBounds x (some (.var y))) v w ↔
      cells.Aliased v w ∨ cells.LeadsToEither v x y ∧ cells.LeadsToEither w x y := by
  have hne : Term.var y ≠ .var x := fun h => hxy (Term.var.inj h).symm
  -- where chains lead after the binding: those that led to the variable end in the other one
  have hleads : ∀ u z, Leads (cells.setIfInBounds x (some (.var y))) u (.var z) ↔
      cells.Leads u (.var x) ∧ z = y ∨ cells.Leads u (.var z) ∧ z ≠ x := by
    intro u z
    simp [leads_set hx (isEnd_var hy) hne]
  have hjoined : ∀ u, cells.LeadsToEither u x y →
      Leads (cells.setIfInBounds x (some (.var y))) u (.var y) := by
    rintro u (hu | hu)
    · exact (hleads u y).mpr (.inl ⟨hu, rfl⟩)
    · exact (hleads u y).mpr (.inr ⟨hu, hxy.symm⟩)
  constructor
  · rintro ⟨z, hv, hw⟩
    rcases (hleads v z).mp hv with ⟨hvx, hz⟩ | ⟨hvz, -⟩ <;>
      rcases (hleads w z).mp hw with ⟨hwx, hz'⟩ | ⟨hwz, -⟩
    · exact .inr ⟨.inl hvx, .inl hwx⟩
    · exact .inr ⟨.inl hvx, .inr (hz ▸ hwz)⟩
    · exact .inr ⟨.inr (hz' ▸ hvz), .inl hwx⟩
    · exact .inl ⟨z, hvz, hwz⟩
  · rintro (⟨z, hv, hw⟩ | ⟨hv, hw⟩)
    · -- two chains with one end still have one, the other variable if theirs was bound
      by_cases hzx : z = x
      · exact ⟨y, hjoined v (.inl (hzx ▸ hv)), hjoined w (.inl (hzx ▸ hw))⟩
      · exact ⟨z, (hleads v z).mpr (.inr ⟨hv, hzx⟩), (hleads w z).mpr (.inr ⟨hw, hzx⟩)⟩
    · exact ⟨y, hjoined v hv, hjoined w hw⟩

/-! ## Equivalent stores -/

/-- The same variables are aliases, and bindings lead from the same variables to a node or a leaf,
which is the same one. -/
structure Equivalent (cells cells' : Cells) : Prop where
  size : cells'.size = cells.size
  aliased : ∀ v w, cells'.Aliased v w ↔ cells.Aliased v w
  value : ∀ v t, t.kind ≠ .var → (cells'.Leads v t ↔ cells.Leads v t)

/-- Stores whose chains have the same ends are equivalent. -/
theorem SameEnds.equivalent (h : cells.SameEnds cells') : cells.Equivalent cells' where
  size := h.size
  aliased v w := by simp only [Aliased, h.leads]
  value v t _ := h.leads v t

/-- What one term is in two stores: the same node or leaf, or two unbound variables to which the
same variables lead. -/
inductive Counterparts (cells cells' : Cells) : Term → Term → Prop where
  | term {t : Term} (h : t.kind ≠ .var) : Counterparts cells cells' t t
  | vars {x x' : Nat} (hx : cells.Unbound x) (hx' : cells'.Unbound x')
      (h : ∀ v, cells'.Leads v (.var x') ↔ cells.Leads v (.var x)) :
      Counterparts cells cells' (.var x) (.var x')

theorem Counterparts.symm (h : Counterparts cells cells' a b) : Counterparts cells' cells b a := by
  cases h with
  | term h => exact .term h
  | vars hx hx' h => exact .vars hx' hx fun v => (h v).symm

/-- Counterparts stay so as long as chains keep their ends. -/
theorem Counterparts.sameEnds (h : Counterparts cells cells' a b) (hl : cells.SameEnds left)
    (hr : cells'.SameEnds right) : Counterparts left right a b := by
  cases h with
  | term h => exact .term h
  | vars hx hx' h =>
    refine .vars (hl.unbound.mpr hx) (hr.unbound.mpr hx') fun v => ?_
    rw [hl.leads, hr.leads, h]

namespace Equivalent

theorem refl (cells : Cells) : cells.Equivalent cells :=
  ⟨rfl, fun _ _ => Iff.rfl, fun _ _ _ => Iff.rfl⟩

theorem symm (h : cells.Equivalent cells') : cells'.Equivalent cells :=
  ⟨h.size.symm, fun v w => (h.aliased v w).symm, fun v t ht => (h.value v t ht).symm⟩

theorem trans (h : cells.Equivalent cells') (h' : cells'.Equivalent cells'') :
    cells.Equivalent cells'' :=
  ⟨h'.size.trans h.size, fun v w => (h'.aliased v w).trans (h.aliased v w),
    fun v t ht => (h'.value v t ht).trans (h.value v t ht)⟩

/-- The ends of chains in both stores are changed for stores with the same ends. -/
theorem sameEnds (h : cells.Equivalent cells') (hl : cells.SameEnds left)
    (hr : cells'.SameEnds right) : left.Equivalent right :=
  hl.equivalent.symm.trans (h.trans hr.equivalent)

/-- Equivalence does not depend on how long the chains are. -/
theorem compressed (h : cells.Equivalent cells') (hl : cells.Compressed left)
    (hr : cells'.Compressed right) : left.Equivalent right :=
  h.sameEnds hl.sameEnds hr.sameEnds

theorem rooted (h : cells.Equivalent cells') (hr : cells.Rooted) : cells'.Rooted := by
  intro v hv
  obtain ⟨t, ht⟩ := hr v (h.size ▸ hv)
  by_cases hkind : t.kind = .var
  · cases t with
    | var x =>
      obtain ⟨x', hx', -⟩ := (h.aliased v v).mpr ⟨x, ht, ht⟩
      exact ⟨_, hx'⟩
    | _ => cases hkind
  · exact ⟨t, (h.value v t hkind).mpr ht⟩

/-- What solves a store solves every equivalent one with chains that end. -/
theorem solves_of_rooted (h : cells.Equivalent cells') (hr : cells'.Rooted)
    (hσ : cells.Solves r σ) : cells'.Solves r σ := by
  refine solves_of_leads hr fun v t hv => ?_
  by_cases hkind : t.kind = .var
  · cases t with
    -- a representative is an alias of the variables that it represents
    | var y =>
      have hy : cells'.Leads y (.var y) := (hv.isEnd y rfl).leads
      obtain ⟨x, hvx, hyx⟩ := (h.aliased v y).mp ⟨y, hv, hy⟩
      exact (hσ.leads hvx).trans (hσ.leads hyx).symm
    | _ => cases hkind
  · exact hσ.leads ((h.value v t hkind).mp hv)

/-- **Equivalent stores have the same solutions.** -/
theorem solves (h : cells.Equivalent cells') (hr : cells.Rooted) :
    cells'.Solves r σ ↔ cells.Solves r σ :=
  ⟨h.symm.solves_of_rooted hr, h.solves_of_rooted (h.rooted hr)⟩

/-- If what is bound in a store is over its cells, that is so in an equivalent store. -/
theorem closed (h : cells.Equivalent cells') (hr : cells.Rooted) (hc : cells.Closed) :
    cells'.Closed := by
  intro v t hv
  by_cases hkind : t.kind = .var
  · cases t with
    | var w =>
      obtain ⟨s, n, hs⟩ := h.rooted hr v hv.lt
      refine Term.below_var.mpr ?_
      cases hs with
      | free hfree => exact absurd hfree hv.not_unbound
      | found hbound hs => exact absurd (congrArg Term.kind (hbound.unique hv)) hs
      | next hbound rest =>
        cases hbound.unique hv
        exact rest.lt
    | _ => cases hkind
  -- a term to which a variable leads is bound to some variable in the other store as well
  · rcases ((h.value v t hkind).mp (hv.leads hkind)).stored with ⟨-, rfl⟩ | ⟨w, hw⟩
    · exact absurd rfl hkind
    · exact h.size ▸ hc w t hw

theorem proper (h : cells.Equivalent cells') (hp : cells.Proper) : cells'.Proper := by
  obtain ⟨σ, hσ⟩ := hp.acyclic.exists_resolves Reading.exact id
  exact ⟨h.closed hp.rooted hp.closed,
    acyclic_of_solves (h.rooted hp.rooted) ((h.solves hp.rooted).mpr hσ.solves)⟩

/-- The roots of one term are counterparts. -/
theorem counterparts (h : cells.Equivalent cells') (hb : cells.Root a b)
    (ht : cells'.Root a t) : Counterparts cells cells' b t := by
  by_cases ha : a.kind = .var
  · cases a with
    | var v =>
      by_cases hkind : b.kind = .var
      · cases b with
        | var x =>
          -- an unbound variable is an alias of itself, so it has an end in the other store too
          obtain ⟨x', hvx', -⟩ := (h.aliased v v).mpr ⟨x, hb, hb⟩
          cases Leads.unique ht hvx'
          refine .vars (Leads.isEnd hb x rfl) (hvx'.isEnd x' rfl) fun w =>
            ⟨fun hw => ?_, fun hw => ?_⟩
          · exact ((h.aliased w v).mp ⟨x', hw, hvx'⟩).leads hb
          · exact ((h.aliased w v).mpr ⟨x, hw, hb⟩).leads hvx'
        | _ => cases hkind
      · cases Leads.unique ht ((h.value v b hkind).mpr hb)
        exact .term hkind
    | _ => cases ha
  · rw [root_of_kind ha] at hb ht
    subst hb ht
    exact .term ha

section Bindings

variable (h : cells.Equivalent cells') (hx : Counterparts cells cells' (.var x) (.var x'))
include h hx

/-- Counterparts are bound to one node or leaf. -/
theorem set_term (ht : t.kind ≠ .var) :
    Equivalent (cells.setIfInBounds x (some t)) (cells'.setIfInBounds x' (some t)) := by
  have hne : ∀ z, t ≠ .var z := fun z h => ht (congrArg Term.kind h)
  cases hx with
  | term hkind => exact absurd rfl hkind
  | vars hx hx' hclass =>
    refine ⟨?_, fun v w => ?_, fun v s hs => ?_⟩
    · rw [Array.size_setIfInBounds, Array.size_setIfInBounds, h.size]
    · rw [aliased_set_term hx ht, aliased_set_term hx' ht, h.aliased, hclass]
    · have hs' : ∀ z, s ≠ .var z := fun z h => hs (congrArg Term.kind h)
      rw [leads_set hx (isEnd_of_kind ht) (hne x), leads_set hx' (isEnd_of_kind ht) (hne x'),
        hclass, h.value v s hs, and_iff_left (hs' x), and_iff_left (hs' x')]

/-- Of two variables each is bound to the other one, in one store the first and in the other store
the second. -/
theorem set_var (hy : Counterparts cells cells' (.var y) (.var y')) (hxy : x ≠ y) :
    Equivalent (cells.setIfInBounds x (some (.var y)))
      (cells'.setIfInBounds y' (some (.var x'))) := by
  cases hx with
  | term hkind => exact absurd rfl hkind
  | vars hx hx' hclassx =>
    cases hy with
    | term hkind => exact absurd rfl hkind
    | vars hy hy' hclassy =>
      -- the ends differ in both stores or in neither
      have hxy' : y' ≠ x' := by
        rintro rfl
        have hlead : cells.Leads y (.var x) := (hclassx y).mp ((hclassy y).mpr hy.leads)
        exact hxy (Term.var.inj (hlead.unique hy.leads))
      refine ⟨?_, fun v w => ?_, fun v s hs => ?_⟩
      · rw [Array.size_setIfInBounds, Array.size_setIfInBounds, h.size]
      · rw [aliased_set_var hx hy hxy, aliased_set_var hy' hx' hxy', h.aliased]
        simp only [LeadsToEither, hclassx, hclassy, or_comm]
      · have hs' : ∀ z, s ≠ .var z := fun z h => hs (congrArg Term.kind h)
        have hne : Term.var y ≠ .var x := fun h => hxy (Term.var.inj h).symm
        have hne' : Term.var x' ≠ .var y' := fun h => hxy' (Term.var.inj h).symm
        simp only [leads_set hx (isEnd_var hy) hne, leads_set hy' (isEnd_var hx') hne',
          h.value v s hs, hs', and_false, false_or, ne_eq, not_false_eq_true, and_true]

end Bindings

/-- A variable that occurs in the value of a term has its counterpart in the value in the other
store. -/
theorem occurs_of_occurs (h : cells.Equivalent cells') (hp : cells.Proper)
    (hτ : cells.Resolves r id τ) (hτ' : cells'.Resolves r id τ')
    (hx : Counterparts cells cells' (.var x) (.var x')) (ht : t.Below cells.size)
    (hocc : (t.under r τ).Occurs x) : (t.under r τ').Occurs x' := by
  cases hx with
  | term hkind => exact absurd rfl hkind
  | vars hx hx' hclass =>
    have hsolves : cells.Solves r τ' := (h.solves hp.rooted).mp hτ'.solves
    have hname : τ' x = .var x' :=
      (hτ'.solves.leads ((hclass x).mpr hx.leads)).trans (hτ'.unbound x' hx')
    rw [hτ.factor_under hp hsolves ht]
    exact hocc.subst (hname ▸ .here)

/-- Counterparts occur in the same resolved terms. -/
theorem occurs_iff (h : cells.Equivalent cells') (hp : cells.Proper) (hτ : cells.Resolves r id τ)
    (hτ' : cells'.Resolves r id τ') (hx : Counterparts cells cells' (.var x) (.var x'))
    (ht : t.Below cells.size) : (t.under r τ').Occurs x' ↔ (t.under r τ).Occurs x :=
  ⟨h.symm.occurs_of_occurs (h.proper hp) hτ' hτ hx.symm (h.size ▸ ht),
    h.occurs_of_occurs hp hτ hτ' hx ht⟩

end Equivalent

end Cells

end Horn
