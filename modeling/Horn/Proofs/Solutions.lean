import Mathlib.Data.Finset.Card
import Mathlib.Data.Finset.Range
import Mathlib.Order.WellFounded
import Horn.Proofs.Chains
import Horn.Proofs.Trees

/-!
# Solutions of a store

The bindings of a store are equations between its variables and the terms they are bound to. A
substitution by finite trees that satisfies all of them is a solution. A store whose bindings are
acyclic has one, in which unbound variables stand for themselves, and every other solution is an
instance of it; a store with a solution is acyclic.

- `Cells.Solves`, `Cells.Acyclic`, `Cells.Proper`: solutions, and the stores that have them.
- `Cells.Resolves`: the solution in which the unbound variables are given names.
- `Cells.Acyclic.exists_resolves`, `Cells.Resolves.factor`: it exists and is most general.
- `Cells.acyclic_of_solves`: bindings that have a solution are acyclic.
- `Cells.Resolves.set`: binding a variable composes the solution with a substitution.
-/

namespace Horn

namespace Tree

variable {ν : Type}

/-- The substitution that replaces one variable. -/
def single (v : Nat) (t : Tree ν) (w : Nat) : Tree ν := if w = v then t else var w

@[simp]
theorem single_self (v : Nat) (t : Tree ν) : single v t v = t := if_pos rfl

theorem single_of_ne {v w : Nat} (h : w ≠ v) (t : Tree ν) : single v t w = var w := if_neg h

/-- Replacing a variable that does not occur changes nothing. -/
theorem subst_single_of_not_occurs {v : Nat} {t u : Tree ν} (h : ¬Occurs v u) :
    u.subst (single v t) = u :=
  subst_eq_self fun _ hw => single_of_ne (by rintro rfl; exact h hw) t

end Tree

namespace Cells

variable {ν : Type} {r : Reading ν} {cells cells' : Cells} {ρ : Nat → Nat} {σ τ : Nat → Tree ν}
  {u v w : Nat} {s t : Term}

/-- Every bound variable stands for what the term that it is bound to stands for. -/
def Solves (r : Reading ν) (cells : Cells) (σ : Nat → Tree ν) : Prop :=
  ∀ v t, cells.Bound v t → σ v = t.under r σ

/-- The variable `w` occurs in what `v` is bound to. -/
def Uses (cells : Cells) (v w : Nat) : Prop := ∃ t, cells.Bound v t ∧ Term.Within (.var w) t

/-- Following bindings, through the arguments of nodes as well, always ends. -/
def Acyclic (cells : Cells) : Prop := WellFounded fun w v => cells.Uses v w

/-- Bindings mention allocated variables only and are not cyclic. -/
structure Proper (cells : Cells) : Prop where
  closed : cells.Closed
  acyclic : cells.Acyclic

/-- The solution in which an unbound variable `v` stands for the variable `ρ v`. -/
structure Resolves (r : Reading ν) (cells : Cells) (ρ : Nat → Nat) (σ : Nat → Tree ν) : Prop where
  solves : cells.Solves r σ
  unbound : ∀ v, cells.Unbound v → σ v = .var (ρ v)

/-! ## Solutions and chains -/

/-- A solution does not change along a chain. -/
theorem Solves.leads (h : cells.Solves r σ) (hv : cells.Leads v t) : σ v = t.under r σ := by
  obtain ⟨n, hv⟩ := hv
  induction hv with
  | free _ => rfl
  | found hv _ => exact h _ _ hv
  | next hv _ ih => exact (h _ _ hv).trans ih

/-- A solution gives a term what it gives the root of the term. -/
theorem Solves.root (h : cells.Solves r σ) (ht : cells.Root t s) : t.under r σ = s.under r σ := by
  cases t with
  | var v => exact h.leads ht
  | _ => rw [show s = _ from ht]

/-- A substitution that does not change along any chain is a solution. -/
theorem solves_of_leads (hr : cells.Rooted) (h : ∀ v t, cells.Leads v t → σ v = t.under r σ) :
    cells.Solves r σ := by
  intro v t hv
  by_cases hkind : t.kind = .var
  · cases t with
    | var w =>
      obtain ⟨s, hs⟩ := hr v hv.lt
      -- the chain of `v` goes on from the variable that it is bound to
      have hws : cells.Leads w s := by
        obtain ⟨n, hn⟩ := hs
        cases hn with
        | free hfree => exact absurd hfree hv.not_unbound
        | found hbound hs => exact absurd (congrArg Term.kind (hbound.unique hv)) hs
        | next hbound rest =>
          cases hbound.unique hv
          exact ⟨_, rest⟩
      exact (h v s hs).trans (h w s hws).symm
    | _ => cases hkind
  · exact h v t (hv.leads hkind)

/-- Shortening chains leaves the solutions as they are. -/
theorem Compressed.solves (h : cells.Compressed cells') (hr : cells.Rooted) :
    cells'.Solves r σ ↔ cells.Solves r σ := by
  constructor
  · intro hσ
    exact solves_of_leads hr fun v t hv => hσ.leads ((h.leads v t).mpr hv)
  · intro hσ
    exact solves_of_leads (h.rooted hr) fun v t hv => hσ.leads ((h.leads v t).mp hv)

theorem Compressed.resolves (h : cells.Compressed cells') (hr : cells.Rooted) :
    cells'.Resolves r ρ σ ↔ cells.Resolves r ρ σ := by
  constructor
  · exact fun hσ => ⟨(h.solves hr).mp hσ.solves, fun v hv => hσ.unbound v (h.unbound.mpr hv)⟩
  · exact fun hσ => ⟨(h.solves hr).mpr hσ.solves, fun v hv => hσ.unbound v (h.unbound.mp hv)⟩

/-- An instance of a solution is a solution. -/
theorem Solves.subst (h : cells.Solves r σ) (δ : Nat → Tree ν) :
    cells.Solves r fun v => (σ v).subst δ := by
  intro v t hv
  show (σ v).subst δ = _
  rw [h v t hv, Term.under_subst]

/-! ## Acyclic bindings -/

/-- In a proper store all chains end. -/
theorem Proper.rooted (h : cells.Proper) : cells.Rooted := by
  intro v
  induction v using h.acyclic.induction with
  | _ v ih =>
    intro hv
    rcases bound_or_unbound hv with ⟨t, ht⟩ | hfree
    · by_cases hkind : t.kind = .var
      · cases t with
        | var w =>
          obtain ⟨r, hr⟩ := ih w ⟨_, ht, .here⟩ (h.closed v _ ht).here
          exact ⟨r, ht.leads_next hr⟩
        | _ => cases hkind
      · exact ⟨t, ht.leads hkind⟩
    · exact ⟨_, hfree.leads⟩

/-- Bindings that have a solution are acyclic: whatever a variable uses stands for a smaller tree,
or for the same one and is nearer to the end of the chain. -/
theorem acyclic_of_solves (hr : cells.Rooted) (h : cells.Solves r σ) : cells.Acyclic := by
  have hacc : ∀ n v, (σ v).size = n → Acc (fun w v => cells.Uses v w) v := by
    intro n
    induction n using Nat.strong_induction_on with
    | _ n ihsize =>
      intro v hn
      by_cases hv : v < cells.size
      · obtain ⟨t, m, hchain⟩ := hr v hv
        -- along a chain the tree stays the same, so the induction there is on the chain
        induction hchain with
        | free hfree => exact ⟨_, fun w ⟨s, hs, _⟩ => absurd hfree hs.not_unbound⟩
        | @found v t hbound hkind =>
          refine ⟨_, fun w ⟨s, hs, hw⟩ => ihsize (σ w).size ?_ w rfl⟩
          cases hbound.unique hs
          rw [← hn, h v t hbound]
          exact Term.size_lt_of_within hw fun htw => hkind (congrArg Term.kind htw)
        | @next m v x t hbound rest ih =>
          refine ⟨_, fun w ⟨s, hs, hw⟩ => ?_⟩
          cases hbound.unique hs
          cases hw.eq_of_arguments_nil rfl
          exact ih (by rw [← hn, h v _ hbound]; rfl) rest.lt
      · exact ⟨_, fun w ⟨s, hs, _⟩ => absurd hs.lt hv⟩
  exact ⟨fun v => hacc _ v rfl⟩

/-- Acyclic bindings have a solution for any names of the unbound variables. -/
theorem Acyclic.exists_resolves (h : cells.Acyclic) (r : Reading ν) (ρ : Nat → Nat) :
    ∃ σ, cells.Resolves r ρ σ := by
  classical
  let resolved (v : Nat) (ofUsed : ∀ w, cells.Uses v w → Tree ν) : Tree ν :=
    if hv : ∃ t, cells.Bound v t then
      hv.choose.under r fun w =>
        if hw : Term.Within (.var w) hv.choose then ofUsed w ⟨_, hv.choose_spec, hw⟩ else .var w
    else .var (ρ v)
  have hwf : WellFounded fun w v => cells.Uses v w := h
  -- what a variable stands for is made by recursion over the variables that it uses
  have hfix : ∀ v, hwf.fix resolved v = resolved v fun w _ => hwf.fix resolved w :=
    hwf.fix_eq resolved
  refine ⟨hwf.fix resolved, fun v t hv => ?_, fun v hv => ?_⟩
  · have hex : ∃ t, cells.Bound v t := ⟨t, hv⟩
    have ht : hex.choose = t := hex.choose_spec.unique hv
    rw [hfix]
    dsimp only [resolved]
    rw [dif_pos hex, ht]
    exact Term.under_congr fun w hw => dif_pos hw
  · have hnone : ¬∃ t, cells.Bound v t := fun ⟨t, ht⟩ => ht.not_unbound hv
    rw [hfix]
    exact dif_neg hnone

/-- Of the ends of chains, only unbound variables stand for variables. -/
theorem Resolves.of_under_eq_var (h : cells.Resolves r ρ σ) (ht : cells.IsEnd t)
    (heq : t.under r σ = .var u) : ∃ w, t = .var w ∧ cells.Unbound w ∧ ρ w = u := by
  cases t with
  | var w =>
    rw [Term.under_var, h.unbound w (ht w rfl)] at heq
    exact ⟨w, rfl, ht w rfl, Tree.var.inj heq⟩
  | compound i f x xs =>
    rw [Term.under_compound] at heq
    cases heq
  | _ => cases heq

/-- Every solution is an instance of the one in which unbound variables stand for themselves. -/
theorem Resolves.factor (h : cells.Proper) (hτ : cells.Resolves r id τ) (hσ : cells.Solves r σ)
    (hv : v < cells.size) : σ v = (τ v).subst σ := by
  induction v using h.acyclic.induction with
  | _ v ih =>
    rcases bound_or_unbound hv with ⟨t, ht⟩ | hfree
    · rw [hσ v t ht, hτ.solves v t ht, Term.under_subst]
      exact Term.under_congr fun w hw => ih w ⟨t, ht, hw⟩ (Term.Below.lt (h.closed v t ht) hw)
    · rw [hτ.unbound v hfree]
      rfl

/-- The same for terms over the store. -/
theorem Resolves.factor_under (h : cells.Proper) (hτ : cells.Resolves r id τ)
    (hσ : cells.Solves r σ) (ht : t.Below cells.size) :
    t.under r σ = (t.under r τ).subst σ := by
  rw [Term.under_subst]
  exact Term.under_congr fun v hv => hτ.factor h hσ (ht.lt hv)

/-- The names of the unbound variables decide what all variables stand for. -/
theorem Resolves.unique (h : cells.Proper) (hσ : cells.Resolves r ρ σ) (hτ : cells.Resolves r ρ τ)
    (hv : v < cells.size) : σ v = τ v := by
  induction v using h.acyclic.induction with
  | _ v ih =>
    rcases bound_or_unbound hv with ⟨t, ht⟩ | hfree
    · rw [hσ.solves v t ht, hτ.solves v t ht]
      exact Term.under_congr fun w hw => ih w ⟨t, ht, hw⟩ (Term.Below.lt (h.closed v t ht) hw)
    · rw [hσ.unbound v hfree, hτ.unbound v hfree]

/-- Other names for the unbound variables. -/
theorem Resolves.rename (h : cells.Resolves r id τ) (ρ : Nat → Nat) :
    cells.Resolves r ρ fun v => (τ v).rename ρ := by
  refine ⟨h.solves.subst _, fun v hv => ?_⟩
  show (τ v).rename ρ = _
  rw [h.unbound v hv]
  rfl

/-- Node identities are left aside. -/
theorem Resolves.bare {σ : Nat → Tree Nat} (h : cells.Resolves .marked ρ σ) :
    cells.Resolves .exact ρ fun v => (σ v).bare := by
  refine ⟨fun v t hv => ?_, fun v hv => ?_⟩
  · show (σ v).bare = _
    rw [h.solves v t hv, Term.bare_under]
  · show (σ v).bare = _
    rw [h.unbound v hv]
    rfl

/-- A proper store stays proper when its chains are shortened. -/
theorem Compressed.proper (h : cells.Compressed cells') (hp : cells.Proper) : cells'.Proper := by
  obtain ⟨σ, hσ⟩ := hp.acyclic.exists_resolves Reading.exact id
  exact ⟨h.closed hp.closed,
    acyclic_of_solves (h.rooted hp.rooted) ((h.solves hp.rooted).mpr hσ.solves)⟩

/-! ## Binding a variable -/

/-- Binding a variable adds an equation. -/
theorem solves_set (hv : cells.Unbound v) :
    Solves r (cells.setIfInBounds v (some t)) σ ↔ cells.Solves r σ ∧ σ v = t.under r σ := by
  constructor
  · intro h
    refine ⟨fun u s hu => h u s ?_, h v t ?_⟩
    · rw [bound_set hv.lt, if_neg]
      · exact hu
      · rintro rfl
        exact hu.not_unbound hv
    · rw [bound_set hv.lt, if_pos rfl]
  · rintro ⟨h, ht⟩ u s hu
    rw [bound_set hv.lt] at hu
    split at hu
    · rename_i huv
      rw [huv, hu, ht]
    · exact h u s hu

/-- The names of unbound variables stay if they are not replaced. -/
theorem Resolves.subst (h : cells.Resolves r ρ σ) {δ : Nat → Tree ν}
    (hδ : ∀ v, cells.Unbound v → δ (ρ v) = .var (ρ v)) :
    cells.Resolves r ρ fun v => (σ v).subst δ := by
  refine ⟨h.solves.subst δ, fun v hv => ?_⟩
  show (σ v).subst δ = _
  rw [h.unbound v hv, Tree.subst_var, hδ v hv]

/-- Binding a variable whose name does not occur in what it is bound to replaces the name
everywhere. -/
theorem Resolves.set (h : cells.Resolves r ρ σ) (hv : cells.Unbound v)
    (hρ : ∀ u, cells.Unbound u → ρ u = ρ v → u = v) (ht : ¬(t.under r σ).Occurs (ρ v)) :
    Resolves r (cells.setIfInBounds v (some t)) ρ
      fun u => (σ u).subst (Tree.single (ρ v) (t.under r σ)) := by
  refine ⟨(solves_set hv).mpr ⟨h.solves.subst _, ?_⟩, fun u hu => ?_⟩
  · show (σ v).subst _ = _
    rw [← Term.under_subst, Tree.subst_single_of_not_occurs ht, h.unbound v hv]
    exact Tree.single_self _ _
  · obtain ⟨huv, hu⟩ := (unbound_set hv.lt).mp hu
    show (σ u).subst _ = _
    rw [h.unbound u hu]
    exact Tree.single_of_ne (fun heq => huv (hρ u hu heq)) _

/-- A binding keeps a store proper if there is a solution that satisfies it. -/
theorem Proper.set_of_solves (h : cells.Proper) (hv : cells.Unbound v) (ht : cells.IsEnd t)
    (hbelow : t.Below cells.size) (hne : t ≠ .var v) (hσ : cells.Solves r σ)
    (heq : σ v = t.under r σ) : Proper (cells.setIfInBounds v (some t)) :=
  ⟨h.closed.set hbelow, acyclic_of_solves (h.rooted.set hv ht hne) ((solves_set hv).mpr ⟨hσ, heq⟩)⟩

/-- A binding keeps a store proper if the variable does not occur in the resolved term. -/
theorem Proper.set (h : cells.Proper) (hv : cells.Unbound v) (ht : cells.IsEnd t)
    (hbelow : t.Below cells.size) (hτ : cells.Resolves r id τ) (hocc : ¬(t.under r τ).Occurs v) :
    Proper (cells.setIfInBounds v (some t)) := by
  have hne : t ≠ .var v := by
    rintro rfl
    rw [Term.under_var, hτ.unbound v hv] at hocc
    exact hocc .here
  -- the resolved solution, composed with the binding, shows that the bindings are acyclic
  have hset := hτ.set hv (fun u _ huv => huv) hocc
  exact ⟨h.closed.set hbelow, acyclic_of_solves (h.rooted.set hv ht hne) hset.solves⟩

/-- A store in which variables are bound to terms over older variables is proper. -/
theorem proper_of_below (h : ∀ v t, cells.Bound v t → t.Below v) : cells.Proper where
  closed v t hv := (h v t hv).mono (Nat.le_of_lt hv.lt)
  acyclic := Subrelation.wf (fun {_ v} ⟨t, ht, hw⟩ => (h v t ht).lt hw) Nat.lt_wfRel.wf

/-! ## Counting unbound variables -/

/-- The unbound variables. -/
def unboundVars (cells : Cells) : Finset Nat :=
  (Finset.range cells.size).filter fun v => cells[v]?.join.isNone

theorem mem_unboundVars : v ∈ cells.unboundVars ↔ cells.Unbound v := by
  rw [unboundVars, Finset.mem_filter, Finset.mem_range, Unbound]
  constructor
  · rintro ⟨hv, hnone⟩
    rw [Array.getElem?_eq_getElem hv] at hnone ⊢
    simpa using hnone
  · intro h
    exact ⟨Unbound.lt h, by rw [h]; rfl⟩

theorem Compressed.unboundVars (h : cells.Compressed cells') :
    cells'.unboundVars = cells.unboundVars := by
  ext v
  rw [mem_unboundVars, mem_unboundVars, h.unbound]

/-- A binding leaves fewer variables unbound. -/
theorem card_unboundVars_set (hv : cells.Unbound v) :
    (Cells.unboundVars (cells.setIfInBounds v (some t))).card < cells.unboundVars.card := by
  refine Finset.card_lt_card (Finset.ssubset_iff_subset_ne.mpr ⟨fun u hu => ?_, fun heq => ?_⟩)
  · rw [mem_unboundVars, unbound_set hv.lt] at hu
    exact mem_unboundVars.mpr hu.2
  · have hmem := heq ▸ mem_unboundVars.mpr hv
    rw [mem_unboundVars, unbound_set hv.lt] at hmem
    exact hmem.1 rfl

end Cells

end Horn
