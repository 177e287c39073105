import Mathlib.Data.Fintype.Card
import Horn.Proofs.Journal
import Horn.Proofs.Subterms

/-!
# Chains of bindings

Where the bindings of a variable lead, as a relation, and that dereferencing computes it. A chain
is never longer than there are cells, so the bound on the number of steps is no restriction, and
shortening chains does not change where they lead.

- `Cells.Leads`, `Cells.Root`: the end of a chain.
- `Cells.Rooted`: all chains end.
- `Cells.Compressed`: cells that differ only in how chains get to their ends.
- `Store.Shortened`: what a store becomes when chains are shortened one write at a time.
- `deref_shortens`, `deref_run`: dereferencing returns the end of the chain, and shortens chains.
- `Cells.leads_set`: where chains lead after an unbound variable is bound.
- `Store.Derefs`: what dereferencing a variable gives; `Store.derefs_iff`: where the variable leads.
-/

namespace Horn

namespace Cells

/-- Following bindings from a variable over `n` cells ends in an unbound variable or in a term that
is no variable. -/
inductive Chain (cells : Cells) : Nat → Nat → Term → Prop where
  | free {v : Nat} (h : cells.Unbound v) : Chain cells 1 v (.var v)
  | found {v : Nat} {t : Term} (h : cells.Bound v t) (ht : t.kind ≠ .var) : Chain cells 1 v t
  | next {n v w : Nat} {t : Term} (h : cells.Bound v (.var w)) (rest : Chain cells n w t) :
      Chain cells (n + 1) v t

/-- The bindings of the variable lead to the term. -/
def Leads (cells : Cells) (v : Nat) (t : Term) : Prop := ∃ n, cells.Chain n v t

/-- What a term is once its bindings are followed. -/
def Root (cells : Cells) (t r : Term) : Prop :=
  match t with
  | .var v => cells.Leads v r
  | _ => r = t

/-- All chains end. -/
def Rooted (cells : Cells) : Prop := ∀ v < cells.size, ∃ r, cells.Leads v r

/-- Something that chains can end in: an unbound variable, or a term that is no variable. -/
def IsEnd (cells : Cells) (t : Term) : Prop := ∀ w, t = .var w → cells.Unbound w

variable {cells cells' cells'' : Cells} {u v w m n : Nat} {r s t : Term}

theorem isEnd_of_kind (h : t.kind ≠ .var) : cells.IsEnd t := by
  rintro w rfl
  exact absurd rfl h

theorem isEnd_var (h : cells.Unbound v) : cells.IsEnd (.var v) := by
  rintro w ⟨⟩
  exact h

theorem Chain.lt (h : cells.Chain n v t) : v < cells.size := by
  cases h with
  | free h => exact h.lt
  | found h _ => exact h.lt
  | next h _ => exact h.lt

theorem Chain.isEnd (h : cells.Chain n v t) : cells.IsEnd t := by
  induction h with
  | free h => exact isEnd_var h
  | found _ ht => exact isEnd_of_kind ht
  | next _ _ ih => exact ih

/-- A variable has one chain. -/
theorem Chain.unique (h : cells.Chain n v t) (h' : cells.Chain m v s) : n = m ∧ t = s := by
  induction h generalizing m with
  | free h =>
    cases h' with
    | free _ => exact ⟨rfl, rfl⟩
    | found h' _ => exact absurd h h'.not_unbound
    | next h' _ => exact absurd h h'.not_unbound
  | found h ht =>
    cases h' with
    | free h' => exact absurd h' h.not_unbound
    | found h' _ => exact ⟨rfl, h.unique h'⟩
    | next h' _ => exact absurd (congrArg Term.kind (h.unique h')) ht
  | next h _ ih =>
    cases h' with
    | free h' => exact absurd h' h.not_unbound
    | found h' ht => exact absurd (congrArg Term.kind (h'.unique h)) ht
    | next h' rest =>
      cases h.unique h'
      obtain ⟨rfl, rfl⟩ := ih rest
      exact ⟨rfl, rfl⟩

/-- A chain passes through cells from which there is one step less to go, and so on. -/
theorem Chain.exists_shorter (h : cells.Chain n v t) :
    ∀ m, 0 < m → m ≤ n → ∃ w, cells.Chain m w t := by
  induction h with
  | free h => exact fun m hm hmn => ⟨_, by cases (show m = 1 by omega); exact .free h⟩
  | found h ht => exact fun m hm hmn => ⟨_, by cases (show m = 1 by omega); exact .found h ht⟩
  | @next n v w t h rest ih =>
    intro m hm hmn
    rcases Nat.lt_or_eq_of_le hmn with hlt | rfl
    · exact ih m hm (by omega)
    · exact ⟨v, .next h rest⟩

/-- No chain is longer than there are cells: its cells have different distances from its end. -/
theorem Chain.length_le (h : cells.Chain n v t) : n ≤ cells.size := by
  have hcell : ∀ k : Fin n, ∃ w : Fin cells.size, cells.Chain (k + 1) w t := by
    intro k
    obtain ⟨w, hw⟩ := h.exists_shorter (k + 1) (Nat.succ_pos _) k.isLt
    exact ⟨⟨w, hw.lt⟩, hw⟩
  -- the cells that are `1, …, n` steps away from the end are different cells
  choose cell hchain using hcell
  have hinj : Function.Injective cell := by
    intro j k hjk
    have hlen := ((hchain j).unique (hjk ▸ hchain k)).1
    exact Fin.ext (by omega)
  simpa using Fintype.card_le_of_injective cell hinj

/-! ## Where variables lead -/

theorem Leads.lt (h : cells.Leads v t) : v < cells.size := h.choose_spec.lt

theorem Leads.isEnd (h : cells.Leads v t) : cells.IsEnd t := h.choose_spec.isEnd

theorem Leads.unique (h : cells.Leads v t) (h' : cells.Leads v s) : t = s :=
  (h.choose_spec.unique h'.choose_spec).2

theorem Unbound.leads (h : cells.Unbound v) : cells.Leads v (.var v) := ⟨1, .free h⟩

theorem Bound.leads (h : cells.Bound v t) (ht : t.kind ≠ .var) : cells.Leads v t := ⟨1, .found h ht⟩

/-- A chain through another variable leads where that one leads. -/
theorem Bound.leads_next (h : cells.Bound v (.var w)) (hw : cells.Leads w t) : cells.Leads v t := by
  obtain ⟨n, hn⟩ := hw
  exact ⟨n + 1, .next h hn⟩

/-- What is bound to an end leads to it. -/
theorem Bound.leads_end (h : cells.Bound v t) (ht : cells.IsEnd t) : cells.Leads v t := by
  cases t with
  | var w => exact h.leads_next (Unbound.leads (ht w rfl))
  | _ => exact h.leads Kind.noConfusion

/-- A variable is unbound if and only if it leads to itself. -/
theorem leads_self : cells.Leads v (.var v) ↔ cells.Unbound v :=
  ⟨fun h => h.isEnd v rfl, Unbound.leads⟩

/-- What a bound variable leads to is bound to some variable. -/
theorem Leads.stored (h : cells.Leads v t) :
    cells.Unbound v ∧ t = .var v ∨ ∃ u, cells.Bound u t := by
  obtain ⟨n, h⟩ := h
  induction h with
  | free h => exact .inl ⟨h, rfl⟩
  | found h _ => exact .inr ⟨_, h⟩
  | @next n v w t h rest ih =>
    rcases ih with ⟨-, rfl⟩ | hu
    · exact .inr ⟨v, h⟩
    · exact .inr hu

/-- The root of a variable is the end of its chain. -/
theorem root_var : cells.Root (.var v) r ↔ cells.Leads v r := Iff.rfl

theorem root_of_kind (h : t.kind ≠ .var) : cells.Root t r ↔ r = t := by
  cases t with
  | var v => exact absurd rfl h
  | _ => exact Iff.rfl

theorem Root.unique (h : cells.Root t r) (h' : cells.Root t s) : r = s := by
  by_cases ht : t.kind = .var
  · cases t with
    | var v => exact Leads.unique h h'
    | _ => cases ht
  · rw [root_of_kind ht] at h h'
    rw [h, h']

theorem Root.isEnd (h : cells.Root t r) : cells.IsEnd r := by
  by_cases ht : t.kind = .var
  · cases t with
    | var v => exact Leads.isEnd h
    | _ => cases ht
  · rw [root_of_kind ht] at h
    exact h ▸ isEnd_of_kind ht

/-- If all chains end, every term over the cells has a root. -/
theorem Rooted.root (h : cells.Rooted) (ht : t.Below cells.size) : ∃ r, cells.Root t r := by
  cases t with
  | var v => exact h v ht.here
  | _ => exact ⟨_, rfl⟩

/-- The root of a term is the term or is bound somewhere, so it has the properties that those
have. -/
theorem Root.every {p : Term → Prop} (h : cells.Root t r) (hcells : cells.Every p)
    (ht : t.Every p) : r.Every p := by
  cases t with
  | var v =>
    rcases Leads.stored h with ⟨-, rfl⟩ | ⟨u, hu⟩
    · exact ht
    · exact hcells u r hu
  | _ => exact h ▸ ht

/-! ## Compression -/

/-- The cells that are left when some chains have been shortened: as many, with the same ends of
all chains, and with nothing bound that was not bound before. -/
structure Compressed (cells cells' : Cells) : Prop where
  size : cells'.size = cells.size
  leads : ∀ v t, cells'.Leads v t ↔ cells.Leads v t
  stored : ∀ v t, cells'.Bound v t → ∃ w, cells.Bound w t

namespace Compressed

theorem refl (cells : Cells) : cells.Compressed cells :=
  ⟨rfl, fun _ _ => Iff.rfl, fun v _ h => ⟨v, h⟩⟩

theorem trans (h : cells.Compressed cells') (h' : cells'.Compressed cells'') :
    cells.Compressed cells'' where
  size := h'.size.trans h.size
  leads v t := (h'.leads v t).trans (h.leads v t)
  stored v t hv := by
    obtain ⟨w, hw⟩ := h'.stored v t hv
    exact h.stored w t hw

/-- Shortening binds no unbound variable. -/
theorem unbound (h : cells.Compressed cells') : cells'.Unbound v ↔ cells.Unbound v := by
  rw [← leads_self, ← leads_self, h.leads]

/-- All that is bound after shortening was bound before, so what holds of every bound term goes on
holding. -/
theorem every {p : Term → Prop} (h : cells.Compressed cells') (hp : cells.Every p) :
    cells'.Every p := by
  intro v t hv
  obtain ⟨w, hw⟩ := h.stored v t hv
  exact hp w t hw

/-- **Roots stay where they are** when chains are shortened. -/
theorem root (h : cells.Compressed cells') : cells'.Root t r ↔ cells.Root t r := by
  cases t with
  | var v => exact h.leads v r
  | _ => exact Iff.rfl

theorem rooted (h : cells.Compressed cells') (hr : cells.Rooted) : cells'.Rooted := by
  intro v hv
  obtain ⟨r, hr⟩ := hr v (h.size ▸ hv)
  exact ⟨r, (h.leads v r).mpr hr⟩

theorem closed (h : cells.Compressed cells') (hc : cells.Closed) : cells'.Closed := by
  intro v t hv
  obtain ⟨w, hw⟩ := h.stored v t hv
  exact h.size ▸ hc w t hw

end Compressed

/-! ## Shortening a chain -/

section Shortening

variable (hv : cells.Bound v (.var w)) (hr : cells.Leads v r)
include hv hr

/-- A shortened chain leads where it led before. -/
theorem leads_of_shortened (h : Leads (cells.setIfInBounds v (some r)) u t) : cells.Leads u t := by
  obtain ⟨n, h⟩ := h
  induction h with
  | free h => exact ((unbound_set hv.lt).mp h).2.leads
  | @found u t h ht =>
    rw [bound_set hv.lt] at h
    split at h
    · rename_i huv
      exact huv ▸ h ▸ hr
    · exact h.leads ht
  | @next n u x t h rest ih =>
    rw [bound_set hv.lt] at h
    split at h
    · -- The new binding is to a variable, so that variable is the end.
      rename_i huv
      have hx : cells.Unbound x := hr.isEnd x h.symm
      cases ih.unique hx.leads
      exact huv ▸ h ▸ hr
    · exact h.leads_next ih

/-- Every chain still leads where it led before one was shortened. -/
theorem Leads.shortened (h : cells.Leads u t) : Leads (cells.setIfInBounds v (some r)) u t := by
  obtain ⟨n, h⟩ := h
  have hfree : ∀ u, cells.Unbound u → Unbound (cells.setIfInBounds v (some r)) u := fun u hu =>
    (unbound_set hv.lt).mpr ⟨fun huv => hv.not_unbound (huv ▸ hu), hu⟩
  have hother : ∀ {u t}, u ≠ v → cells.Bound u t → Bound (cells.setIfInBounds v (some r)) u t :=
    fun huv hu => (bound_set hv.lt).mpr (by rwa [if_neg huv])
  induction h with
  | free h => exact (hfree _ h).leads
  | @found u t h ht =>
    have huv : u ≠ v := by
      rintro rfl
      exact ht (congrArg Term.kind (h.unique hv))
    exact (hother huv h).leads ht
  | @next n u x t h rest ih =>
    -- a chain that passes the variable now takes one step to the end of it
    by_cases huv : u = v
    · have htr : t = r := Leads.unique (huv ▸ h.leads_next ⟨n, rest⟩) hr
      have hbound : Bound (cells.setIfInBounds v (some r)) u r :=
        (bound_set hv.lt).mpr (by rw [if_pos huv])
      exact htr ▸ hbound.leads_end fun y hy => hfree y (hr.isEnd y hy)
    · exact (hother huv h).leads_next ih

/-- Binding a variable to what it leads to is a compression. -/
theorem compressed_set : cells.Compressed (cells.setIfInBounds v (some r)) := by
  refine ⟨Array.size_setIfInBounds, fun u t => ⟨leads_of_shortened hv hr, Leads.shortened hv hr⟩,
    fun u t hu => ?_⟩
  rw [bound_set hv.lt] at hu
  split at hu
  · rcases hr.stored with ⟨hfree, -⟩ | hstored
    · exact absurd hfree hv.not_unbound
    · exact hu ▸ hstored
  · exact ⟨u, hu⟩

end Shortening

end Cells

/-- What a store becomes when variables that are bound to variables are bound to the ends of their
chains, one after the other. A variable that is bound to the end already is not written again. -/
inductive Store.Shortened (s : Store) : Store → Prop where
  | refl : Shortened s s
  | step {t : Store} {v w : Nat} {r : Term} (h : Shortened s t) (hv : t.cells.Bound v (.var w))
      (hr : t.cells.Leads v r) (hne : r ≠ .var w) : Shortened s (t.bound v r)

namespace Store.Shortened

variable {s t u : Store}

theorem trans (h : s.Shortened t) (h' : t.Shortened u) : s.Shortened u := by
  induction h' with
  | refl => exact h
  | step _ hv hr hne ih => exact .step ih hv hr hne

theorem compressed (h : s.Shortened t) : s.cells.Compressed t.cells := by
  induction h with
  | refl => exact .refl _
  | step _ hv hr _ ih => exact ih.trans (Cells.compressed_set hv hr)

end Store.Shortened

namespace Cells

variable {cells : Cells} {u v : Nat} {r t : Term}

/-! ## Binding -/

section Binding

variable (hv : cells.Unbound v) (ht : cells.IsEnd t) (hne : t ≠ .var v)
include hv ht hne

/-- The variable that is bound leads to what it is bound to. -/
theorem leads_set_self : Leads (cells.setIfInBounds v (some t)) v t := by
  have hbound : Bound (cells.setIfInBounds v (some t)) v t :=
    (bound_set hv.lt).mpr (by rw [if_pos rfl])
  refine hbound.leads_end fun y hy => (unbound_set hv.lt).mpr ⟨?_, ht y hy⟩
  rintro rfl
  exact hne hy

/-- A chain goes on being one, and goes on to `t` if it ended in the variable that is bound. -/
theorem Leads.set {s : Term} (h : cells.Leads u s) :
    (s = .var v → Leads (cells.setIfInBounds v (some t)) u t) ∧
      (s ≠ .var v → Leads (cells.setIfInBounds v (some t)) u s) := by
  obtain ⟨n, h⟩ := h
  have hother : ∀ {u s}, cells.Bound u s → Bound (cells.setIfInBounds v (some t)) u s :=
    fun {u s} hu => (bound_set hv.lt).mpr
      (by rwa [if_neg fun huv : u = v => hu.not_unbound (huv ▸ hv)])
  induction h with
  | @free u h =>
    constructor
    · rintro ⟨⟩
      exact leads_set_self hv ht hne
    · intro huv
      exact ((unbound_set hv.lt).mpr ⟨fun h => huv (congrArg Term.var h), h⟩).leads
  | @found u s h hs =>
    exact ⟨fun hsv => absurd (congrArg Term.kind hsv) hs, fun _ => (hother h).leads hs⟩
  | @next n u x s h rest ih =>
    exact ⟨fun hs => (hother h).leads_next (ih.1 hs), fun hs => (hother h).leads_next (ih.2 hs)⟩

/-- After an unbound variable is bound to another end, what led to it leads there. -/
theorem leads_set : Leads (cells.setIfInBounds v (some t)) u r ↔
    cells.Leads u (.var v) ∧ r = t ∨ cells.Leads u r ∧ r ≠ .var v := by
  constructor
  -- a chain of the new cells follows an old one, and passes through the new binding at most once
  · rintro ⟨n, h⟩
    induction h with
    | @free u h =>
      obtain ⟨huv, h⟩ := (unbound_set hv.lt).mp h
      exact .inr ⟨h.leads, fun h => huv (Term.var.inj h)⟩
    | @found u s h hs =>
      rw [bound_set hv.lt] at h
      split at h
      · rename_i huv
        exact .inl ⟨huv ▸ hv.leads, h⟩
      · exact .inr ⟨h.leads hs, fun hsv => hs (congrArg Term.kind hsv)⟩
    | @next n u x s h rest ih =>
      rw [bound_set hv.lt] at h
      split at h
      · -- The chain is the new binding, to a variable that is an end, so it stops there.
        rename_i huv
        have hx : cells.Unbound x := ht x h.symm
        have hxv : Term.var x ≠ .var v := h ▸ hne
        rcases ih with ⟨hlead, -⟩ | ⟨hlead, -⟩
        · exact absurd (hx.leads.unique hlead) hxv
        · exact .inl ⟨huv ▸ hv.leads, (hlead.unique hx.leads).trans h⟩
      · rcases ih with ⟨hlead, hs⟩ | ⟨hlead, hs⟩
        · exact .inl ⟨h.leads_next hlead, hs⟩
        · exact .inr ⟨h.leads_next hlead, hs⟩
  · rintro (⟨h, rfl⟩ | ⟨h, hr⟩)
    · exact (h.set hv ht hne).1 rfl
    · exact (h.set hv ht hne).2 hr

end Binding

/-- Binding an unbound variable to the end of a chain other than its own closes no chain. -/
theorem Rooted.set (h : cells.Rooted) (hv : cells.Unbound v) (ht : cells.IsEnd t)
    (hne : t ≠ .var v) : Rooted (cells.setIfInBounds v (some t)) := by
  intro u hu
  rw [Array.size_setIfInBounds] at hu
  obtain ⟨r, hr⟩ := h u hu
  by_cases hrv : r = .var v
  · exact ⟨t, (leads_set hv ht hne).mpr (.inl ⟨hrv ▸ hr, rfl⟩)⟩
  · exact ⟨r, (leads_set hv ht hne).mpr (.inr ⟨hr, hrv⟩)⟩

theorem Closed.set (h : cells.Closed) (ht : t.Below cells.size) :
    Closed (cells.setIfInBounds v (some t)) := by
  intro u s hu
  rw [Array.size_setIfInBounds]
  exact Every.set h ht u s hu

end Cells

/-! ## Dereferencing -/

section Dereferencing

variable {s : Store} {t r : Term}

/-- Following a chain takes as many steps as it has cells. -/
theorem Cells.Chain.chase {cells : Cells} {n v : Nat} {t : Term} (h : cells.Chain n v t) :
    ∀ fuel, n ≤ fuel → cells.chase fuel v = .ok t := by
  induction h with
  | @free v h =>
    intro fuel hfuel
    cases fuel with
    | zero => omega
    | succ fuel =>
      have hread : cells.read v = .ok none := by rw [Cells.read, h]
      simp [Cells.chase, hread, bind, Except.bind]
  | @found v t h ht =>
    intro fuel hfuel
    cases fuel with
    | zero => omega
    | succ fuel =>
      have hread : cells.read v = .ok (some t) := by rw [Cells.read, h]
      cases t with
      | var w => exact absurd rfl ht
      | _ => simp [Cells.chase, hread, bind, Except.bind]
  | @next n v w t h rest ih =>
    intro fuel hfuel
    cases fuel with
    | zero => omega
    | succ fuel =>
      have hread : cells.read v = .ok (some (.var w)) := by rw [Cells.read, h]
      simp [Cells.chase, hread, bind, Except.bind, ih fuel (by omega)]

/-- **Resolving** a term that has a root returns it. -/
theorem Cells.Root.resolve (h : s.cells.Root t r) : s.cells.resolve t = .ok r := by
  cases t with
  | var v =>
    obtain ⟨n, h⟩ := h
    exact h.chase _ (by have := h.length_le; omega)
  | _ => exact congrArg Except.ok (Eq.symm h)

/-- Shortening a chain binds its variables to its end, however far it gets. -/
theorem shorten_run : ∀ (fuel : Nat) {v : Nat} {s : Store}, s.cells.Leads v r →
    ∃ s', shorten r fuel v s = .ok ((), s') ∧ s.Shortened s'
  | 0, _, s, _ => ⟨s, rfl, .refl⟩
  | fuel + 1, v, s, h => by
    unfold shorten
    rcases Cells.bound_or_unbound h.lt with ⟨t, ht⟩ | hfree
    · rw [Run.bind_ok (Store.read_run ht)]
      cases t with
      | var w =>
        dsimp only
        split
        · exact ⟨s, rfl, .refl⟩
        · rename_i hsame
          have hne : r ≠ .var w := fun heq => hsame (heq ▸ Term.same_self _)
          have hstep : s.Shortened (s.bound v r) := .step .refl ht h hne
          -- the next variable still leads to the end, by what is left of the chain
          have hw : (s.bound v r).cells.Leads w r := by
            refine (hstep.compressed.leads w r).mpr ?_
            obtain ⟨n, hn⟩ := h
            cases hn with
            | free h => exact absurd h ht.not_unbound
            | found h hkind => exact absurd (congrArg Term.kind (h.unique ht)) hkind
            | next h rest =>
              cases h.unique ht
              exact ⟨_, rest⟩
          obtain ⟨s', hrun, hrest⟩ := shorten_run fuel hw
          refine ⟨s', ?_, hstep.trans hrest⟩
          rw [Run.bind_ok (Store.bind_run r h.lt), hrun]
      | _ => exact ⟨s, rfl, .refl⟩
    · rw [Run.bind_ok (Store.read_run hfree)]
      exact ⟨s, rfl, .refl⟩

/-- **Dereferencing.** The result is the root of the term, and chains are shortened. -/
theorem deref_shortens (h : s.cells.Root t r) :
    ∃ s', deref t s = .ok (r, s') ∧ s.Shortened s' := by
  cases t with
  | var v =>
    obtain ⟨s', hrun, hshort⟩ := shorten_run (s.cells.size + 1) (Cells.root_var.mp h)
    refine ⟨s', ?_, hshort⟩
    have hresolve : Store.resolve (.var v) s = .ok (r, s) := by
      rw [Store.resolve, h.resolve]
    have hsize : Store.size s = .ok (s.cells.size, s) := rfl
    show (Store.resolve (.var v) >>= fun result => Store.size >>= fun n =>
      shorten result (n + 1) v >>= fun _ => pure result) s = _
    rw [Run.bind_ok hresolve, Run.bind_ok hsize, Run.bind_ok hrun, Run.pure_run]
  | _ => exact ⟨s, by rw [show r = _ from h]; rfl, .refl⟩

/-- The terms of a pair are dereferenced one after the other. -/
theorem deref_pair {a b ra rb : Term} (ha : s.cells.Root a ra) (hb : s.cells.Root b rb) :
    ∃ s₁ s₂, deref a s = .ok (ra, s₁) ∧ deref b s₁ = .ok (rb, s₂) ∧ s.Shortened s₂ := by
  obtain ⟨s₁, hrun₁, hshort₁⟩ := deref_shortens ha
  obtain ⟨s₂, hrun₂, hshort₂⟩ := deref_shortens (hshort₁.compressed.root.mpr hb)
  exact ⟨s₁, s₂, hrun₁, hrun₂, hshort₁.trans hshort₂⟩

/-- The same, as far as it matters where chains lead: the cells are compressed. -/
theorem deref_run (h : s.cells.Root t r) :
    ∃ s', deref t s = .ok (r, s') ∧ s.cells.Compressed s'.cells := by
  obtain ⟨s', hrun, hshort⟩ := deref_shortens h
  exact ⟨s', hrun, hshort.compressed⟩

/-! ## Dereferencing, backwards -/

/-- If the chase along a chain ends, so does the chain. -/
theorem Cells.Chain.exists_of_chase {cells : Cells} : ∀ {fuel v : Nat} {t : Term},
    cells.chase fuel v = .ok t → ∃ n, cells.Chain n v t
  | 0, _, _, h => nomatch h
  | fuel + 1, v, t, h => by
    rw [Cells.chase] at h
    -- what the cell holds decides whether the chain ends here or goes on
    cases hread : cells[v]? with
    | none => simp [Cells.read, hread, bind, Except.bind] at h
    | some binding =>
      have hv : cells.read v = .ok binding := by rw [Cells.read, hread]
      rw [hv] at h
      cases binding with
      | none =>
        cases h
        exact ⟨1, .free hread⟩
      | some u =>
        cases u with
        | var w =>
          have hrest : cells.chase fuel w = .ok t := h
          obtain ⟨n, hn⟩ := exists_of_chase hrest
          exact ⟨n + 1, .next hread hn⟩
        | _ =>
          cases h
          exact ⟨1, .found hread Kind.noConfusion⟩

/-- If dereferencing ends, it has found the root, and it has shortened chains. -/
theorem root_of_deref {s' : Store} (h : deref t s = .ok (r, s')) :
    s.cells.Root t r ∧ s.Shortened s' := by
  have hroot : ∃ root, s.cells.Root t root := by
    cases t with
    | var v =>
      obtain ⟨root, s₁, hresolve, -⟩ := Run.bind_eq_ok.mp
        (show (Store.resolve (.var v) >>= fun result => Store.size >>= fun n =>
          shorten result (n + 1) v >>= fun _ => pure result) s = _ from h)
      exact ⟨root, Cells.Chain.exists_of_chase (Store.eq_of_resolve hresolve).2⟩
    | _ => exact ⟨_, rfl⟩
  obtain ⟨root, hroot⟩ := hroot
  obtain ⟨s₁, hrun, hshort⟩ := deref_shortens hroot
  cases hrun.symm.trans h
  exact ⟨hroot, hshort⟩

/-- Dereferencing the variable gives the term. -/
def Store.Derefs (s : Store) (v : Nat) (t : Term) : Prop := ∃ s', deref (.var v) s = .ok (t, s')

/-- Dereferencing a variable gives what it leads to. -/
theorem Store.derefs_iff {v : Nat} : s.Derefs v t ↔ s.cells.Leads v t := by
  constructor
  · rintro ⟨s', hrun⟩
    exact (root_of_deref hrun).1
  · intro h
    obtain ⟨s', hrun, -⟩ := deref_shortens (Cells.root_var.mpr h)
    exact ⟨s', hrun⟩

end Dereferencing

end Horn
