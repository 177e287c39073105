import Horn.Proofs.Copies

/-!
# Well-formed stores

A store is well formed if the terms in its cells mention allocated variables only and every chain of
bindings ends. Terms may be cyclic: without the occurs check a variable may come to be bound to a
node in which it occurs. The engine changes a store in three ways only, by allocating a variable, by
shortening a chain, and by binding an unbound variable to the end of another chain or to a new node.
Each of them keeps it well formed, and none changes where a chain leads that ends in a node or a
leaf.

- `Cells.WellFormed`: the stores in which variables can be followed.
- `Store.Grows`: what the engine can make of a store, one write at a time.
- `Store.Grows.wellFormed`: it keeps a store well formed.
- `Store.Grows.root`: it keeps the roots of terms that are no variables.
- `Cells.WellFormed.deref`: in a well-formed store every term can be dereferenced.
-/

namespace Horn

namespace Cells

/-- The terms that are bound mention allocated variables only, and all chains end. -/
structure WellFormed (cells : Cells) : Prop where
  closed : cells.Closed
  rooted : cells.Rooted

variable {cells cells' : Cells} {v : Nat} {r t : Term}

theorem wellFormed_empty : WellFormed #[] where
  closed _ _ hv := nomatch hv
  rooted _ hv := nomatch hv

/-- A proper store is well formed: its cells are closed, and its chains end. -/
theorem Proper.wellFormed (h : cells.Proper) : cells.WellFormed := ⟨h.closed, h.rooted⟩

/-- Every term over a well-formed store has a root, which is over the store as well. -/
theorem WellFormed.root (h : cells.WellFormed) (ht : t.Below cells.size) :
    ∃ r, cells.Root t r ∧ r.Below cells.size := by
  obtain ⟨r, hr⟩ := h.rooted.root ht
  exact ⟨r, hr, hr.every h.closed ht⟩

theorem Compressed.wellFormed (h : cells.Compressed cells') (hc : cells.WellFormed) :
    cells'.WellFormed := ⟨h.closed hc.closed, h.rooted hc.rooted⟩

/-- New variables are no part of the chains that there are. -/
theorem Extended.leads (h : cells.Extended cells') (hv : cells.Leads v t) : cells'.Leads v t := by
  obtain ⟨n, hv⟩ := hv
  induction hv with
  | free hv => exact (h.unbound hv).leads
  | found hv ht => exact (h.bound.mpr hv).leads ht
  | next hv _ ih => exact (h.bound.mpr hv).leads_next ih

/-- New variables keep a store well formed. -/
theorem Extended.wellFormed (h : cells.Extended cells') (hc : cells.WellFormed) :
    cells'.WellFormed where
  closed v t hv := Term.Below.mono (hc.closed v t (h.bound.mp hv)) h.le
  rooted v hv := by
    by_cases hold : v < cells.size
    · obtain ⟨r, hr⟩ := hc.rooted v hold
      exact ⟨r, h.leads hr⟩
    · exact ⟨_, (h.new v (Nat.le_of_not_lt hold) hv).leads⟩

/-- Nothing that is written makes a chain return to itself: what is bound is unbound before, and
what it is bound to is an end. -/
theorem WellFormed.set (h : cells.WellFormed) (hv : cells.Unbound v) (ht : cells.IsEnd t)
    (hbelow : t.Below cells.size) (hne : t ≠ .var v) :
    WellFormed (cells.setIfInBounds v (some t)) :=
  ⟨h.closed.set hbelow, h.rooted.set hv ht hne⟩

end Cells

namespace Store

/-- What the engine can make of a store, one write at a time. -/
inductive Grows (s : Store) : Store → Prop where
  | refl : Grows s s
  | alloc {t : Store} (h : Grows s t) : Grows s t.allocated
  /-- A variable of a chain is bound to its end, if it is bound to another variable. -/
  | shorten {t : Store} {v w : Nat} {r : Term} (h : Grows s t) (hv : t.cells.Bound v (.var w))
      (hr : t.cells.Leads v r) (hend : r ≠ .var w) : Grows s (t.bound v r)
  /-- An unbound variable is bound to another one, or to a term that is no variable. -/
  | bind {t : Store} {v : Nat} {u : Term} (h : Grows s t) (hv : t.cells.Unbound v)
      (hu : t.cells.IsEnd u) (hbelow : u.Below t.cells.size) (hne : u ≠ .var v) :
      Grows s (t.bound v u)

variable {s t u : Store} {v : Nat} {a r : Term}

theorem Shortened.grows (h : s.Shortened t) : s.Grows t := by
  induction h with
  | refl => exact .refl
  | step _ hv hr hend ih => exact .shorten ih hv hr hend

theorem Allocates.grows (h : s.Allocates t) : s.Grows t := by
  induction h with
  | refl => exact .refl
  | alloc _ ih => exact .alloc ih

namespace Grows

theorem trans (h : s.Grows t) (h' : t.Grows u) : s.Grows u := by
  induction h' with
  | refl => exact h
  | alloc _ ih => exact .alloc ih
  | shorten _ hv hr hend ih => exact .shorten ih hv hr hend
  | bind _ hv hu hbelow hne ih => exact .bind ih hv hu hbelow hne

/-- Every write is in the journal. -/
theorem recorded (h : s.Grows t) : s.Recorded t := by
  induction h with
  | refl => exact .refl
  | alloc _ ih => exact .alloc ih
  | shorten _ hv _ _ ih => exact .bind _ _ ih hv.lt
  | bind _ hv _ _ _ ih => exact .bind _ _ ih hv.lt

/-- **A well-formed store stays well formed**, whatever the engine does to it. -/
theorem wellFormed (h : s.Grows t) (hs : s.cells.WellFormed) : t.cells.WellFormed := by
  induction h with
  | refl => exact hs
  | alloc _ ih => exact (Cells.Extended.push _).wellFormed ih
  | shorten _ hv hr _ ih => exact (Cells.compressed_set hv hr).wellFormed ih
  | bind _ hv hu hbelow hne ih => exact ih.set hv hu hbelow hne

/-- Variables stay allocated. -/
theorem size_le (h : s.Grows t) : s.cells.size ≤ t.cells.size := by
  induction h with
  | refl => exact Nat.le_refl _
  | alloc _ ih => exact Nat.le_trans ih (Cells.Extended.push _).le
  | shorten _ _ _ _ ih | bind _ _ _ _ _ ih => exact Nat.le_trans ih (Nat.le_of_eq size_bound.symm)

/-- A term over a store is one over what the store grows to. -/
theorem term_below (h : s.Grows t) (ha : a.Below s.cells.size) : a.Below t.cells.size :=
  ha.mono h.size_le

/-- What the journal says at any time tells of a store on the way. -/
theorem exists_of_prefix (h : s.Grows t) (hs : s.journal = []) {written : List Event}
    (hw : written <+: t.journal.reverse) : ∃ u, s.Grows u ∧ u.journal.reverse = written := by
  -- each change adds one event: the prefix ends with it, or was one before
  have step : ∀ {t t' : Store} {e : Event}, s.Grows t' → t'.journal = e :: t.journal →
      (written <+: t.journal.reverse → ∃ u, s.Grows u ∧ u.journal.reverse = written) →
        written <+: t'.journal.reverse → ∃ u, s.Grows u ∧ u.journal.reverse = written := by
    intro t t' e h' hjournal ih hw
    have hreverse : t'.journal.reverse = t.journal.reverse ++ [e] := by simp [hjournal]
    rcases List.prefix_concat_iff.mp (hreverse ▸ hw) with rfl | hw
    · exact ⟨t', h', hreverse⟩
    · exact ih hw
  induction h with
  | refl =>
    have hnil : written = [] := by simpa [hs] using hw
    exact ⟨s, .refl, by simp [hs, hnil]⟩
  | alloc h ih => exact step (.alloc h) rfl ih hw
  | shorten h hv hr hend ih => exact step (.shorten h hv hr hend) rfl ih hw
  | bind h hv hu hbelow hne ih => exact step (.bind h hv hu hbelow hne) rfl ih hw

/-- A chain that ends in a node or a leaf goes on leading there. -/
theorem leads (h : s.Grows t) (hv : s.cells.Leads v r) (hr : r.kind ≠ .var) :
    t.cells.Leads v r := by
  induction h with
  | refl => exact hv
  | alloc _ ih => exact (Cells.Extended.push _).leads ih
  | shorten _ hw hr _ ih => exact ((Cells.compressed_set hw hr).leads _ _).mpr ih
  | bind _ hw hu _ hne ih =>
    -- the variable at the end of a chain is bound, but this chain ends in no variable
    exact (ih.set hw hu hne).2 fun heq => hr (congrArg Term.kind heq)

/-- A root that is no variable stays the root of its term. -/
theorem root (h : s.Grows t) (ha : s.cells.Root a r) (hr : r.kind ≠ .var) : t.cells.Root a r := by
  cases a with
  | var v => exact h.leads ha hr
  | _ => exact ha

end Grows

end Store

/-- **Dereferencing** a term over a well-formed store ends at its root, and shortens chains. -/
theorem Cells.WellFormed.deref {s : Store} {t : Term} (hs : s.cells.WellFormed)
    (ht : t.Below s.cells.size) :
    ∃ r s', deref t s = .ok (r, s') ∧ s.cells.Root t r ∧ s.Shortened s' ∧ s'.cells.WellFormed ∧
      r.Below s'.cells.size := by
  obtain ⟨r, hroot, hbelow⟩ := hs.root ht
  obtain ⟨s', hrun, hshort⟩ := deref_shortens hroot
  have hgrows := hshort.grows
  exact ⟨r, s', hrun, hroot, hshort, hgrows.wellFormed hs, hgrows.term_below hbelow⟩

end Horn
