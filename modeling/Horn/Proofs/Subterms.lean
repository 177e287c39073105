import Horn.Store

/-!
# Subterms

What is true of a store is mostly said of every subterm of the terms in it: that it mentions
allocated variables only, that no float in it is a NaN, that its nodes are the ones that their
identities belong to. All of these are instances of `Term.Every`, and a program that only moves
terms around keeps every instance at once.

- `Term.Within`: a term stands somewhere in another.
- `Term.Every`: a property holds of a term and all its subterms. Its instances are `Term.Below`,
  `Term.Older` and `Term.Comparable`.
- `Cells.Every`: it holds of all that is bound.
-/

namespace Horn

namespace Term

/-- The term `u` is the given one, or stands somewhere in it. -/
inductive Within (u : Term) : Term → Prop where
  | here : Within u u
  | arg {t x : Term} (mem : x ∈ t.arguments) (within : Within u x) : Within u t

/-- A term without arguments has itself as its one subterm. -/
theorem Within.eq_of_arguments_nil {t u : Term} (h : Within u t) (ht : t.arguments = []) :
    u = t := by
  cases h with
  | here => rfl
  | arg mem _ =>
    rw [ht] at mem
    cases mem

/-- A subterm of a subterm is a subterm. -/
theorem Within.trans {t u w : Term} (h : Within w u) (hu : Within u t) : Within w t := by
  induction hu with
  | here => exact h
  | arg mem _ ih => exact .arg mem ih

theorem within_var {v w : Nat} : Within (.var w) (.var v) ↔ w = v :=
  ⟨fun h => Term.var.inj (h.eq_of_arguments_nil rfl), fun h => h ▸ .here⟩

theorem size_le_sizeAll {x : Term} {xs : List Term} (h : x ∈ xs) : x.size ≤ sizeAll xs := by
  induction xs with
  | nil => cases h
  | cons y ys ih =>
    rcases List.mem_cons.mp h with rfl | h
    · exact Nat.le_add_right _ _
    · exact Nat.le_trans (ih h) (Nat.le_add_left _ _)

theorem size_lt_of_mem_arguments {t x : Term} (h : x ∈ t.arguments) : x.size < t.size := by
  cases t with
  | compound i f y ys =>
    have hle : x.size ≤ sizeAll (y :: ys) := size_le_sizeAll h
    exact Nat.lt_succ_of_le hle
  | _ => cases h

/-- Every term is one object with itself. -/
theorem same_self (t : Term) : t.same t = true := by
  cases t <;> simp [same, Atom.same]

/-- Induction over a term by its arguments. -/
theorem induction_arguments {P : Term → Prop} (h : ∀ t, (∀ x ∈ t.arguments, P x) → P t) (t : Term) :
    P t :=
  h t fun x _ => induction_arguments h x
termination_by t.size
decreasing_by exact size_lt_of_mem_arguments ‹_›

/-! ## Properties of all subterms -/

/-- All subterms have the property. -/
def Every (p : Term → Prop) (t : Term) : Prop := ∀ u, Within u t → p u

namespace Every

variable {p q : Term → Prop} {t x : Term}

theorem here (h : t.Every p) : p t := h t .here

/-- It holds of every subterm of an argument. -/
theorem arg (h : t.Every p) (hx : x ∈ t.arguments) : x.Every p := fun u hu => h u (.arg hx hu)

/-- An argument that is paired with something. -/
theorem of_mem_zip {α : Type} {xs : List α} {q : α × Term} (h : t.Every p)
    (hq : q ∈ xs.zip t.arguments) : q.2.Every p :=
  h.arg (List.of_mem_zip (show (q.1, q.2) ∈ _ from hq)).2

/-- To hold of every subterm is to hold of the term and of every subterm of its arguments. -/
theorem intro (h : p t) (hargs : ∀ x ∈ t.arguments, x.Every p) : t.Every p := by
  intro u hu
  cases hu with
  | here => exact h
  | arg mem within => exact hargs _ mem u within

/-- A term without arguments is its only subterm. -/
theorem of_leaf (h : p t) (ht : t.arguments = []) : t.Every p :=
  .intro h fun x hx => by rw [ht] at hx; cases hx

theorem mono (h : t.Every p) (hpq : ∀ u, p u → q u) : t.Every q := fun u hu => hpq u (h u hu)

theorem and (h : t.Every p) (h' : t.Every q) : t.Every fun u => p u ∧ q u :=
  fun u hu => ⟨h u hu, h' u hu⟩

end Every

section Constructors

variable {p : Term → Prop} {t : Term}

theorem every_leaf (ht : t.arguments = []) : t.Every p ↔ p t := ⟨Every.here, fun h => .of_leaf h ht⟩

@[simp]
theorem every_var {v : Nat} : (var v).Every p ↔ p (var v) := every_leaf rfl

@[simp]
theorem every_atom {a : Atom} : (atom a).Every p ↔ p (atom a) := every_leaf rfl

@[simp]
theorem every_int {n : Int64} : (int n).Every p ↔ p (int n) := every_leaf rfl

@[simp]
theorem every_float {x : Binary64} : (float x).Every p ↔ p (float x) := every_leaf rfl

@[simp]
theorem every_compound {i : Nat} {f : Atom} {x : Term} {xs : List Term} :
    (compound i f x xs).Every p ↔ p (compound i f x xs) ∧ x.Every p ∧ ∀ y ∈ xs, y.Every p := by
  refine ⟨fun h => ⟨h.here, List.forall_mem_cons.mp fun y hy => h.arg hy⟩, fun h => ?_⟩
  exact .intro h.1 (List.forall_mem_cons.mpr h.2)

end Constructors

/-- A variable is below `n`. -/
def Bounded (n : Nat) : Term → Prop
  | var v => v < n
  | _ => True

/-- A node has an identity below `n`. -/
def Dated (n : Nat) : Term → Prop
  | compound i .. => i < n
  | _ => True

/-- A float is no NaN. -/
def NotNaN : Term → Prop
  | float x => x.isNaN = false
  | _ => True

/-- A float is no NaN, and a node is the one that the table has for its identity. -/
def Plain (nodes : Nat → Term) : Term → Prop
  | float x => x.isNaN = false
  | compound i f x xs => nodes i = compound i f x xs
  | _ => True

/-- A node is the one that the table has for its identity. -/
def Filed (nodes : Nat → Term) : Term → Prop
  | compound i f x xs => nodes i = compound i f x xs
  | _ => True

/-- Only variables below `n` occur. -/
abbrev Below (n : Nat) : Term → Prop := Every (Bounded n)

/-- All nodes have identities below `n`. -/
abbrev Older (n : Nat) : Term → Prop := Every (Dated n)

/-- No float is a NaN. -/
abbrev NaNFree : Term → Prop := Every NotNaN

/-- No float is a NaN, and all nodes are the ones that a table has for their identities, so that two
nodes with one identity are one node. -/
abbrev Comparable (nodes : Nat → Term) : Term → Prop := Every (Plain nodes)

theorem below_var {n v : Nat} : (var v).Below n ↔ v < n :=
  ⟨fun h => h.here, fun h => .of_leaf h rfl⟩

/-- The variables of a term are below its bound. -/
theorem Below.lt {n v : Nat} {t : Term} (h : t.Below n) (hv : Within (var v) t) : v < n :=
  h _ hv

theorem below_of_forall {n : Nat} {t : Term} (h : ∀ v, Within (var v) t → v < n) : t.Below n := by
  intro u hu
  cases u with
  | var v => exact h v hu
  | _ => trivial

theorem Below.mono {m n : Nat} {t : Term} (h : t.Below m) (hmn : m ≤ n) : t.Below n :=
  below_of_forall fun _ hv => Nat.lt_of_lt_of_le (h.lt hv) hmn

theorem Older.mono {m n : Nat} {t : Term} (h : t.Older m) (hmn : m ≤ n) : t.Older n := by
  refine Every.mono h fun u hu => ?_
  cases u with
  | compound => exact Nat.lt_of_lt_of_le hu hmn
  | _ => trivial

/-- Comparable terms have no NaN. -/
theorem Comparable.nanFree {nodes : Nat → Term} {t : Term} (h : t.Comparable nodes) :
    t.NaNFree := by
  refine Every.mono h fun u hu => ?_
  cases u with
  | float x => exact hu
  | _ => trivial

/-- Tables that agree on old identities serve old terms equally. -/
theorem Comparable.congr {nodes nodes' : Nat → Term} {n : Nat} {t : Term}
    (h : t.Comparable nodes) (hold : t.Older n) (heq : ∀ i < n, nodes' i = nodes i) :
    t.Comparable nodes' := by
  refine Every.mono (h.and hold) fun u hu => ?_
  cases u with
  | compound i f x xs => exact (heq i hu.2).trans hu.1
  | float x => exact hu.1
  | _ => trivial

end Term

namespace Cells

/-- The variable is bound to the term. -/
def Bound (cells : Cells) (v : Nat) (t : Term) : Prop := cells[v]? = some (some t)

/-- The variable is allocated and not bound. -/
def Unbound (cells : Cells) (v : Nat) : Prop := cells[v]? = some none

/-- The property holds of all subterms of what variables are bound to. -/
def Every (p : Term → Prop) (cells : Cells) : Prop := ∀ v t, cells.Bound v t → t.Every p

/-- All variables that are mentioned are allocated. -/
def Closed (cells : Cells) : Prop := cells.Every (Term.Bounded cells.size)

variable {cells : Cells} {u v : Nat} {s t : Term}

theorem Bound.lt (h : cells.Bound v t) : v < cells.size :=
  (Array.getElem?_eq_some_iff.mp h).1

theorem Unbound.lt (h : cells.Unbound v) : v < cells.size :=
  (Array.getElem?_eq_some_iff.mp h).1

theorem Bound.unique (h : cells.Bound v t) (h' : cells.Bound v s) : t = s := by
  rw [Bound, h] at h'
  exact Option.some.inj (Option.some.inj h')

theorem Bound.not_unbound (h : cells.Bound v t) : ¬cells.Unbound v := by
  intro h'
  rw [Unbound, h] at h'
  cases h'

/-- An allocated variable is bound or not. -/
theorem bound_or_unbound (h : v < cells.size) : (∃ t, cells.Bound v t) ∨ cells.Unbound v := by
  unfold Bound Unbound
  rw [Array.getElem?_eq_getElem h]
  cases cells[v] with
  | none => exact .inr rfl
  | some t => exact .inl ⟨t, rfl⟩

/-! ## Writing a cell -/

/-- Writing a cell binds its variable and leaves the other bindings. -/
theorem bound_set (hv : v < cells.size) :
    Bound (cells.setIfInBounds v (some t)) u s ↔ if u = v then s = t else cells.Bound u s := by
  unfold Bound
  rw [Array.getElem?_setIfInBounds]
  by_cases h : u = v
  · subst h
    simp [hv, eq_comm]
  · simp [h, Ne.symm h]

theorem unbound_set (hv : v < cells.size) :
    Unbound (cells.setIfInBounds v (some t)) u ↔ u ≠ v ∧ cells.Unbound u := by
  unfold Unbound
  rw [Array.getElem?_setIfInBounds]
  by_cases h : u = v
  · subst h
    simp [hv]
  · simp [h, Ne.symm h]

/-- What holds of all bound terms and of the one that is written holds after the write. -/
theorem Every.set {p : Term → Prop} (h : cells.Every p) (ht : t.Every p) :
    Every p (cells.setIfInBounds v (some t)) := by
  intro u s hu
  by_cases hv : v < cells.size
  · rw [bound_set hv] at hu
    split at hu
    · exact hu ▸ ht
    · exact h u s hu
  · rw [Array.setIfInBounds_eq_of_size_le (Nat.le_of_not_lt hv)] at hu
    exact h u s hu

end Cells

end Horn
