import Horn.Proofs.Replacement
import Horn.Proofs.Solutions

/-!
# Copies

A copy is the source term with its variables replaced by what the memo has for them, its nodes being
numbered from the first identity that is left, arguments before the node. The memo is extended by
new variables of the store, one for each variable that was seen for the first time.

- `Term.copied`: the copy as a function of the memo.
- `Cells.Extended`, `Store.Allocates`: new unbound variables have been added to a store.
- `Instance.Enters`: the memo has been extended by new variables.
- `Instance.after`: the memo and the store after the variables of a list have been seen.
- `copy_eq`, `copy_run`: what `copy` returns and what it leaves.
-/

namespace Horn

/-! ## The memo -/

namespace VarTable

variable {α : Type} {m : VarTable α} {v w : Nat} {x : α}

theorem find?_insert_self (h : m.find? v = none) : (m.insert v x).find? v = some x := by
  have hlookup : m.entries.lookup v = none := h
  simp [insert, find?, List.lookup_append, hlookup]

theorem find?_insert_of_ne (h : m.find? v = none) (hvw : w ≠ v) :
    (m.insert v x).find? w = m.find? w := by
  have hlookup : m.entries.lookup v = none := h
  have hbeq : (w == v) = false := beq_false_of_ne hvw
  simp [insert, find?, List.lookup_append, hlookup, List.lookup_cons, hbeq]

/-- A new entry comes to those that there are. -/
theorem find?_insert_iff {y : α} (h : m.find? v = none) :
    (m.insert v x).find? w = some y ↔ w = v ∧ y = x ∨ m.find? w = some y := by
  by_cases hwv : w = v
  · subst hwv
    simp [find?_insert_self h, h, eq_comm]
  · simp [find?_insert_of_ne h hwv, hwv]

end VarTable

/-- What a source variable stands for; an unknown one stands for itself. -/
def Memo.image (m : Memo) (v : Nat) : Term := (m.find? v).getD (.var v)

theorem Memo.image_of_find? {m : Memo} {v : Nat} {t : Term} (h : m.find? v = some t) :
    m.image v = t := by
  rw [Memo.image, h]
  rfl

/-! ## The copy of a term -/

namespace Term

mutual

/-- The copy of a term, whose nodes are numbered from `n` on, and the next number. -/
def copied (m : Nat → Term) (n : Nat) : Term → Term × Nat
  | var v => (m v, n)
  | compound _ f x xs =>
    let first := copied m n x
    let rest := copiedAll m first.2 xs
    (compound rest.2 f first.1 rest.1, rest.2 + 1)
  | atom a => (atom a, n)
  | int i => (int i, n)
  | float x => (float x, n)
  | box b => (box b, n)

/-- The copies of the terms of a list, one after the other. -/
def copiedAll (m : Nat → Term) (n : Nat) : List Term → List Term × Nat
  | [] => ([], n)
  | t :: ts =>
    let first := copied m n t
    let rest := copiedAll m first.2 ts
    (first.1 :: rest.1, rest.2)

end

variable {m m' : Nat → Term} {n : Nat} {t : Term} {ts : List Term}

mutual

/-- Numbers are only used up. -/
theorem le_copied : ∀ (t : Term) (n : Nat), n ≤ (copied m n t).2
  | compound i f x xs, n => by
    have hx := le_copied x n
    have hxs := le_copiedAll xs (copied m n x).2
    exact Nat.le_succ_of_le (Nat.le_trans hx hxs)
  | var _, _ => Nat.le_refl _
  | atom _, _ => Nat.le_refl _
  | int _, _ => Nat.le_refl _
  | float _, _ => Nat.le_refl _
  | box _, _ => Nat.le_refl _

/-- Copying takes identities that have not been given out. -/
theorem le_copiedAll : ∀ (ts : List Term) (n : Nat), n ≤ (copiedAll m n ts).2
  | [], _ => Nat.le_refl _
  | t :: ts, n => Nat.le_trans (le_copied t n) (le_copiedAll ts _)

end

theorem length_copiedAll : ∀ (ts : List Term) (n : Nat), (copiedAll m n ts).1.length = ts.length
  | [], _ => rfl
  | _ :: ts, _ => congrArg Nat.succ (length_copiedAll ts _)

variable {ν : Type} {r : Reading ν} {σ σ' : Nat → Tree ν}

mutual

/-- Copies that are numbered alike, of variables that stand for the same, are the same. -/
theorem copied_under_congr : ∀ (t : Term) {n : Nat},
    (∀ v, Within (var v) t → (m v).under r σ = (m' v).under r σ') →
      (copied m n t).1.under r σ = (copied m' n t).1.under r σ' ∧
        (copied m n t).2 = (copied m' n t).2
  | var v, _, h => ⟨h v .here, rfl⟩
  | compound i f x xs, n, h => by
    obtain ⟨hx, hn⟩ := copied_under_congr x (n := n) fun v hv => h v (.arg List.mem_cons_self hv)
    obtain ⟨hxs, hn'⟩ := copiedAll_under_congr xs (n := (copied m n x).2) fun y hy v hv =>
      h v (.arg (List.mem_cons_of_mem _ hy) hv)
    rw [copied, copied, under_compound, under_compound, ← hn, ← hn', List.map_cons, List.map_cons,
      hx, hxs]
    exact ⟨rfl, rfl⟩
  | atom _, _, _ => ⟨rfl, rfl⟩
  | int _, _, _ => ⟨rfl, rfl⟩
  | float _, _, _ => ⟨rfl, rfl⟩
  | box _, _, _ => ⟨rfl, rfl⟩

theorem copiedAll_under_congr : ∀ (ts : List Term) {n : Nat},
    (∀ t ∈ ts, ∀ v, Within (var v) t → (m v).under r σ = (m' v).under r σ') →
      (copiedAll m n ts).1.map (under r σ) = (copiedAll m' n ts).1.map (under r σ') ∧
        (copiedAll m n ts).2 = (copiedAll m' n ts).2
  | [], _, _ => ⟨rfl, rfl⟩
  | t :: ts, n, h => by
    obtain ⟨ht, hn⟩ := copied_under_congr t (n := n) (h t List.mem_cons_self)
    obtain ⟨hts, hn'⟩ := copiedAll_under_congr ts (n := (copied m n t).2) fun u hu =>
      h u (List.mem_cons_of_mem _ hu)
    rw [copiedAll, copiedAll, List.map_cons, List.map_cons, ht, ← hn, ← hn', hts]
    exact ⟨rfl, rfl⟩

end

mutual

/-- Where node identities are left aside, a copy denotes the source under what its variables stand
for. -/
theorem copied_under {r : Reading Unit} {σ : Nat → Tree Unit} : ∀ (t : Term) {n : Nat},
    (copied m n t).1.under r σ = t.under r fun v => (m v).under r σ
  | var _, _ => rfl
  | compound i f x xs, n => by
    rw [copied, under_compound, under_compound, List.map_cons, List.map_cons, copied_under x,
      copiedAll_under xs]
  | atom _, _ => rfl
  | int _, _ => rfl
  | float _, _ => rfl
  | box _, _ => rfl

theorem copiedAll_under {r : Reading Unit} {σ : Nat → Tree Unit} : ∀ (ts : List Term) {n : Nat},
    (copiedAll m n ts).1.map (under r σ) = ts.map (under r fun v => (m v).under r σ)
  | [], _ => rfl
  | t :: ts, n => by
    rw [copiedAll, List.map_cons, List.map_cons, copied_under t, copiedAll_under ts]

end

/-- What a subterm of the source contributes to the copy has the property: what a variable stands
for, and a leaf that is no variable. -/
def Contributes (m : Nat → Term) (p : Term → Prop) : Term → Prop
  | var v => (m v).Every p
  | compound .. => True
  | t => p t

mutual

/-- The subterms of a copy are those of what variables stand for, leaves of the source, and nodes
with the numbers that have been used up. -/
theorem copied_every : ∀ (t : Term) {n : Nat}, t.Every (Contributes m p) →
    (∀ i f x xs, n ≤ i → i < (copied m n t).2 → p (compound i f x xs)) → (copied m n t).1.Every p
  | var v, _, h, _ => h.here
  | compound i f x xs, n, h, hnode => by
    have hx := le_copied (m := m) x n
    have hxs := le_copiedAll (m := m) xs (copied m n x).2
    refine .intro (hnode _ _ _ _ (Nat.le_trans hx hxs) (Nat.lt_succ_self _)) fun y hy => ?_
    rcases List.mem_cons.mp hy with rfl | hy
    · exact copied_every x (h.arg List.mem_cons_self)
        fun j g z zs hj hj' => hnode j g z zs hj (Nat.lt_succ_of_lt (Nat.lt_of_lt_of_le hj' hxs))
    · exact copiedAll_every xs (fun u hu => h.arg (List.mem_cons_of_mem _ hu))
        (fun j g z zs hj hj' => hnode j g z zs (Nat.le_trans hx hj) (Nat.lt_succ_of_lt hj')) y hy
  | atom _, _, h, _ => .of_leaf h.here rfl
  | int _, _, h, _ => .of_leaf h.here rfl
  | float _, _, h, _ => .of_leaf h.here rfl
  | box _, _, h, _ => .of_leaf h.here rfl

theorem copiedAll_every : ∀ (ts : List Term) {n : Nat}, (∀ t ∈ ts, t.Every (Contributes m p)) →
    (∀ i f x xs, n ≤ i → i < (copiedAll m n ts).2 → p (compound i f x xs)) →
      ∀ u ∈ (copiedAll m n ts).1, u.Every p
  | [], _, _, _ => fun u hu => nomatch hu
  | t :: ts, n, h, hnode => by
    have ht := le_copied (m := m) t n
    have hts := le_copiedAll (m := m) ts (copied m n t).2
    intro u hu
    rcases List.mem_cons.mp hu with rfl | hu
    · exact copied_every t (h t List.mem_cons_self)
        fun j g z zs hj hj' => hnode j g z zs hj (Nat.lt_of_lt_of_le hj' hts)
    · exact copiedAll_every ts (fun w hw => h w (List.mem_cons_of_mem _ hw))
        (fun j g z zs hj hj' => hnode j g z zs (Nat.le_trans ht hj) hj') u hu

end

theorem copied_kind (h : t.kind ≠ .var) : (copied m n t).1.kind = t.kind := by
  cases t <;> first | rfl | exact absurd rfl h

/-- The nodes of a copy are younger than the identities that were given out, or come from the memo.
-/
theorem copied_older {n : Nat} (h : ∀ v, Within (var v) t → (m v).Older n) :
    (copied m n t).1.Older (copied m n t).2 := by
  refine copied_every t (fun u hu => ?_) fun i f x xs _ hi => hi
  cases u with
  | var v => exact (h v hu).mono (le_copied t n)
  | _ => trivial

/-- The variables of a copy come from the memo. -/
theorem copied_below {n k : Nat} (h : ∀ v, Within (var v) t → (m v).Below k) :
    (copied m n t).1.Below k := by
  refine copied_every t (fun u hu => ?_) fun i f x xs _ _ => trivial
  cases u with
  | var v => exact h v hu
  | _ => trivial

theorem copiedAll_older {n : Nat} (h : ∀ t ∈ ts, ∀ v, Within (var v) t → (m v).Older n) :
    ∀ u ∈ (copiedAll m n ts).1, u.Older (copiedAll m n ts).2 := by
  refine copiedAll_every ts (fun t ht u hu => ?_) fun i f x xs _ hi => hi
  cases u with
  | var v => exact (h t ht v hu).mono (le_copiedAll ts n)
  | _ => trivial

/-! ## Entering new nodes into a table -/

mutual

/-- The nodes of a copy can be entered into a table without touching the old ones. -/
theorem exists_copied_comparable : ∀ (t : Term) (nodes : Nat → Term) {n : Nat}, t.NaNFree →
    (∀ v, Within (var v) t → (m v).Comparable nodes ∧ (m v).Older n) →
      ∃ nodes' : Nat → Term, (∀ i < n, nodes' i = nodes i) ∧ (copied m n t).1.Comparable nodes'
  | var v, nodes, _, _, h => ⟨nodes, fun _ _ => rfl, (h v .here).1⟩
  | compound i f x xs, nodes, n, ht, h => by
    have hx := le_copied (m := m) x n
    have hxs := le_copiedAll (m := m) xs (copied m n x).2
    have hfirst := fun v hv => h v (.arg List.mem_cons_self hv)
    obtain ⟨nodes₁, heq₁, hcopy₁⟩ :=
      exists_copied_comparable x nodes (ht.arg List.mem_cons_self) hfirst
    have hrest : ∀ y ∈ xs, ∀ v, Within (var v) y →
        (m v).Comparable nodes₁ ∧ (m v).Older (copied m n x).2 := by
      intro y hy v hv
      obtain ⟨hplain, hold⟩ := h v (.arg (List.mem_cons_of_mem _ hy) hv)
      exact ⟨hplain.congr hold heq₁, hold.mono hx⟩
    obtain ⟨nodes₂, heq₂, hcopy₂⟩ :=
      exists_copiedAll_comparable xs nodes₁ (fun y hy => ht.arg (List.mem_cons_of_mem _ hy)) hrest
    have hold₁ := copied_older (n := n) fun v hv => (hfirst v hv).2
    have hold₂ := copiedAll_older fun y hy v hv => (hrest y hy v hv).2
    -- the node itself comes last, above all its arguments
    let k := (copiedAll m (copied m n x).2 xs).2
    let node := (copied m n (compound i f x xs)).1
    refine ⟨fun j => if j = k then node else nodes₂ j, fun j hj => ?_, .intro (if_pos rfl) ?_⟩
    · have hjk : j ≠ k := Nat.ne_of_lt (Nat.lt_of_lt_of_le hj (Nat.le_trans hx hxs))
      exact (if_neg hjk).trans ((heq₂ j (Nat.lt_of_lt_of_le hj hx)).trans (heq₁ j hj))
    · intro y hy
      have hkeep : ∀ j < k, (if j = k then node else nodes₂ j) = nodes₂ j :=
        fun j hj => if_neg (Nat.ne_of_lt hj)
      rcases List.mem_cons.mp hy with rfl | hy
      · exact (hcopy₁.congr hold₁ heq₂).congr (hold₁.mono hxs) hkeep
      · exact (hcopy₂ y hy).congr (hold₂ y hy) hkeep
  | atom _, nodes, _, ht, _ => ⟨nodes, fun _ _ => rfl, .of_leaf trivial rfl⟩
  | int _, nodes, _, ht, _ => ⟨nodes, fun _ _ => rfl, .of_leaf trivial rfl⟩
  | float _, nodes, _, ht, _ => ⟨nodes, fun _ _ => rfl, .of_leaf ht.here rfl⟩
  | box _, nodes, _, ht, _ => ⟨nodes, fun _ _ => rfl, .of_leaf trivial rfl⟩

theorem exists_copiedAll_comparable : ∀ (ts : List Term) (nodes : Nat → Term) {n : Nat},
    (∀ t ∈ ts, t.NaNFree) →
      (∀ t ∈ ts, ∀ v, Within (var v) t → (m v).Comparable nodes ∧ (m v).Older n) →
        ∃ nodes' : Nat → Term, (∀ i < n, nodes' i = nodes i) ∧
          ∀ u ∈ (copiedAll m n ts).1, u.Comparable nodes'
  | [], nodes, _, _, _ => ⟨nodes, fun _ _ => rfl, fun u hu => nomatch hu⟩
  | t :: ts, nodes, n, ht, h => by
    have hle := le_copied (m := m) t n
    have hfirst := h t List.mem_cons_self
    obtain ⟨nodes₁, heq₁, hcopy₁⟩ :=
      exists_copied_comparable t nodes (ht t List.mem_cons_self) hfirst
    obtain ⟨nodes₂, heq₂, hcopy₂⟩ := exists_copiedAll_comparable ts nodes₁
      (fun u hu => ht u (List.mem_cons_of_mem _ hu)) fun u hu v hv => by
        obtain ⟨hplain, hold⟩ := h u (List.mem_cons_of_mem _ hu) v hv
        exact ⟨hplain.congr hold heq₁, hold.mono hle⟩
    have hold₁ := copied_older (n := n) fun v hv => (hfirst v hv).2
    refine ⟨nodes₂, fun j hj => (heq₂ j (Nat.lt_of_lt_of_le hj hle)).trans (heq₁ j hj), ?_⟩
    exact List.forall_mem_cons.mpr ⟨hcopy₁.congr hold₁ heq₂, hcopy₂⟩

end

end Term

/-! ## New variables -/

namespace Cells

/-- New unbound variables have been added. -/
structure Extended (cells cells' : Cells) : Prop where
  le : cells.size ≤ cells'.size
  old : ∀ v < cells.size, cells'[v]? = cells[v]?
  new : ∀ v, cells.size ≤ v → v < cells'.size → cells'.Unbound v

namespace Extended

variable {ν : Type} {r : Reading ν} {cells cells' cells'' : Cells} {σ : Nat → Tree ν} {v w : Nat}
  {t : Term}

theorem refl (cells : Cells) : cells.Extended cells where
  le := Nat.le_refl _
  old _ _ := rfl
  new _ hle hlt := absurd hlt (Nat.not_lt.mpr hle)

theorem trans (h : cells.Extended cells') (h' : cells'.Extended cells'') :
    cells.Extended cells'' where
  le := Nat.le_trans h.le h'.le
  old v hv := (h'.old v (Nat.lt_of_lt_of_le hv h.le)).trans (h.old v hv)
  new v hle hlt := by
    by_cases hv : v < cells'.size
    · exact (h'.old v hv).trans (h.new v hle hv)
    · exact h'.new v (Nat.le_of_not_lt hv) hlt

theorem push (cells : Cells) : cells.Extended (cells.push none) where
  le := by simp
  old v hv := by rw [Array.getElem?_push_lt hv, Array.getElem?_eq_getElem hv]
  new v hle hlt := by
    have hv : v = cells.size := by simp at hlt; omega
    rw [hv]
    exact Array.getElem?_push_size

/-- New variables are unbound, so the bindings are those that there were. -/
theorem bound (h : cells.Extended cells') : cells'.Bound v t ↔ cells.Bound v t := by
  by_cases hv : v < cells.size
  · rw [Bound, h.old v hv, Bound]
  · constructor
    · intro hbound
      exact absurd (h.new v (Nat.le_of_not_lt hv) hbound.lt) hbound.not_unbound
    · exact fun hbound => absurd hbound.lt hv

theorem unbound (h : cells.Extended cells') (hv : cells.Unbound v) : cells'.Unbound v :=
  (h.old v hv.lt).trans hv

/-- The solutions stay the same: nothing more is bound. -/
theorem solves (h : cells.Extended cells') : cells'.Solves r σ ↔ cells.Solves r σ :=
  ⟨fun hσ v t hv => hσ v t (h.bound.mpr hv), fun hσ v t hv => hσ v t (h.bound.mp hv)⟩

theorem every {p : Term → Prop} (h : cells.Extended cells') (hp : cells.Every p) :
    cells'.Every p := fun v t hv => hp v t (h.bound.mp hv)

theorem uses (h : cells.Extended cells') : cells'.Uses v w ↔ cells.Uses v w :=
  exists_congr fun _ => and_congr_left fun _ => h.bound

/-- A store stays proper, as its bindings do. -/
theorem proper (h : cells.Extended cells') (hp : cells.Proper) : cells'.Proper where
  closed v t hv := Term.Below.mono (hp.closed v t (h.bound.mp hv)) h.le
  acyclic := by
    have heq : (fun w v => cells'.Uses v w) = fun w v => cells.Uses v w := by
      funext w v
      exact propext h.uses
    exact (congrArg WellFounded heq).mpr hp.acyclic

end Extended

end Cells

/-! ## Copying -/

/-- Variables have been allocated, and nothing else has happened to the store. -/
inductive Store.Allocates (s : Store) : Store → Prop where
  | refl : Allocates s s
  | alloc {t : Store} (h : Allocates s t) : Allocates s t.allocated

namespace Store.Allocates

variable {s t : Store}

theorem extended (h : s.Allocates t) : s.cells.Extended t.cells := by
  induction h with
  | refl => exact .refl _
  | alloc _ ih => exact ih.trans (.push _)

end Store.Allocates

/-- The memo has been extended, and its new entries are the new variables of the store, one for
each. -/
structure Instance.Enters (i i' : Instance) : Prop where
  allocates : i.store.Allocates i'.store
  known : ∀ v t, i.memo.find? v = some t → i'.memo.find? v = some t
  fresh : ∀ v t, i.memo.find? v = none → i'.memo.find? v = some t →
    ∃ w, t = .var w ∧ i.store.cells.size ≤ w ∧ w < i'.store.cells.size
  inj : ∀ u v t, i.memo.find? u = none → i.memo.find? v = none → i'.memo.find? u = some t →
    i'.memo.find? v = some t → u = v
  onto : ∀ w, i.store.cells.size ≤ w → w < i'.store.cells.size →
    ∃ v, i.memo.find? v = none ∧ i'.memo.find? v = some (.var w)

namespace Instance.Enters

variable {i i₁ : Instance}

theorem extended (h : i.Enters i₁) : i.store.cells.Extended i₁.store.cells := h.allocates.extended

/-- What a known variable stands for stays. -/
theorem image (h : i.Enters i₁) {v : Nat} (hv : (i.memo.find? v).isSome) :
    i₁.memo.image v = i.memo.image v := by
  obtain ⟨t, ht⟩ := Option.isSome_iff_exists.mp hv
  rw [Memo.image_of_find? ht, Memo.image_of_find? (h.known v t ht)]

end Instance.Enters

namespace Store

variable {s : Store} {n m : Nat}

/-- The store after `n` allocations. -/
def widened (s : Store) (n : Nat) : Store where
  cells := s.cells ++ Array.replicate n none
  journal := (List.range' s.cells.size n).reverse.map .alloc ++ s.journal

theorem size_widened : (s.widened n).cells.size = s.cells.size + n := by simp [widened]

theorem widened_zero : s.widened 0 = s := by simp [widened]

theorem widened_one : s.widened 1 = s.allocated := by
  show Store.mk _ _ = Store.mk _ _
  rw [← Array.append_singleton]
  rfl

/-- Allocations may be made one after the other. -/
theorem widened_widened : (s.widened n).widened m = s.widened (n + m) := by
  have hcells : s.cells ++ Array.replicate n none ++ Array.replicate m none =
      s.cells ++ Array.replicate (n + m) none := by
    rw [Array.append_assoc, Array.replicate_append_replicate]
  have hvars : List.range' s.cells.size (n + m) =
      List.range' s.cells.size n ++ List.range' (s.cells.size + n) m := by
    rw [List.range'_append_1]
  show Store.mk _ _ = Store.mk _ _
  rw [size_widened, hvars, List.reverse_append, List.map_append, List.append_assoc]
  exact congrArg₂ Store.mk hcells rfl

theorem allocates_widened (s : Store) (n : Nat) : s.Allocates (s.widened n) := by
  induction n with
  | zero => exact widened_zero ▸ .refl
  | succ n ih =>
    rw [← widened_widened, widened_one]
    exact .alloc ih

end Store

namespace Instance

variable {i : Instance} {vs ws : List Nat} {v : Nat}

/-- The instance after the variables of a list have been seen: a variable is allocated for each one
that the memo did not have. -/
def after (i : Instance) (vs : List Nat) : Instance where
  store := i.store.widened (i.memo.unseen vs).length
  memo := i.memo.enrolled .var i.store.cells.size vs

/-- Entering the variables of two lists is entering those of both together. -/
theorem after_append : (i.after vs).after ws = i.after (vs ++ ws) := by
  unfold after
  rw [Store.size_widened, VarTable.enrolled_append, Store.widened_widened, VarTable.unseen_append,
    List.length_append]

theorem after_nil : i.after [] = i := by
  rw [after, VarTable.enrolled_nil, VarTable.unseen_nil]
  exact congrArg (Instance.mk · i.memo) Store.widened_zero

/-- A known variable changes nothing. -/
theorem after_known (h : (i.memo.find? v).isSome) : i.after [v] = i := by
  rw [after, VarTable.enrolled_known h, VarTable.unseen_known h]
  exact congrArg (Instance.mk · i.memo) Store.widened_zero

/-- A variable is allocated for one that is not known. -/
theorem after_new (h : i.memo.find? v = none) :
    i.after [v] =
      { store := i.store.allocated, memo := i.memo.insert v (.var i.store.cells.size) } := by
  rw [after, VarTable.enrolled_singleton h, VarTable.unseen_singleton h, ← Store.widened_one]
  rfl

/-- The memo has the variables that it had and those of the list. -/
theorem isSome_after : ((i.after vs).memo.find? v).isSome ↔ (i.memo.find? v).isSome ∨ v ∈ vs :=
  VarTable.isSome_enrolled

/-- The variables that the memo does not know are entered, and no others. -/
theorem enters_after (i : Instance) (vs : List Nat) : i.Enters (i.after vs) := by
  -- the variables that are entered stand for the cells that follow
  have hnew : ∀ {v t}, i.memo.find? v = none → (i.after vs).memo.find? v = some t →
      ∃ n, (i.memo.unseen vs)[n]? = some v ∧ t = .var (i.store.cells.size + n) := by
    intro v t hnone hsome
    rcases VarTable.find?_enrolled_cases hsome with hold | ⟨-, hn⟩
    · rw [hnone] at hold
      cases hold
    · exact hn
  have hsize : (i.after vs).store.cells.size = i.store.cells.size + (i.memo.unseen vs).length :=
    Store.size_widened
  constructor
  case allocates => exact i.store.allocates_widened _
  case known => exact fun v t hv => VarTable.find?_enrolled_of_some hv
  case fresh =>
    intro v t hnone hsome
    obtain ⟨n, hn, rfl⟩ := hnew hnone hsome
    obtain ⟨hlt, -⟩ := List.getElem?_eq_some_iff.mp hn
    exact ⟨_, rfl, Nat.le_add_right _ _, by omega⟩
  case inj =>
    intro u v t hu hv hut hvt
    obtain ⟨n, hn, rfl⟩ := hnew hu hut
    obtain ⟨m, hm, heq⟩ := hnew hv hvt
    have hnm : n = m := by simpa using heq
    rw [hnm, hm] at hn
    exact (Option.some.inj hn).symm
  case onto =>
    intro w hle hlt
    obtain ⟨n, rfl⟩ := Nat.exists_eq_add_of_le hle
    have hn : n < (i.memo.unseen vs).length := by omega
    have hget := List.getElem?_eq_getElem hn
    exact ⟨_, (VarTable.mem_unseen.mp (List.getElem_mem hn)).2,
      VarTable.find?_enrolled_of_getElem? hget⟩

end Instance

/-- The visitor allocates a variable for one that the memo does not have. -/
theorem visitCopy_replaces : Replaces visitCopy (fun i => i.memo.image) Instance.after where
  var v i := by
    have hget : (get : Run Instance Instance) i = .ok (i, i) := rfl
    unfold visitCopy
    dsimp only
    rw [Run.bind_ok hget]
    cases hv : i.memo.find? v with
    | some t =>
      -- a variable that the memo has is replaced by its entry
      rw [Instance.after_known (hv ▸ rfl), Memo.image_of_find? hv]
      rfl
    | none =>
      -- a new one is entered, and stands for the cell that is allocated
      have hself : (i.memo.insert v (.var i.store.cells.size)).find? v = _ :=
        VarTable.find?_insert_self hv
      rw [Instance.after_new hv, Memo.image_of_find? hself]
      rfl
  node _ _ := rfl
  leaf t _ hvar hargs := by
    cases t with
    | var v => exact absurd rfl hvar
    | compound => cases hargs
    | _ => rfl
  nil _ := Instance.after_nil
  append _ _ _ := Instance.after_append
  stays i vs ws v hv := by
    rw [← Instance.after_append]
    exact ((i.after vs).enters_after ws).image (Instance.isSome_after.mpr (.inr hv))

mutual

/-- Where no nodes are shared, a term with its variables replaced is a copy. -/
theorem Term.replaced_false {m : Nat → Term} : ∀ (t : Term) (n : Nat),
    t.replaced false m ⟨n⟩ = ((t.copied m n).1, ⟨(t.copied m n).2⟩)
  | var _, _ => rfl
  | compound i f x xs, n => by
    rw [replaced, replaced_false x, replacedAll_false xs]
    rfl
  | atom _, _ => rfl
  | int _, _ => rfl
  | float _, _ => rfl
  | box _, _ => rfl

theorem Term.replacedAll_false {m : Nat → Term} : ∀ (ts : List Term) (n : Nat),
    replacedAll false m ⟨n⟩ ts = ((copiedAll m n ts).1, ⟨(copiedAll m n ts).2⟩)
  | [], _ => rfl
  | t :: ts, n => by
    rw [replacedAll, replaced_false t, replacedAll_false ts]
    rfl

end

/-- **Copying ends.** The copy is that of the memo which is left, in which the variables of the
source have been entered as they occur. -/
theorem copy_eq (t : Term) (supply : Supply) (i : Instance) :
    copy t supply i = .ok (((t.copied (i.after t.occurrences).memo.image supply.next).1,
      ⟨(t.copied (i.after t.occurrences).memo.image supply.next).2⟩), i.after t.occurrences) := by
  rw [copy, visitCopy_replaces.run t supply i, Term.replaced_false]

/-- That memo is the given one with new variables entered for those of the source that it did not
know. -/
theorem copy_run (t : Term) (supply : Supply) (i : Instance) :
    ∃ i', copy t supply i = .ok (((t.copied i'.memo.image supply.next).1,
        ⟨(t.copied i'.memo.image supply.next).2⟩), i') ∧
      i.Enters i' ∧
      ∀ v, (i'.memo.find? v).isSome ↔ (i.memo.find? v).isSome ∨ Term.Within (.var v) t :=
  ⟨_, copy_eq t supply i, i.enters_after _, fun _ =>
    Instance.isSome_after.trans (or_congr_right Term.mem_occurrences)⟩

end Horn
