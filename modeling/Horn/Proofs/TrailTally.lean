import Mathlib.Algebra.BigOperators.Group.Finset.Basic
import Mathlib.Algebra.Order.BigOperators.Group.Finset
import Horn.Proofs.Growth
import Horn.Proofs.Snapshots

/-!
# How long a trail can get

A variable is written when it is bound, and again whenever its chain is shortened. That can only be
done after the variable at which its chain ended has been bound as well. So a cell is written at
most once for each variable that is bound by then, and a trail has at most as many entries as the
square of their number. From this it follows which heaps there is room for.

- `Cells.boundVars`: the variables that are bound.
- `Cells.Stale`: a variable whose chain can be shortened.
- `Heap.Tallied`: no cell has been written more often than variables are bound, and a stale one less
  often. `Heap.Tallied.replay`: that stays so, whatever the engine writes.
- `Heap.Tallied.trailLength_le`: the bound on the trail.
- `checkGrowth_ok_iff`: how far a sequence can grow; `Heap.Tallied.checkGrown`: a heap can grow so
  far.
-/

namespace Horn

variable {cells : Cells} {s s' : Store} {h : Heap} {t : Term} {u v w : Nat}

/-! ## Bound variables -/

namespace Cells

/-- The variables that are bound. -/
def boundVars (cells : Cells) : Finset Nat :=
  (Finset.range cells.size).filter fun v => ((cells[v]?).join).isSome

theorem mem_boundVars : v ∈ cells.boundVars ↔ ∃ t, cells.Bound v t := by
  rw [boundVars, Finset.mem_filter, Finset.mem_range]
  constructor
  · rintro ⟨-, hsome⟩
    obtain ⟨t, ht⟩ := Option.isSome_iff_exists.mp hsome
    exact ⟨t, Option.join_eq_some_iff.mp ht⟩
  · rintro ⟨t, ht⟩
    exact ⟨ht.lt, by rw [Option.join_eq_some_iff.mpr ht]; rfl⟩

/-- The variable is bound to a variable that has been bound as well, so that its chain can be
shortened. -/
def Stale (cells : Cells) (v : Nat) : Prop := ∃ w t, cells.Bound v (.var w) ∧ cells.Bound w t

theorem Extended.boundVars {cells' : Cells} (h : cells.Extended cells') :
    cells'.boundVars = cells.boundVars := by
  ext v
  rw [mem_boundVars, mem_boundVars]
  exact exists_congr fun t => h.bound

/-- Shortening a chain binds no more variables and no fewer. -/
theorem Compressed.boundVars {cells' : Cells} (h : cells.Compressed cells') :
    cells'.boundVars = cells.boundVars := by
  have hiff : ∀ (c : Cells) (v : Nat), (∃ t, c.Bound v t) ↔ v < c.size ∧ ¬c.Unbound v := by
    intro c v
    constructor
    · rintro ⟨t, ht⟩
      exact ⟨ht.lt, ht.not_unbound⟩
    · rintro ⟨hlt, hfree⟩
      exact (bound_or_unbound hlt).resolve_right hfree
  ext v
  rw [mem_boundVars, mem_boundVars, hiff, hiff, h.size, h.unbound]

/-- A variable is no longer bound to another one that is, once it is bound to an end. -/
theorem not_stale_set (hv : v < cells.size) (hend : cells.IsEnd t) (hne : t ≠ .var v) :
    ¬Stale (cells.setIfInBounds v (some t)) v := by
  rintro ⟨w, u, hvw, hwu⟩
  rw [bound_set hv, if_pos rfl] at hvw
  subst hvw
  have hwv : w ≠ v := fun heq => hne (congrArg Term.var heq)
  rw [bound_set hv, if_neg hwv] at hwu
  exact hwu.not_unbound (hend w rfl)

/-- A variable that is bound already makes no other one stale when it is bound anew. -/
theorem Stale.of_set {r : Term} (hv : cells.Bound v t) (huv : u ≠ v)
    (hu : Stale (cells.setIfInBounds v (some r)) u) : cells.Stale u := by
  obtain ⟨w, x, huw, hwx⟩ := hu
  rw [bound_set hv.lt, if_neg huv] at huw
  rw [bound_set hv.lt] at hwx
  split at hwx
  · rename_i hwv
    exact ⟨w, t, huw, hwv ▸ hv⟩
  · exact ⟨w, x, huw, hwx⟩

/-- What is shortened is stale: its chain goes on from the variable that it is bound to. -/
theorem stale_of_leads {r : Term} (hv : cells.Bound v (.var w)) (hr : cells.Leads v r)
    (hne : r ≠ .var w) : cells.Stale v := by
  have hw : w < cells.size := by
    obtain ⟨n, hchain⟩ := hr
    cases hchain with
    | free hfree => exact absurd hfree hv.not_unbound
    | found hfound hkind => exact absurd (congrArg Term.kind (hfound.unique hv)) hkind
    | next hnext rest => exact Term.var.inj (hnext.unique hv) ▸ rest.lt
  rcases bound_or_unbound hw with ⟨t, ht⟩ | hfree
  · exact ⟨w, t, hv, ht⟩
  · exact absurd (hr.unique (hv.leads_next hfree.leads)) hne

end Cells

/-! ## Entries of the trail -/

namespace Heap

/-- How many entries of the trail are for the variable. -/
def written (h : Heap) (v : Nat) : Nat := (h.trail.map TrailEntry.var).count v

/-- A write makes at most one entry. -/
theorem written_write_self (h : Heap) (v : Nat) (value : Term) :
    (h.write v value).written v ≤ h.written v + 1 := by
  unfold written Heap.write
  dsimp only
  split
  · rw [List.map_cons, List.count_cons_self]
  · exact Nat.le_succ _

/-- It is for the variable that is written. -/
theorem written_write_of_ne (h : Heap) (huv : u ≠ v) (value : Term) :
    (h.write v value).written u = h.written u := by
  unfold written Heap.write
  dsimp only
  split
  · rw [List.map_cons, List.count_cons_of_ne huv.symm]
  · rfl

/-- No cell has been written more often than variables are bound, a stale one less often, and one
that is empty not at all. -/
structure Tallied (h : Heap) : Prop where
  le : ∀ v, h.written v ≤ h.cells.boundVars.card
  lt : ∀ v, h.cells.Stale v → h.written v < h.cells.boundVars.card
  empty : ∀ v ∉ h.cells.boundVars, h.written v = 0

namespace Tallied

/-- A new variable is neither bound nor written. -/
theorem alloc (ht : h.Tallied) : Tallied { h with cells := h.cells.push none } := by
  have hext := Cells.Extended.push h.cells
  constructor
  · intro v
    show h.written v ≤ (Cells.boundVars (h.cells.push none)).card
    exact hext.boundVars ▸ ht.le v
  · rintro v ⟨w, t, hv, hw⟩
    show h.written v < (Cells.boundVars (h.cells.push none)).card
    exact hext.boundVars ▸ ht.lt v ⟨w, t, hext.bound.mp hv, hext.bound.mp hw⟩
  · intro v hv
    exact ht.empty v (hext.boundVars ▸ hv)

/-- A stale variable has a write to spare. Bound to the end of its chain, it is no longer stale. -/
theorem shorten {r : Term} (ht : h.Tallied) (hv : h.cells.Bound v (.var w))
    (hr : h.cells.Leads v r) (hend : r ≠ .var w) : (h.write v r).Tallied := by
  have hvars : (h.write v r).cells.boundVars = h.cells.boundVars :=
    (Cells.compressed_set hv hr).boundVars
  constructor
  · intro u
    rw [hvars]
    by_cases huv : u = v
    · -- the write is counted against the spare one of a stale variable
      have hspare := ht.lt v (Cells.stale_of_leads hv hr hend)
      have hwritten := h.written_write_self v r
      rw [huv]
      omega
    · exact h.written_write_of_ne huv r ▸ ht.le u
  · intro u hu
    have huv : u ≠ v := by
      rintro rfl
      have hself : r ≠ .var u := fun heq => hv.not_unbound (hr.isEnd u heq)
      -- the variable itself is not stale any more
      exact Cells.not_stale_set hv.lt hr.isEnd hself hu
    rw [hvars, h.written_write_of_ne huv]
    exact ht.lt u (hu.of_set hv huv)
  · intro u hu
    rw [hvars] at hu
    have huv : u ≠ v := by
      rintro rfl
      exact hu (Cells.mem_boundVars.mpr ⟨_, hv⟩)
    exact (h.written_write_of_ne huv r).trans (ht.empty u hu)

/-- Where an unbound variable is bound, one more variable is bound, and so there is one more write
to spare for every other one. -/
theorem bind (ht : h.Tallied) (hv : h.cells.Unbound v) (hend : h.cells.IsEnd t)
    (hne : t ≠ .var v) : (h.write v t).Tallied := by
  have hnot : v ∉ h.cells.boundVars := by
    intro hmem
    obtain ⟨_, hbound⟩ := Cells.mem_boundVars.mp hmem
    exact hbound.not_unbound hv
  have hvars : (h.write v t).cells.boundVars = insert v h.cells.boundVars := by
    ext u
    show u ∈ Cells.boundVars (h.cells.setIfInBounds v (some t)) ↔ _
    rw [Finset.mem_insert, Cells.mem_boundVars, Cells.mem_boundVars]
    simp only [Cells.bound_set hv.lt]
    by_cases huv : u = v <;> simp [huv]
  have hcard : (h.write v t).cells.boundVars.card = h.cells.boundVars.card + 1 := by
    rw [hvars, Finset.card_insert_of_notMem hnot]
  constructor
  · intro u
    rw [hcard]
    by_cases huv : u = v
    · have hwritten := h.written_write_self v t
      -- an unbound variable has not been written since the mark
      rw [ht.empty v hnot] at hwritten
      rw [huv]
      omega
    · rw [h.written_write_of_ne huv]
      exact Nat.le_succ_of_le (ht.le u)
  · intro u hu
    have huv : u ≠ v := by
      rintro rfl
      exact Cells.not_stale_set hv.lt hend hne hu
    rw [hcard, h.written_write_of_ne huv]
    exact Nat.lt_succ_of_le (ht.le u)
  · intro u hu
    rw [hvars, Finset.mem_insert, not_or] at hu
    exact (h.written_write_of_ne hu.1 t).trans (ht.empty u hu.2)

/-- **Whatever the engine writes is tallied.** -/
theorem replay (ht : h.Tallied) (hgrows : s.Grows s') (hjournal : s.journal = [])
    (hcells : h.cells = s.cells) : (h.replay s'.journal.reverse).Tallied := by
  -- the cells of the heap are those of the store at each write
  have hsame : ∀ {t : Store}, s.Grows t → (h.replay t.journal.reverse).cells = t.cells :=
    fun hgrows => cells_replay h hgrows.recorded hjournal hcells
  induction hgrows with
  | refl => simpa [hjournal, Heap.replay] using ht
  | alloc hgrows ih =>
    rw [Store.allocated, List.reverse_cons, replay_concat]
    exact ih.alloc
  | shorten hgrows hv hr hend ih =>
    rw [Store.bound, List.reverse_cons, replay_concat]
    exact ih.shorten (hsame hgrows ▸ hv) (hsame hgrows ▸ hr) hend
  | bind hgrows hv hu _ hne ih =>
    rw [Store.bound, List.reverse_cons, replay_concat]
    exact ih.bind (hsame hgrows ▸ hv) (hsame hgrows ▸ hu) hne

/-- **The trail is at most as long as the square of the number of bound variables.** -/
theorem trailLength_le (ht : h.Tallied) :
    h.trailLength ≤ h.cells.boundVars.card * h.cells.boundVars.card := by
  let vars := h.trail.map TrailEntry.var
  have hsubset : vars.toFinset ⊆ h.cells.boundVars := by
    intro v hv
    by_contra hnot
    have hcount := ht.empty v hnot
    exact List.count_eq_zero.mp hcount (List.mem_toFinset.mp hv)
  calc h.trailLength
      = ∑ v ∈ vars.toFinset, vars.count v := by
        rw [List.sum_toFinset_count_eq_length, List.length_map, trailLength]
    _ ≤ ∑ v ∈ vars.toFinset, h.cells.boundVars.card := Finset.sum_le_sum fun v _ => ht.le v
    _ ≤ ∑ v ∈ h.cells.boundVars, h.cells.boundVars.card :=
        Finset.sum_le_sum_of_subset hsubset
    _ = h.cells.boundVars.card * h.cells.boundVars.card :=
        Finset.sum_const_nat fun _ _ => rfl

end Tallied

end Heap

/-! ## Room -/

/-- A power of two is doubled each time that more room is asked for. -/
theorem roomAfter_pow {k : Nat} (hk : 1 ≤ k) : ∀ times, roomAfter (2 ^ k) times = 2 ^ (k + times)
  | 0 => rfl
  | times + 1 => by
    have hfour : 4 ≤ 2 * 2 ^ (k + times) := by
      have hpow : 2 ^ 1 ≤ 2 ^ (k + times) := Nat.pow_le_pow_right Nat.two_pos (by omega)
      omega
    rw [roomAfter, roomAfter_pow hk times, Nat.max_eq_right hfour, ← Nat.add_assoc,
      Nat.pow_succ']

/-- A sequence with room for a power of two grows up to the last power of two that there can be room
for. -/
theorem checkGrowth_ok_iff {k limit entries entryBytes : Nat} (hk : 1 ≤ k) (hlimit : k ≤ limit)
    (htimes : limit < k + 64) (hfits : 2 ^ limit * entryBytes < 2 ^ 63)
    (hfull : 2 ^ 63 ≤ 2 ^ (limit + 1) * entryBytes) :
    checkGrowth (2 ^ k) entries entryBytes = .ok () ↔ entries ≤ 2 ^ limit := by
  rw [checkGrowth]
  constructor
  · intro hok
    split at hok
    · rename_i hany
      obtain ⟨times, -, hroom⟩ := List.any_eq_true.mp hany
      simp only [roomAfter_pow hk, Bool.and_eq_true, decide_eq_true_eq] at hroom
      -- one more doubling than the limit allows would take too many bytes
      have hle : k + times ≤ limit := by
        by_contra hgt
        have hpow : 2 ^ (limit + 1) ≤ 2 ^ (k + times) :=
          Nat.pow_le_pow_right Nat.two_pos (by omega)
        have hbytes := Nat.mul_le_mul_right entryBytes hpow
        omega
      exact Nat.le_trans hroom.1 (Nat.pow_le_pow_right Nat.two_pos hle)
    · cases hok
  · intro hle
    have hroom : roomAfter (2 ^ k) (limit - k) = 2 ^ limit := by
      rw [roomAfter_pow hk, Nat.add_sub_cancel' hlimit]
    refine if_pos (List.any_eq_true.mpr ⟨limit - k, List.mem_range.mpr (by omega), ?_⟩)
    simp only [hroom, Bool.and_eq_true, decide_eq_true_eq]
    exact ⟨hle, hfits⟩

/-- There can be as many as `2 ^ 58` cells. -/
theorem checkGrowth_cells_ok_iff {n : Nat} :
    checkGrowth ({} : HeapOptions).varCapacity n cellBytes = .ok () ↔ n ≤ 2 ^ 58 :=
  checkGrowth_ok_iff (k := 10) (by decide) (by decide) (by decide) (by decide) (by decide)

/-- There can be as many as `2 ^ 58` entries of the trail. -/
theorem checkGrowth_trail_ok_iff {n : Nat} :
    checkGrowth ({} : HeapOptions).trailCapacity n trailEntryBytes = .ok () ↔ n ≤ 2 ^ 58 :=
  checkGrowth_ok_iff (k := 8) (by decide) (by decide) (by decide) (by decide) (by decide)

/-- So few cells, and so few of them bound, that there can be room for the cells and for any
trail. -/
structure Cells.Modest (cells : Cells) : Prop where
  size : cells.size ≤ 2 ^ 58
  bound : cells.boundVars.card ≤ 2 ^ 29

namespace Heap

/-- **There is room for a heap** that has been written from a few cells on. -/
theorem Tallied.checkGrown (ht : h.Tallied) (hm : h.cells.Modest) : h.checkGrown = .ok () := by
  have htrail : h.trailLength ≤ 2 ^ 58 := by
    calc h.trailLength
        ≤ h.cells.boundVars.card * h.cells.boundVars.card := ht.trailLength_le
      _ ≤ 2 ^ 29 * 2 ^ 29 := Nat.mul_le_mul hm.bound hm.bound
      _ = 2 ^ 58 := by decide
  have hcells : checkGrowth _ h.size cellBytes = .ok () := checkGrowth_cells_ok_iff.mpr hm.size
  rw [Heap.checkGrown, hcells]
  exact checkGrowth_trail_ok_iff.mpr htrail

end Heap

end Horn
