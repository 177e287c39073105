import Mathlib.Data.List.Basic
import Mathlib.Data.Set.Function
import Horn.Proofs.Trees

/-!
# Occurrences of variables

The variables of a term in the order in which they occur, and the places that they have in it when
repetitions are left out. A variable keeps its place when more occurrences follow, so places can be
given out while a term is gone through.

- `Term.occurrences`, `Tree.occurrences`: the occurrences, from left to right.
- `Term.occurrences_under`: renaming the variables of a term renames its occurrences.
- `place`: where a variable occurs for the first time among the different ones.
- `place_append`, `eraseDups_map_place`, `place_map`: places are kept, are dense, and do not depend
  on names.
-/

namespace Horn

namespace Tree

variable {ν : Type}

mutual

/-- The variables of a tree as they occur from left to right. -/
def occurrences : Tree ν → List Nat
  | var v => [v]
  | leaf _ => []
  | node _ _ args => occurrencesAll args

/-- The variables of the trees of a list as they occur. -/
def occurrencesAll : List (Tree ν) → List Nat
  | [] => []
  | t :: ts => occurrences t ++ occurrencesAll ts

end

end Tree

namespace Term

mutual

/-- The variables of a term as they occur from left to right. -/
def occurrences : Term → List Nat
  | var v => [v]
  | compound _ _ x xs => occurrences x ++ occurrencesAll xs
  | _ => []

/-- The variables of the terms of a list as they occur. -/
def occurrencesAll : List Term → List Nat
  | [] => []
  | t :: ts => occurrences t ++ occurrencesAll ts

end

variable {ν : Type} {r : Reading ν} {ρ : Nat → Nat} {t u : Term} {v : Nat}

/-- The occurrences in a list are those in its terms. -/
theorem mem_occurrencesAll {ts : List Term} :
    v ∈ occurrencesAll ts ↔ ∃ t ∈ ts, v ∈ t.occurrences := by
  induction ts with
  | nil => simp [occurrencesAll]
  | cons t ts ih => simp [occurrencesAll, ih]

/-- The occurrences in a node are those in its arguments. -/
theorem occurrences_of_compound {i : Nat} {f : Atom} {x : Term} {xs : List Term} :
    (compound i f x xs).occurrences = occurrencesAll (x :: xs) := by
  rw [occurrences, occurrencesAll]

/-- In a leaf that is no variable none occurs. -/
theorem occurrences_leaf (hvar : t.kind ≠ .var) (hargs : t.arguments = []) :
    t.occurrences = [] := by
  cases t with
  | var v => exact absurd rfl hvar
  | compound => cases hargs
  | _ => rfl

/-- The variables that occur are those within the term. -/
theorem mem_occurrences : v ∈ t.occurrences ↔ Within (var v) t := by
  induction t using induction_arguments with
  | h t ih =>
    cases t with
    | var w => simp [occurrences, within_var]
    | compound i f x xs =>
      rw [occurrences_of_compound, mem_occurrencesAll]
      constructor
      · rintro ⟨y, hy, hv⟩
        exact .arg hy ((ih y hy).mp hv)
      · intro hv
        cases hv with
        | @arg _ y hy hv => exact ⟨y, hy, (ih y hy).mpr hv⟩
    | _ =>
      constructor
      · intro hv
        cases hv
      · intro hv
        cases hv.eq_of_arguments_nil rfl

theorem occurrencesAll_under {ts : List Term}
    (h : ∀ t ∈ ts, (t.under r fun v => .var (ρ v)).occurrences = t.occurrences.map ρ) :
    Tree.occurrencesAll (ts.map (under r fun v => .var (ρ v))) = (occurrencesAll ts).map ρ := by
  induction ts with
  | nil => rfl
  | cons t ts ih =>
    rw [List.map_cons, Tree.occurrencesAll, occurrencesAll, List.map_append, h t List.mem_cons_self,
      ih fun u hu => h u (List.mem_cons_of_mem _ hu)]

/-- Renaming the variables renames their occurrences. -/
theorem occurrences_under (t : Term) :
    (t.under r fun v => .var (ρ v)).occurrences = t.occurrences.map ρ := by
  induction t using induction_arguments with
  | h t ih =>
    cases t with
    | compound i f x xs =>
      rw [under_compound, occurrences_of_compound, Tree.occurrences]
      exact occurrencesAll_under ih
    | _ => rfl

/-- Terms with the trees of renamed terms have their occurrences, renamed. -/
theorem occurrencesAll_of_under_eq {ts us : List Term}
    (h : us.map (under r .var) = ts.map (under r fun v => .var (ρ v))) :
    occurrencesAll us = (occurrencesAll ts).map ρ := by
  have hus : Tree.occurrencesAll (us.map (under r Tree.var)) = (occurrencesAll us).map id :=
    occurrencesAll_under (ρ := id) fun t _ => occurrences_under t
  rw [List.map_id] at hus
  rw [← hus, h, occurrencesAll_under fun t _ => occurrences_under t]

end Term

/-! ## Lists without repetitions -/

section Lists

variable {l : List Nat} {f : Nat → Nat} {a n : Nat}

theorem nodup_eraseDups {α : Type} [BEq α] [LawfulBEq α] (l : List α) : l.eraseDups.Nodup := by
  generalize hn : l.length = n
  induction n using Nat.strong_induction_on generalizing l with
  | _ n ih =>
    cases l with
    | nil => exact List.nodup_nil
    | cons a as =>
      rw [List.eraseDups_cons, List.nodup_cons]
      constructor
      · simp
      · refine ih _ ?_ _ rfl
        have hle := List.length_filter_le (fun b => !b == a) as
        rw [List.length_cons] at hn
        omega

/-- Leaving out repetitions does not depend on names. -/
theorem eraseDups_map (hf : Set.InjOn f {a | a ∈ l}) :
    (l.map f).eraseDups = l.eraseDups.map f := by
  -- the induction is on the length, as the rest is filtered before it goes on
  generalize hn : l.length = n
  induction n using Nat.strong_induction_on generalizing l with
  | _ n ih =>
    cases l with
    | nil => rfl
    | cons a as =>
      have hfilter : (as.map f).filter (fun b => !b == f a) =
          (as.filter fun b => !b == a).map f := by
        rw [List.filter_map]
        refine congrArg (List.map f) (List.filter_congr fun b hb => ?_)
        have hiff : f b = f a ↔ b = a :=
          hf.eq_iff (List.mem_cons_of_mem _ hb) List.mem_cons_self
        simp [hiff]
      have hle := List.length_filter_le (fun b => !b == a) as
      rw [List.length_cons] at hn
      rw [List.map_cons, List.eraseDups_cons, List.eraseDups_cons, List.map_cons, hfilter,
        ih _ (by omega) (hf.mono fun b hb => List.mem_cons_of_mem _ (List.mem_filter.mp hb).1) rfl]

theorem idxOf_map (hf : Set.InjOn f {b | b ∈ l}) (ha : a ∈ l) :
    (l.map f).idxOf (f a) = l.idxOf a := by
  induction l with
  | nil => cases ha
  | cons b l ih =>
    rw [List.map_cons, List.idxOf_cons, List.idxOf_cons]
    by_cases hba : b = a
    · simp [hba]
    · have ha' : a ∈ l := (List.mem_cons.mp ha).resolve_left (Ne.symm hba)
      have hne : f b ≠ f a := fun h => hba (hf List.mem_cons_self ha h)
      rw [beq_false_of_ne hba, beq_false_of_ne hne,
        ih (hf.mono fun c hc => List.mem_cons_of_mem _ hc) ha']

theorem idxOf_range (ha : a < n) : (List.range n).idxOf a = a := by
  have hlength : a < (List.range n).length := by simpa using ha
  have hget := List.Nodup.idxOf_getElem (List.nodup_range (n := n)) a hlength
  rwa [List.getElem_range] at hget

/-- Looking an entry up in a list of entries with their indices. -/
theorem lookup_zipIdx (l : List Nat) (k a : Nat) :
    (l.zipIdx k).lookup a = if a ∈ l then some (k + l.idxOf a) else none := by
  induction l generalizing k with
  | nil => rfl
  | cons b l ih =>
    rw [List.zipIdx_cons, List.lookup_cons, ih, List.idxOf_cons]
    by_cases hba : b = a
    · simp [hba]
    · have hab : a ≠ b := Ne.symm hba
      simp only [beq_false_of_ne hab, beq_false_of_ne hba, List.mem_cons, hab, false_or]
      split
      · simp
        omega
      · rfl

end Lists

/-! ## Places -/

/-- Where a variable occurs for the first time, repetitions left out. -/
def place (vs : List Nat) (v : Nat) : Nat := vs.eraseDups.idxOf v

section Places

variable {vs ws : List Nat} {v : Nat} {f : Nat → Nat}

/-- A variable keeps its place when more variables follow. -/
theorem place_append (h : v ∈ vs) : place (vs ++ ws) v = place vs v := by
  unfold place
  rw [List.eraseDups_append]
  exact List.idxOf_append_of_mem (List.mem_eraseDups.mpr h)

theorem place_lt (h : v ∈ vs) : place vs v < vs.eraseDups.length :=
  List.idxOf_lt_length_of_mem (List.mem_eraseDups.mpr h)

/-- It is found at its place. -/
theorem getElem?_place (h : v ∈ vs) : vs.eraseDups[place vs v]? = some v := by
  rw [List.getElem?_eq_getElem (place_lt h)]
  exact congrArg some (List.getElem_idxOf _)

/-- Different variables have different places. -/
theorem injOn_place (vs : List Nat) : Set.InjOn (place vs) {v | v ∈ vs} := by
  intro v hv w hw h
  have hget : vs.eraseDups[place vs v]? = some w := by rw [h, getElem?_place hw]
  exact Option.some.inj ((getElem?_place hv).symm.trans hget)

/-- The places of the different variables are numbered densely. -/
theorem eraseDups_map_place (vs : List Nat) :
    (vs.map (place vs)).eraseDups = List.range vs.eraseDups.length := by
  rw [eraseDups_map (injOn_place vs)]
  refine List.ext_getElem (by simp) fun i hi hi' => ?_
  rw [List.getElem_map, List.getElem_range]
  exact List.Nodup.idxOf_getElem (nodup_eraseDups vs) i _

/-- Dense variables have themselves as places. -/
theorem place_of_range {n : Nat} (h : vs.eraseDups = List.range n) (hv : v ∈ vs) :
    place vs v = v := by
  have hlt : v ∈ List.range n := h ▸ List.mem_eraseDups.mpr hv
  rw [place, h, idxOf_range (List.mem_range.mp hlt)]

/-- Places do not depend on the names of the variables. -/
theorem place_map (hf : Set.InjOn f {v | v ∈ vs}) (hv : v ∈ vs) :
    place (vs.map f) (f v) = place vs v := by
  unfold place
  rw [eraseDups_map hf]
  have hmono : Set.InjOn f {w | w ∈ vs.eraseDups} := hf.mono fun w => List.mem_eraseDups.mp
  exact idxOf_map hmono (List.mem_eraseDups.mpr hv)

end Places

end Horn
