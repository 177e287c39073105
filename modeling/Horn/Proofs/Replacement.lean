import Horn.Proofs.Occurrences
import Horn.Proofs.Rebuilding

/-!
# Replacing variables

Numbering and copying rebuild a term in the same way: a variable is looked up in a table, and one
that the table does not have is entered under the next number that is left. So when a term has been
gone through, the table has its variables in the order of their first occurrences, and each of them
has been replaced by its entry in the table that is left in the end.

- `Term.replaced`: a term with its variables replaced, rebuilt from its leaves.
- `Replaces`: the visitors that replace variables; `Replaces.run`: what rebuilding with one gives.
- `VarTable.unseen`, `VarTable.enrolled`: the variables that are new to a table, and the table in
  which they have been entered.
- `VarTable.enrolled_append`: variables may be entered one after the other.
-/

namespace Horn

/-! ## Terms with their variables replaced -/

namespace Term

mutual

/-- The term with its variables replaced, and the identities that are left. A node is rebuilt once
its arguments are: kept if nodes are shared and all of them came back, otherwise made anew. -/
def replaced (share : Bool) (m : Nat → Term) (supply : Supply) : Term → Term × Supply
  | var v => (m v, supply)
  | compound i f x xs =>
    let first := replaced share m supply x
    let rest := replacedAll share m first.2 xs
    Node.rebuilt share ⟨i, f, x, xs⟩ (first.1 :: rest.1) rest.2
  | atom a => (atom a, supply)
  | int n => (int n, supply)
  | float x => (float x, supply)
  | box b => (box b, supply)

/-- The terms of a list with their variables replaced, one after the other. -/
def replacedAll (share : Bool) (m : Nat → Term) (supply : Supply) :
    List Term → List Term × Supply
  | [] => ([], supply)
  | t :: ts =>
    let first := replaced share m supply t
    let rest := replacedAll share m first.2 ts
    (first.1 :: rest.1, rest.2)

end

variable {share : Bool} {m m' : Nat → Term} {supply : Supply} {t : Term} {ts : List Term}

theorem replaced_leaf (hvar : t.kind ≠ .var) (hargs : t.arguments = []) :
    t.replaced share m supply = (t, supply) := by
  cases t with
  | var v => exact absurd rfl hvar
  | compound => cases hargs
  | _ => rfl

/-- A node is rebuilt from its arguments, with their variables replaced. -/
theorem replaced_compound {i : Nat} {f : Atom} {x : Term} {xs : List Term} :
    (compound i f x xs).replaced share m supply =
      Node.rebuilt share ⟨i, f, x, xs⟩ (replacedAll share m supply (x :: xs)).1
        (replacedAll share m supply (x :: xs)).2 := by
  rw [replaced, replacedAll]

mutual

/-- The variables that occur decide what comes out. -/
theorem replaced_congr : ∀ (t : Term) {supply : Supply}, (∀ v ∈ t.occurrences, m v = m' v) →
    t.replaced share m supply = t.replaced share m' supply
  | var v, _, h => by rw [replaced, replaced, h v List.mem_cons_self]
  | compound i f x xs, supply, h => by
    rw [replaced, replaced, replaced_congr x fun v hv => h v (List.mem_append_left _ hv),
      replacedAll_congr xs fun v hv => h v (List.mem_append_right _ hv)]
  | atom _, _, _ => rfl
  | int _, _, _ => rfl
  | float _, _, _ => rfl
  | box _, _, _ => rfl

theorem replacedAll_congr : ∀ (ts : List Term) {supply : Supply},
    (∀ v ∈ occurrencesAll ts, m v = m' v) →
      replacedAll share m supply ts = replacedAll share m' supply ts
  | [], _, _ => rfl
  | t :: ts, _, h => by
    rw [replacedAll, replacedAll, replaced_congr t fun v hv => h v (List.mem_append_left _ hv),
      replacedAll_congr ts fun v hv => h v (List.mem_append_right _ hv)]

end

end Term

/-! ## Visitors that replace variables -/

section Visitors

variable {σ : Type}

/-- The visitor enters every node and keeps every leaf that is no variable. When it has seen the
variables of a list the state is `after s vs`, where `image` tells what they are replaced by. -/
structure Replaces (visit : Term → Run σ Visit) (image : σ → Nat → Term)
    (after : σ → List Nat → σ) : Prop where
  var : ∀ v s, visit (.var v) s = .ok (.leaf (image (after s [v]) v), after s [v])
  node : ∀ (n : Node) s, visit n.term s = .ok (.enter n, s)
  leaf : ∀ t s, t.kind ≠ .var → t.arguments = [] → visit t s = .ok (.leaf t, s)
  nil : ∀ s, after s [] = s
  append : ∀ s vs ws, after (after s vs) ws = after s (vs ++ ws)
  /-- What has been seen stays what it is. -/
  stays : ∀ s vs ws, ∀ v ∈ vs, image (after s (vs ++ ws)) v = image (after s vs) v

namespace Replaces

variable {visit : Term → Run σ Visit} {image : σ → Nat → Term} {after : σ → List Nat → σ}
  {t : Term} {ts : List Term}

/-- The walk gets from the term to what it is with its variables replaced. -/
def Walks (share : Bool) (visit : Term → Run σ Visit) (image : σ → Nat → Term)
    (after : σ → List Nat → σ) (t : Term) : Prop :=
  ∀ supply s, Rebuilds share visit t.size t supply s
    (t.replaced share (image (after s t.occurrences)) supply).1
    (t.replaced share (image (after s t.occurrences)) supply).2 (after s t.occurrences)

variable {share : Bool} (h : Replaces visit image after)
include h

/-- A walk over the terms of a list replaces the variables of each. -/
theorem walksAll (hts : ∀ t ∈ ts, Walks share visit image after t) (supply : Supply) (s : σ) :
    RebuildsAll share visit (Term.sizeAll ts) ts supply s
      (Term.replacedAll share (image (after s (Term.occurrencesAll ts))) supply ts).1
      (Term.replacedAll share (image (after s (Term.occurrencesAll ts))) supply ts).2
      (after s (Term.occurrencesAll ts)) := by
  induction ts generalizing supply s with
  | nil =>
    rw [Term.occurrencesAll, h.nil]
    exact .nil
  | cons t ts ih =>
    obtain ⟨ht, hts⟩ := List.forall_mem_cons.mp hts
    have hhead := ht supply s
    -- later variables do not change what those of the first term are replaced by
    rw [← Term.replaced_congr t (h.stays s t.occurrences (Term.occurrencesAll ts))] at hhead
    have htail := ih hts (t.replaced share
      (image (after s (t.occurrences ++ Term.occurrencesAll ts))) supply).2 (after s t.occurrences)
    rw [h.append] at htail
    exact .cons hhead htail

/-- **Walks replace variables**, by induction over the term. -/
theorem walks (t : Term) : Walks share visit image after t := by
  induction t using Term.induction_arguments with
  | h t ih =>
    intro supply s
    cases t with
    | var v => exact .leaf (h.var v s)
    | compound i f x xs =>
      rw [Term.replaced_compound, Term.occurrences_of_compound]
      exact .enter (h.node ⟨i, f, x, xs⟩ s) (h.walksAll ih supply s)
    | _ =>
      rw [Term.replaced_leaf Kind.noConfusion rfl, Term.occurrences_leaf Kind.noConfusion rfl,
        h.nil]
      exact .leaf (h.leaf _ s Kind.noConfusion rfl)

/-- **Rebuilding** with such a visitor takes as many visits as the term has subterms, and replaces
each variable by what is told of it in the end. -/
theorem run (t : Term) (supply : Supply) (s : σ) :
    rebuild share visit t.size t supply s =
      .ok (t.replaced share (image (after s t.occurrences)) supply, after s t.occurrences) :=
  (h.walks t supply s).run (Nat.le_refl _)

end Replaces

end Visitors

/-! ## Entering new variables -/

namespace VarTable

variable {α : Type} {m : VarTable α} {f : Nat → α} {k v n : Nat} {vs ws : List Nat}

/-- The variables of a list that the table does not have, each where it occurs first. -/
def unseen (m : VarTable α) (vs : List Nat) : List Nat :=
  (vs.filter fun v => (m.find? v).isNone).eraseDups

/-- The table in which the variables of a list have been entered that it did not have, under the
numbers from `k` on. -/
def enrolled (m : VarTable α) (f : Nat → α) (k : Nat) (vs : List Nat) : VarTable α :=
  ⟨m.entries ++ ((m.unseen vs).zipIdx k).map fun (v, n) => (v, f n)⟩

/-- The unseen variables of a list are those without an entry. -/
theorem mem_unseen : v ∈ m.unseen vs ↔ v ∈ vs ∧ m.find? v = none := by
  simp [unseen]

theorem size_enrolled : (m.enrolled f k vs).size = m.size + (m.unseen vs).length := by
  simp [enrolled, size]

/-- Positions are looked up in a list by element. -/
theorem lookup_map_zipIdx (l : List Nat) :
    ((l.zipIdx k).map fun (v, n) => (v, f n)).lookup v =
      if v ∈ l then some (f (k + l.idxOf v)) else none := by
  have hmap : ∀ l : List (Nat × Nat),
      (l.map fun (v, n) => (v, f n)).lookup v = (l.lookup v).map f := by
    intro l
    induction l with
    | nil => rfl
    | cons e l ih =>
      obtain ⟨w, n⟩ := e
      rw [List.map_cons, List.lookup_cons, List.lookup_cons, ih]
      split <;> rfl
  rw [hmap, lookup_zipIdx]
  split <;> rfl

/-- An entry of the new table is an old one, or one of those that were entered. -/
theorem find?_enrolled : (m.enrolled f k vs).find? v = (m.find? v).or
    (if v ∈ m.unseen vs then some (f (k + (m.unseen vs).idxOf v)) else none) := by
  rw [find?, enrolled, List.lookup_append, lookup_map_zipIdx]
  rfl

/-- Old entries stay. -/
theorem find?_enrolled_of_some {x : α} (h : m.find? v = some x) :
    (m.enrolled f k vs).find? v = some x := by
  rw [find?_enrolled, h, Option.some_or]

/-- New ones are numbered in the order of first occurrence. -/
theorem find?_enrolled_of_getElem? (h : (m.unseen vs)[n]? = some v) :
    (m.enrolled f k vs).find? v = some (f (k + n)) := by
  obtain ⟨hn, rfl⟩ := List.getElem?_eq_some_iff.mp h
  have hmem : (m.unseen vs)[n] ∈ m.unseen vs := List.getElem_mem hn
  have hidx : (m.unseen vs).idxOf (m.unseen vs)[n] = n :=
    (nodup_eraseDups _).idxOf_getElem n hn
  rw [find?_enrolled, (mem_unseen.mp hmem).2, if_pos hmem, hidx, Option.none_or]

/-- The table has the variables that it had and those of the list. -/
theorem isSome_enrolled :
    ((m.enrolled f k vs).find? v).isSome ↔ (m.find? v).isSome ∨ v ∈ vs := by
  rw [find?_enrolled]
  cases hv : m.find? v with
  | some x => simp
  | none => simp [mem_unseen, hv]

/-- What is found in the new table is an old entry, or one with a number that has been given out. -/
theorem find?_enrolled_cases {x : α} (h : (m.enrolled f k vs).find? v = some x) :
    m.find? v = some x ∨
      m.find? v = none ∧ ∃ n, (m.unseen vs)[n]? = some v ∧ x = f (k + n) := by
  rw [find?_enrolled] at h
  cases hv : m.find? v with
  | some y =>
    rw [hv, Option.some_or] at h
    exact .inl h
  | none =>
    rw [hv, Option.none_or] at h
    split at h
    · rename_i hmem
      refine .inr ⟨rfl, _, List.getElem?_idxOf hmem, (Option.some.inj h).symm⟩
    · cases h

theorem unseen_nil : m.unseen [] = [] := rfl

theorem enrolled_nil : m.enrolled f k [] = m := by
  simp [enrolled, unseen_nil]

/-- Of the variables of two lists, those of the second are new that neither the table has nor the
first list. -/
theorem unseen_append :
    m.unseen (vs ++ ws) = m.unseen vs ++ (m.enrolled f k vs).unseen ws := by
  have hpred : ∀ v, ((m.enrolled f k vs).find? v).isNone =
      (!(vs.filter fun v => (m.find? v).isNone).elem v && (m.find? v).isNone) := by
    intro v
    rw [Bool.eq_iff_iff, Option.isNone_iff_eq_none, ← Option.not_isSome_iff_eq_none,
      isSome_enrolled]
    cases hv : m.find? v <;> simp [hv]
  rw [unseen, unseen, unseen, List.filter_append, List.eraseDups_append, List.removeAll,
    List.filter_filter, List.filter_congr fun v _ => hpred v]

/-- **Variables may be entered one after the other**: the numbers go on where they were left. -/
theorem enrolled_append : (m.enrolled f k vs).enrolled f (k + (m.unseen vs).length) ws =
    m.enrolled f k (vs ++ ws) := by
  have hnumbers : (m.unseen (vs ++ ws)).zipIdx k = (m.unseen vs).zipIdx k ++
      ((m.enrolled f k vs).unseen ws).zipIdx (k + (m.unseen vs).length) := by
    rw [unseen_append, List.zipIdx_append]
  show VarTable.mk _ = VarTable.mk _
  rw [hnumbers, List.map_append, ← List.append_assoc]
  rfl

theorem unseen_singleton (h : m.find? v = none) : m.unseen [v] = [v] := by
  simp [unseen, h, List.eraseDups_cons]

theorem unseen_known (h : (m.find? v).isSome) : m.unseen [v] = [] := by
  obtain ⟨x, hx⟩ := Option.isSome_iff_exists.mp h
  simp [unseen, hx]

/-- One variable that the table does not have is entered. -/
theorem enrolled_singleton (h : m.find? v = none) : m.enrolled f k [v] = m.insert v (f k) := by
  rw [enrolled, unseen_singleton h, insert, h]
  rfl

/-- One that it has is not. -/
theorem enrolled_known (h : (m.find? v).isSome) : m.enrolled f k [v] = m := by
  simp [enrolled, unseen_known h]

end VarTable

end Horn
