import Horn.Proofs.Replacement

/-!
# Dense numberings

A numbering may be used for several terms, one after the other, and its numbers may begin anywhere.
As long as they are dense they stay so, and different variables have different numbers, also where a
number is the old index of a variable that is still to come. Nothing is lost: the term is got back
by the inverse numbering. A node is kept if all of its variables keep their indices, and only then.

- `Numbering.Dense`: the numbers are those from `offset` on, one for each variable.
- `renumber_eq`: the term and the numbering that are left.
- `Term.Relabeled`: a term with its variables renamed, in which nodes are kept where they can be.
- `Densifies`: what numbering a term comes to; `renumber_dense`: that it does.
-/

namespace Horn

variable {offset k v n : Nat} {ρ : Nat → Nat} {numbering : Numbering} {vs : List Nat}
  {t r u w : Term} {supply : Supply}

/-! ## Dense numbers -/

namespace Numbering

/-- Different variables have different numbers, and the numbers are those from `offset` on, as many
as there are entries. -/
structure Dense (offset : Nat) (numbering : Numbering) : Prop where
  injective : ∀ u v n, numbering.find? u = some n → numbering.find? v = some n → u = v
  fills : ∀ n, (∃ v, numbering.find? v = some n) ↔ offset ≤ n ∧ n < offset + numbering.size

/-- The number of a variable; one without a number keeps its index. -/
def number (numbering : Numbering) (v : Nat) : Nat := (numbering.find? v).getD v

/-- The numbering after the variables of a list have been seen. -/
def after (offset : Nat) (numbering : Numbering) (vs : List Nat) : Numbering :=
  numbering.enrolled id (offset + numbering.size) vs

theorem number_of_find? (h : numbering.find? v = some n) : numbering.number v = n := by
  rw [number, h]
  rfl

/-- A variable that has a number keeps its index if that is the number. -/
theorem number_eq_self_iff (h : (numbering.find? v).isSome) :
    numbering.number v = v ↔ numbering.find? v = some v := by
  obtain ⟨n, hn⟩ := Option.isSome_iff_exists.mp h
  rw [number_of_find? hn, hn, Option.some.injEq]

/-- Numbering the variables of two lists, one list after the other. -/
theorem after_append {ws : List Nat} :
    after offset (after offset numbering vs) ws = after offset numbering (vs ++ ws) := by
  unfold after
  rw [VarTable.size_enrolled, ← Nat.add_assoc, VarTable.enrolled_append]

/-- A variable that has been seen keeps its number. -/
theorem number_after {ws : List Nat} (h : v ∈ vs) :
    (after offset numbering (vs ++ ws)).number v = (after offset numbering vs).number v := by
  obtain ⟨n, hn⟩ : ∃ n, (after offset numbering vs).find? v = some n :=
    Option.isSome_iff_exists.mp (VarTable.isSome_enrolled.mpr (.inr h))
  have hlater : (after offset (after offset numbering vs) ws).find? v = some n :=
    VarTable.find?_enrolled_of_some hn
  rw [after_append] at hlater
  rw [number_of_find? hn, number_of_find? hlater]

namespace Dense

/-- New variables get the numbers that follow, so the numbers stay dense. -/
theorem after (h : numbering.Dense offset) (vs : List Nat) :
    Dense offset (numbering.after offset vs) := by
  -- the numbers given before are below those given now
  have hold : ∀ {v n}, numbering.find? v = some n → n < offset + numbering.size := fun hv =>
    ((h.fills _).mp ⟨_, hv⟩).2
  constructor
  case injective =>
    intro u v n hu hv
    rcases VarTable.find?_enrolled_cases hu with hu | ⟨-, i, hi, rfl⟩ <;>
      rcases VarTable.find?_enrolled_cases hv with hv | ⟨-, j, hj, hij⟩
    · exact h.injective u v n hu hv
    · have := hold hu
      simp only [id_eq] at hij
      omega
    · have := hold hv
      simp only [id_eq] at this
      omega
    · simp only [id_eq, Nat.add_left_cancel_iff] at hij
      rw [hij, hj] at hi
      exact (Option.some.inj hi).symm
  case fills =>
    intro n
    have hsize : (numbering.after offset vs).size =
        numbering.size + (numbering.unseen vs).length := VarTable.size_enrolled
    rw [hsize]
    constructor
    · rintro ⟨v, hv⟩
      rcases VarTable.find?_enrolled_cases hv with hv | ⟨-, i, hi, rfl⟩
      · have := (h.fills n).mp ⟨v, hv⟩
        omega
      · obtain ⟨hi, -⟩ := List.getElem?_eq_some_iff.mp hi
        simp only [id_eq]
        omega
    · rintro ⟨hle, hlt⟩
      by_cases hn : n < offset + numbering.size
      · obtain ⟨v, hv⟩ := (h.fills n).mpr ⟨hle, hn⟩
        exact ⟨v, VarTable.find?_enrolled_of_some hv⟩
      · obtain ⟨i, rfl⟩ := Nat.exists_eq_add_of_le (Nat.le_of_not_lt hn)
        have hi : i < (numbering.unseen vs).length := by omega
        exact ⟨_, VarTable.find?_enrolled_of_getElem? (List.getElem?_eq_getElem hi)⟩

/-- The variable of each number can be told. -/
theorem exists_inverse (h : numbering.Dense offset) :
    ∃ back : Nat → Nat, ∀ v n, numbering.find? v = some n → back n = v := by
  classical
  refine ⟨fun n => if hn : ∃ v, numbering.find? v = some n then hn.choose else 0, fun v n hv => ?_⟩
  have hn : ∃ v, numbering.find? v = some n := ⟨v, hv⟩
  exact (dif_pos hn).trans (h.injective _ _ n hn.choose_spec hv)

end Dense

end Numbering

/-! ## Numbering a term -/

/-- The visitor enters a variable that has no number under the next one. -/
theorem visitNumber_replaces (offset : Nat) :
    Replaces (visitNumber offset) (fun numbering v => .var (numbering.number v))
      (Numbering.after offset) where
  var v numbering := by
    have hget : (get : Run Numbering Numbering) numbering = .ok (numbering, numbering) := rfl
    unfold visitNumber
    dsimp only
    rw [Run.bind_ok hget]
    cases hv : numbering.find? v with
    | some n =>
      -- a variable that has a number keeps it
      have hafter : numbering.after offset [v] = numbering :=
        VarTable.enrolled_known (hv ▸ rfl)
      rw [hafter, Numbering.number_of_find? hv]
      rfl
    | none =>
      have hafter : numbering.after offset [v] = numbering.insert v (offset + numbering.size) :=
        VarTable.enrolled_singleton hv
      have hself : (numbering.after offset [v]).find? v = some (offset + numbering.size) :=
        VarTable.find?_enrolled_of_getElem? (n := 0) (by rw [VarTable.unseen_singleton hv]; rfl)
      rw [Numbering.number_of_find? hself, hafter]
      rfl
  node _ _ := rfl
  leaf t _ hvar hargs := by
    cases t with
    | var v => exact absurd rfl hvar
    | compound => cases hargs
    | _ => rfl
  nil _ := VarTable.enrolled_nil
  append _ _ _ := Numbering.after_append
  stays _ _ _ _ hv := congrArg Term.var (Numbering.number_after hv)

/-- **Numbering ends.** The variables of the term are replaced by their numbers in the numbering
that is left, in which they have been entered as they occur. -/
theorem renumber_eq (offset : Nat) (t : Term) (supply : Supply) (numbering : Numbering) :
    renumber offset t supply numbering =
      .ok (t.replaced true (fun v => .var ((numbering.after offset t.occurrences).number v)) supply,
        numbering.after offset t.occurrences) :=
  (visitNumber_replaces offset).run t supply numbering

/-! ## Terms with their variables renamed -/

namespace Term

/-- Every variable of the term keeps its index. -/
def FixedBy (ρ : Nat → Nat) (t : Term) : Prop := ∀ v, Within (var v) t → ρ v = v

/-- The term with its variables renamed, node by node. A node whose variables keep their indices is
left as the node that it is; any other one is made anew, with an identity from `k` on. -/
inductive Relabeled (ρ : Nat → Nat) (k : Nat) : Term → Term → Prop where
  | var (v : Nat) : Relabeled ρ k (.var v) (.var (ρ v))
  | leaf {t : Term} (hvar : t.kind ≠ .var) (hargs : t.arguments = []) : Relabeled ρ k t t
  | kept {i : Nat} {f : Atom} {x : Term} {xs : List Term}
      (h : FixedBy ρ (.compound i f x xs)) :
      Relabeled ρ k (.compound i f x xs) (.compound i f x xs)
  | rebuilt {i j : Nat} {f : Atom} {x y : Term} {xs ys : List Term}
      (h : ¬FixedBy ρ (.compound i f x xs)) (hj : k ≤ j)
      (hlength : (x :: xs).length = (y :: ys).length)
      (hargs : ∀ {a b : Term}, (a, b) ∈ (x :: xs).zip (y :: ys) → Relabeled ρ k a b) :
      Relabeled ρ k (.compound i f x xs) (.compound j f y ys)

/-- The subterm that is reached by a path, which names the argument to go on with at each node. -/
def subterm? : Term → List Nat → Option Term
  | t, [] => some t
  | t, i :: path => t.arguments[i]?.bind fun x => x.subterm? path

theorem within_of_subterm? : ∀ {t u : Term} {path : List Nat}, t.subterm? path = some u → Within u t
  | _, _, [], h => by
    cases h
    exact .here
  | t, u, i :: path, h => by
    obtain ⟨x, hx, hu⟩ := Option.bind_eq_some_iff.mp h
    exact .arg (List.mem_of_getElem? hx) (within_of_subterm? hu)

theorem fixedBy_var : FixedBy ρ (.var v) ↔ ρ v = v :=
  ⟨fun h => h v .here, fun h _ hw => within_var.mp hw ▸ h⟩

/-- In a term that is no variable, the variables are those of its arguments. -/
theorem fixedBy_iff (h : t.kind ≠ .var) : FixedBy ρ t ↔ ∀ x ∈ t.arguments, FixedBy ρ x := by
  refine ⟨fun ht x hx v hv => ht v (.arg hx hv), fun hargs v hv => ?_⟩
  cases hv with
  | here => exact absurd rfl h
  | arg hx hv => exact hargs _ hx v hv

namespace Relabeled

/-- Where indices are kept, the term is. -/
theorem of_fixedBy (h : FixedBy ρ t) : Relabeled ρ k t t := by
  cases t with
  | var v =>
    have hv := Relabeled.var (ρ := ρ) (k := k) v
    rwa [fixedBy_var.mp h] at hv
  | compound => exact .kept h
  | _ => exact .leaf Kind.noConfusion rfl

/-- A term whose variables keep their indices is returned as it is. -/
theorem eq_of_fixedBy (h : Relabeled ρ k t r) (ht : FixedBy ρ t) : r = t := by
  cases h with
  | var v => rw [fixedBy_var.mp ht]
  | leaf => rfl
  | kept => rfl
  | rebuilt h => exact absurd ht h

/-- The result is the same object if and only if all indices are kept. -/
theorem same_iff (h : Relabeled ρ k t r) (ht : t.Older k) : r.same t = true ↔ FixedBy ρ t := by
  refine ⟨fun hsame => ?_, fun hfixed => h.eq_of_fixedBy hfixed ▸ r.same_self⟩
  cases h with
  | var v => exact fixedBy_var.mpr (beq_iff_eq.mp hsame)
  | leaf hvar hargs => exact (fixedBy_iff hvar).mpr fun x hx => by rw [hargs] at hx; cases hx
  | kept h => exact h
  | @rebuilt i j f x y xs ys _ hj _ _ =>
    have hij : j = i := beq_iff_eq.mp hsame
    exact absurd (hij ▸ ht.here : j < k) (Nat.not_lt.mpr hj)

/-- A term with old nodes is returned as it is if and only if all of its variables keep their
indices. -/
theorem eq_iff (h : Relabeled ρ k t r) (ht : t.Older k) : r = t ↔ FixedBy ρ t :=
  ⟨fun heq => (h.same_iff ht).mp (heq ▸ r.same_self), h.eq_of_fixedBy⟩

/-- Arguments are renamed one by one. -/
theorem arguments (h : Relabeled ρ k t r) :
    List.Forall₂ (Relabeled ρ k) t.arguments r.arguments := by
  have hself : ∀ ts : List Term, (∀ x ∈ ts, FixedBy ρ x) → List.Forall₂ (Relabeled ρ k) ts ts :=
    fun ts hts => List.forall₂_same.mpr fun x hx => of_fixedBy (hts x hx)
  cases h with
  | var v => exact .nil
  | leaf hvar hargs => exact hself _ fun x hx => by rw [hargs] at hx; cases hx
  | kept h => exact hself _ ((fixedBy_iff Kind.noConfusion).mp h)
  | rebuilt _ _ hlength hargs => exact List.forall₂_iff_zip.mpr ⟨hlength, hargs⟩

/-- The trees of the two differ in the names of the variables only. -/
theorem under {ν : Reading Unit} {σ : Nat → Tree Unit} (h : Relabeled ρ k t r) :
    r.under ν σ = t.under ν fun v => σ (ρ v) := by
  induction h with
  | var v => rfl
  | @leaf t hvar hargs =>
    refine under_congr fun v hv => ?_
    exact absurd (congrArg kind (hv.eq_of_arguments_nil hargs)).symm hvar
  | kept h => exact under_congr fun v hv => congrArg σ (h v hv).symm
  | @rebuilt i j f x y xs ys _ _ hlength _ ih =>
    rw [under_compound, under_compound, map_eq_of_zip hlength ih]

/-- What is reached by one path in both is renamed. -/
theorem subterm : ∀ {path : List Nat} {t r u : Term}, Relabeled ρ k t r →
    r.subterm? path = some u → ∃ w, t.subterm? path = some w ∧ Relabeled ρ k w u
  | [], t, r, u, h, hu => by
    cases hu
    exact ⟨t, rfl, h⟩
  | i :: path, t, r, u, h, hu => by
    obtain ⟨y, hy, hu⟩ := Option.bind_eq_some_iff.mp hu
    obtain ⟨hi, rfl⟩ := List.getElem?_eq_some_iff.mp hy
    have hargs := h.arguments
    have hi' : i < t.arguments.length := hargs.length_eq ▸ hi
    obtain ⟨w, hw, hwu⟩ := (hargs.get hi' hi).subterm hu
    exact ⟨w, Option.bind_eq_some_iff.mpr ⟨_, List.getElem?_eq_getElem hi', hw⟩, hwu⟩

/-- A node that is found in the result is the old one, or none of those that there were. -/
theorem eq_of_same_old (h : Relabeled ρ k t r) (hr : r.kind = .compound) (hw : w.Older k)
    (hsame : r.same w = true) : r = t := by
  cases h with
  | var v => cases hr
  | leaf => rfl
  | kept => rfl
  | @rebuilt i j f x y xs ys _ hj _ _ =>
    cases w with
    | compound i' =>
      have hij : j = i' := beq_iff_eq.mp hsame
      exact absurd (hij ▸ hw.here : j < k) (Nat.not_lt.mpr hj)
    | _ => cases hsame

/-- A node rebuilt from renamed arguments is renamed. -/
theorem node {n : Node} {results : List Term} (h : List.Forall₂ (Relabeled ρ k) n.arguments results)
    (hnode : n.term.Older k) (hk : k ≤ supply.next) :
    Relabeled ρ k n.term (n.rebuilt true results supply).1 := by
  have hfixed : FixedBy ρ n.term ↔ ∀ x ∈ n.arguments, FixedBy ρ x := fixedBy_iff Kind.noConfusion
  rcases n.rebuilt_shared supply h fun x hx _ hr => hr.same_iff (hnode.arg hx) with
    ⟨hkept, heq⟩ | ⟨hchanged, y, ys, rfl, heq⟩
  · rw [heq]
    exact .kept (hfixed.mpr hkept)
  · rw [heq]
    exact .rebuilt (mt hfixed.mp hchanged) hk (List.Forall₂.length_eq h) (List.forall₂_zip h)

end Relabeled

/-- Replacing goes through the terms of a list from left to right. -/
theorem relabeledAll_replaced {ts : List Term}
    (h : ∀ t ∈ ts, ∀ supply : Supply, t.Older k → k ≤ supply.next →
      Relabeled ρ k t (t.replaced true (fun v => .var (ρ v)) supply).1 ∧
        k ≤ (t.replaced true (fun v => .var (ρ v)) supply).2.next) (supply : Supply)
    (hold : ∀ t ∈ ts, t.Older k) (hk : k ≤ supply.next) :
    List.Forall₂ (Relabeled ρ k) ts (replacedAll true (fun v => .var (ρ v)) supply ts).1 ∧
      k ≤ (replacedAll true (fun v => .var (ρ v)) supply ts).2.next := by
  induction ts generalizing supply with
  | nil => exact ⟨.nil, hk⟩
  | cons t ts ih =>
    obtain ⟨ht, hts⟩ := List.forall_mem_cons.mp hold
    obtain ⟨hhead, hk₁⟩ := h t List.mem_cons_self supply ht hk
    obtain ⟨htail, hk₂⟩ := ih (fun u hu => h u (List.mem_cons_of_mem _ hu)) _ hts hk₁
    exact ⟨.cons hhead htail, hk₂⟩

/-- Replacing variables by others renames them, if old nodes can be told from new ones. -/
theorem relabeled_replaced (t : Term) (supply : Supply) (hold : t.Older k)
    (hk : k ≤ supply.next) :
    Relabeled ρ k t (t.replaced true (fun v => .var (ρ v)) supply).1 ∧
      k ≤ (t.replaced true (fun v => .var (ρ v)) supply).2.next := by
  induction t using induction_arguments generalizing supply with
  | h t ih =>
    cases t with
    | var v => exact ⟨.var v, hk⟩
    | compound i f x xs =>
      obtain ⟨hargs, hk'⟩ := relabeledAll_replaced ih supply (fun y hy => hold.arg hy) hk
      rw [replaced_compound]
      have hnode := Relabeled.node (n := ⟨i, f, x, xs⟩) hargs hold hk'
      exact ⟨hnode, Nat.le_trans hk' (Node.next_le_rebuilt _ _ _ _)⟩
    | _ => exact ⟨.leaf Kind.noConfusion rfl, hk⟩

end Term

/-! ## What numbering comes to -/

/-- What a term and a numbering become when the variables of the term are numbered. -/
structure Densifies (offset : Nat) (t : Term) (k : Nat) (numbering : Numbering) (result : Term)
    (numbering' : Numbering) : Prop where
  /-- Variables that had numbers keep them. -/
  kept : ∀ v n, numbering.find? v = some n → numbering'.find? v = some n
  dense : numbering'.Dense offset
  /-- The variables of the term get numbers, and no others. -/
  entered : ∀ v, (numbering'.find? v).isSome ↔
    (numbering.find? v).isSome ∨ Term.Within (.var v) t
  /-- The new ones are numbered in the order in which they occur first. -/
  ordered : ∀ i v, (numbering.unseen t.occurrences)[i]? = some v →
    numbering'.find? v = some (offset + numbering.size + i)
  /-- All variables are replaced by their numbers. -/
  relabeled : t.Relabeled numbering'.number k result
  /-- The inverse numbering gives the term back. -/
  inverse : ∃ back : Nat → Nat, (∀ v n, numbering'.find? v = some n → back n = v) ∧
    result.under .exact (fun n => .var (back n)) = t.under .exact .var
  /-- A subterm is the one that stood in its place if and only if all its variables keep their
  indices, and no new node is one of the old ones. -/
  shared : ∀ path r, result.subterm? path = some r → ∃ u, t.subterm? path = some u ∧
    (r = u ↔ ∀ v, Term.Within (.var v) u → numbering'.find? v = some v) ∧
      (r.kind = .compound → ∀ w, Term.Within w t → r.same w = true → r = u)

/-- **Numbering is dense, injective and in the order of first occurrence.** For every term, every
offset and every numbering that is dense from the offset on: numbering the term ends, extends the
numbering by the variables of the term that it did not have, in the order of their first
occurrences, and leaves it dense; the result is the term with its variables replaced by their
numbers, from which the inverse numbering gives the term back; and a subterm of it is the very one
of the given term if and only if all its variables keep their indices. -/
theorem renumber_dense (hdense : numbering.Dense offset) (hold : t.Older supply.next) :
    ∃ result supply' numbering',
      renumber offset t supply numbering = .ok ((result, supply'), numbering') ∧
        Densifies offset t supply.next numbering result numbering' := by
  let numbering' := numbering.after offset t.occurrences
  have hdense' : numbering'.Dense offset := hdense.after t.occurrences
  have hentered : ∀ v, (numbering'.find? v).isSome ↔
      (numbering.find? v).isSome ∨ Term.Within (.var v) t := fun v =>
    VarTable.isSome_enrolled.trans (or_congr_right Term.mem_occurrences)
  have hrelabeled := (Term.relabeled_replaced (ρ := numbering'.number) t supply hold
    (Nat.le_refl _)).1
  obtain ⟨back, hback⟩ := hdense'.exists_inverse
  refine ⟨_, _, numbering', renumber_eq offset t supply numbering, ?_⟩
  constructor
  case kept => exact fun v n hv => VarTable.find?_enrolled_of_some hv
  case dense => exact hdense'
  case entered => exact hentered
  case ordered => exact fun i v hv => VarTable.find?_enrolled_of_getElem? hv
  case relabeled => exact hrelabeled
  case inverse =>
    refine ⟨back, hback, hrelabeled.under.trans (Term.under_congr fun v hv => ?_)⟩
    obtain ⟨n, hn⟩ := Option.isSome_iff_exists.mp ((hentered v).mpr (.inr hv))
    rw [Numbering.number_of_find? hn, hback v n hn]
  case shared =>
    intro path r hr
    -- a subterm of the result stands where its original stands in the term
    obtain ⟨u, hu, hur⟩ := hrelabeled.subterm hr
    have hwithin := Term.within_of_subterm? hu
    refine ⟨u, hu, (hur.eq_iff fun w hw => hold w (hw.trans hwithin)).trans ?_,
      fun hkind w hw => hur.eq_of_same_old hkind fun w' hw' => hold w' (hw'.trans hw)⟩
    exact forall₂_congr fun v hv =>
      Numbering.number_eq_self_iff ((hentered v).mpr (.inr (hv.trans hwithin)))

/-- Let `X3` have the number `10`. Numbering `f(X12, g(X3, X11), h(X13))` from `10` on swaps `X11`
and `X12`, and keeps the node of `h`. -/
theorem renumber_dense_swapped :
    let h : Term := .compound 2 ⟨"h", .interned 2⟩ (.var 13) []
    let t : Term := .compound 0 ⟨"f", .interned 0⟩ (.var 12)
      [.compound 1 ⟨"g", .interned 1⟩ (.var 3) [.var 11], h]
    let result : Term := .compound 4 ⟨"f", .interned 0⟩ (.var 11)
      [.compound 3 ⟨"g", .interned 1⟩ (.var 10) [.var 12], h]
    let numbering : Numbering := ⟨[(3, 10)]⟩
    let numbering' : Numbering := ⟨[(3, 10), (12, 11), (11, 12), (13, 13)]⟩
    numbering.Dense 10 ∧ t.Older 3 ∧
      renumber 10 t ⟨3⟩ numbering = .ok ((result, ⟨5⟩), numbering') ∧
        Densifies 10 t 3 numbering result numbering' := by
  intro h t result numbering numbering'
  have hfind : ∀ v n, numbering.find? v = some n ↔ v = 3 ∧ n = 10 := by
    intro v n
    show [(3, 10)].lookup v = some n ↔ _
    rw [List.lookup_singleton]
    by_cases hv : v = 3
    · simp only [hv, beq_self_eq_true, ↓reduceIte, Option.some.injEq, true_and]
      exact eq_comm
    · simp [hv]
  have hdense : numbering.Dense 10 := by
    refine ⟨fun u v n hu hv => ?_, fun n => ?_⟩
    · rw [((hfind u n).mp hu).1, ((hfind v n).mp hv).1]
    · have hsize : numbering.size = 1 := rfl
      simp only [hfind, exists_eq_left, hsize]
      omega
  have hold : t.Older (Supply.mk 3).next := by simp [t, h, Term.Dated]
  have hrun : renumber 10 t ⟨3⟩ numbering = .ok ((result, ⟨5⟩), numbering') := rfl
  obtain ⟨_, _, _, hrun', hdensifies⟩ := renumber_dense hdense hold
  cases hrun.symm.trans hrun'
  exact ⟨hdense, hold, hrun, hdensifies⟩

end Horn
