import Horn.Proofs.Moves

/-!
# What a program can reach

A program of the engine gets at a cell only through a term that it has been given, and from there
through the bindings that it follows. So a part of a store that is closed under bindings, and from
which the terms are taken, decides all that the program does: on two stores that agree there, it
does the same, one write after the other, and all that it writes is there as well. This holds
however the program ends, and even if it does not.

- `Cells.Reaches`: the variables that are reached from a term.
- `Store.Confined`: a region of a store that bindings do not leave.
- `Coincides`: a program does the same on two stores that are related, and its laws for sequences.
- `Store.Joint`: what has to be known of the relation.
- `Store.Together`: the same writes in the region have been made on two stores.
- `coincides_deref`, `coincides_unify`: the programs that work on a store alone.
- `unify_local`: unification reads and writes only what its terms reach.
-/

namespace Horn

variable {region : Set Nat} {s s' s₀ u u' u₀ : Store} {a b r t : Term} {v w : Nat}

/-! ## Regions of a store -/

/-- A variable is in the region. -/
def Term.Placed (region : Set Nat) : Term → Prop
  | var v => v ∈ region
  | _ => True

/-- All variables are in the region. -/
abbrev Term.Inside (region : Set Nat) : Term → Prop := Term.Every (Term.Placed region)

theorem Term.inside_of_forall (h : ∀ v, Within (.var v) t → v ∈ region) : t.Inside region := by
  intro u hu
  cases u with
  | var v => exact h v hu
  | _ => trivial

/-- What is bound in the region stays in it. -/
def Store.Confined (region : Set Nat) (s : Store) : Prop :=
  ∀ v ∈ region, ∀ t, s.cells.Bound v t → t.Inside region

/-- A chain that begins in the region ends in it. -/
theorem Store.Confined.chain {n : Nat} (h : s.Confined region) (hchain : s.cells.Chain n v t)
    (hv : v ∈ region) : t.Inside region := by
  induction hchain with
  | free _ => exact .of_leaf hv rfl
  | found hbound _ => exact h _ hv _ hbound
  | next hbound _ ih => exact ih (h _ hv _ hbound).here

/-- A region stays closed under bindings when a term of the region is written. -/
theorem Store.Confined.bound (h : s.Confined region) (hlt : v < s.cells.size)
    (ht : t.Inside region) : (s.bound v t).Confined region := by
  intro w hw q hq
  have hcases := (Cells.bound_set hlt).mp hq
  split at hcases
  · exact hcases ▸ ht
  · exact h w hw q hcases

/-- The variable occurs in the term, or in what a variable is bound to that is reached. -/
inductive Cells.Reaches (cells : Cells) (t : Term) : Nat → Prop where
  | within {v : Nat} (h : Term.Within (.var v) t) : Reaches cells t v
  | bound {v w : Nat} {u : Term} (h : Reaches cells t v) (hbound : cells.Bound v u)
      (hw : Term.Within (.var w) u) : Reaches cells t w

/-- **What a term reaches is closed under bindings.** -/
theorem Store.confined_reaches (s : Store) (t : Term) : s.Confined {v | s.cells.Reaches t v} :=
  fun _ hv _ hbound => Term.inside_of_forall fun _ hw => .bound hv hbound hw

/-- No region that bindings do not leave is smaller. -/
theorem Cells.Reaches.mem (h : s.cells.Reaches t v) (hs : s.Confined region)
    (ht : t.Inside region) : v ∈ region := by
  induction h with
  | within h => exact ht _ h
  | bound _ hbound hw ih => exact hs _ ih _ hbound _ hw

/-- Two regions that are closed under bindings are so together. -/
theorem Store.Confined.union {region' : Set Nat} (h : s.Confined region)
    (h' : s.Confined region') : s.Confined (region ∪ region') := by
  rintro v (hv | hv) t hbound
  · exact Term.inside_of_forall fun w hw => .inl (h v hv t hbound _ hw)
  · exact Term.inside_of_forall fun w hw => .inr (h' v hv t hbound _ hw)

/-! ## Programs that do the same on two stores -/

section Laws

variable {α β : Type} {J : Store → Store → Prop} {P : α → Prop} {Q : β → Prop}

/-- The result is as stated unless unification has failed. -/
def IfUnified (Q : α → Prop) (result : Except UnifyError α) : Prop := ∀ a, result = .ok a → Q a

theorem ifUnified_ok {a : α} (h : P a) : IfUnified P (.ok a) := by
  rintro _ ⟨⟩
  exact h

theorem ifUnified_error (e : UnifyError) : IfUnified P (.error e) := fun _ h => nomatch h

/-- Two runs end with the same fault, or return the same, which is as stated, and leave related
stores. -/
inductive EndsTogether (J : Store → Store → Prop) (Q : α → Prop) :
    Except Fault (α × Store) → Except Fault (α × Store) → Prop where
  | ok {a : α} {s u : Store} (h : J s u) (ha : Q a) : EndsTogether J Q (.ok (a, s)) (.ok (a, u))
  | fault (f : Fault) : EndsTogether J Q (.error f) (.error f)

/-- The program does the same on related stores, and keeps them related. -/
def Coincides (J : Store → Store → Prop) (x : Run Store α) (Q : α → Prop) : Prop :=
  ∀ s u, J s u → EndsTogether J Q (x s) (x u)

namespace Coincides

theorem pure {a : α} (h : P a) : Coincides J (Pure.pure a : Run Store α) P :=
  fun _ _ hJ => .ok hJ h

theorem fail (f : Fault) : Coincides J (Run.fail f : Run Store α) P := fun _ _ _ => .fault f

theorem bind {x : Run Store α} {f : α → Run Store β} (hx : Coincides J x P)
    (hf : ∀ a, P a → Coincides J (f a) Q) : Coincides J (x >>= f) Q := by
  intro s u hJ
  have hfirst := hx s u hJ
  generalize hs : x s = left, hu : x u = right at hfirst
  cases hfirst with
  | ok hJ' ha =>
    rw [Run.bind_ok hs, Run.bind_ok hu]
    exact hf _ ha _ _ hJ'
  | fault e =>
    rw [Run.bind_error hs, Run.bind_error hu]
    exact .fault e

/-- Both runs of a first part fail to unify, or both go on. -/
theorem attempt {x : Attempt α} {f : α → Attempt β} (hx : Coincides J x (IfUnified P))
    (hf : ∀ a, P a → Coincides J (f a) (IfUnified Q)) :
    Coincides J (x >>= f : Attempt β) (IfUnified Q) := by
  refine Coincides.bind (x := x.run) (f := ExceptT.bindCont f) hx ?_
  rintro (e | a) ha
  · exact pure (ifUnified_error e)
  · exact hf a (ha a rfl)

theorem lift {x : Run Store α} (hx : Coincides J x P) :
    Coincides J (liftM x : Attempt α) (IfUnified P) :=
  Coincides.bind (f := fun a => Pure.pure (Except.ok a)) hx fun _ ha => pure (ifUnified_ok ha)

end Coincides

end Laws

/-! ## Programs on a store -/

/-- A relation between stores of one size that agree in the region, from which bindings do not lead
away. It is kept when the same is written on both sides. -/
structure Store.Joint (region : Set Nat) (J : Store → Store → Prop) : Prop where
  size : ∀ s u, J s u → u.cells.size = s.cells.size
  cells : ∀ s u, J s u → ∀ v ∈ region, u.cells[v]? = s.cells[v]?
  confined : ∀ s u, J s u → s.Confined region
  write : ∀ s u v t, J s u → v < s.cells.size → v ∈ region → t.Inside region →
    J (s.bound v t) (u.bound v t)

/-- What is read from a cell is bound there. -/
theorem Cells.bound_of_read {cells : Cells} (h : cells.read v = .ok (some t)) :
    cells.Bound v t := by
  unfold Cells.read at h
  split at h
  · cases h
    assumption
  · cases h

section Joint

variable {J : Store → Store → Prop} (hJ : Store.Joint region J)
include hJ

theorem coincides_size : Coincides J Store.size fun _ => True := by
  intro s u h
  show EndsTogether J _ (.ok (s.cells.size, s)) (.ok (u.cells.size, u))
  rw [hJ.size s u h]
  exact .ok h trivial

theorem Store.Joint.read_eq (h : J s u) (hv : v ∈ region) :
    u.cells.read v = s.cells.read v := by
  rw [Cells.read, Cells.read, hJ.cells s u h v hv, hJ.size s u h]

/-- What is read in the region is in the region. -/
theorem coincides_read (hv : v ∈ region) :
    Coincides J (Store.read v) fun binding => ∀ t ∈ binding, t.Inside region := by
  intro s u h
  unfold Store.read
  rw [hJ.read_eq h hv]
  cases hs : s.cells.read v with
  | error f => exact .fault f
  | ok binding =>
    refine .ok h ?_
    rintro t ⟨⟩
    exact hJ.confined s u h v hv t (Cells.bound_of_read hs)

theorem coincides_write (hv : v ∈ region) (ht : t.Inside region) :
    Coincides J (Store.bind v t) fun _ => True := by
  intro s u h
  unfold Store.bind
  rw [hJ.size s u h]
  split
  · exact .ok (hJ.write s u v t h ‹_› hv ht) trivial
  · exact .fault _

/-- A chain is followed to the same end, as all of its variables are in the region. -/
theorem Store.Joint.chase_eq (h : J s u) : ∀ (fuel : Nat) {v : Nat}, v ∈ region →
    u.cells.chase fuel v = s.cells.chase fuel v
  | 0, _, _ => rfl
  | fuel + 1, v, hv => by
    rw [Cells.chase, Cells.chase, hJ.read_eq h hv]
    cases hs : s.cells.read v with
    | error f => rfl
    | ok binding =>
      rcases binding with _ | t
      · rfl
      · cases t with
        | var next =>
          exact chase_eq h fuel (hJ.confined s u h v hv _ (Cells.bound_of_read hs)).here
        | _ => rfl

theorem coincides_resolve (ht : t.Inside region) :
    Coincides J (Store.resolve t) (Term.Inside region) := by
  intro s u h
  have hresolve : u.cells.resolve t = s.cells.resolve t := by
    cases t with
    | var v =>
      -- the fuel is the number of cells, which the two stores share
      rw [Cells.resolve, Cells.resolve, hJ.size s u h]
      exact hJ.chase_eq h _ ht.here
    | _ => rfl
  unfold Store.resolve
  rw [hresolve]
  cases hs : s.cells.resolve t with
  | error f => exact .fault f
  | ok r =>
    refine .ok h ?_
    cases t with
    | var v =>
      obtain ⟨n, hchain⟩ := Cells.Chain.exists_of_chase hs
      exact (hJ.confined s u h).chain hchain ht.here
    | _ =>
      cases hs
      exact ht

/-- All variables of a chain are in the region if the first one is. -/
theorem coincides_shorten (hr : r.Inside region) : ∀ (fuel : Nat) {v : Nat}, v ∈ region →
    Coincides J (shorten r fuel v) fun _ => True
  | 0, _, _ => .pure trivial
  | fuel + 1, v, hv => by
    refine (coincides_read hJ hv).bind fun binding hbinding => ?_
    rcases binding with _ | t
    · exact .pure trivial
    · cases t with
      | var next =>
        dsimp only
        split
        · exact .pure trivial
        · exact (coincides_write hJ hv hr).bind fun _ _ =>
            coincides_shorten hr fuel (hbinding _ rfl).here
      | _ => exact .pure trivial

/-- **Dereferencing** reads and writes the chain of its term only, which stays in the region. -/
theorem coincides_deref (ht : t.Inside region) : Coincides J (deref t) (Term.Inside region) := by
  cases t with
  | var v =>
    refine (coincides_resolve hJ ht).bind fun r hr => (coincides_size hJ).bind fun n _ => ?_
    exact (coincides_shorten hJ hr (n + 1) ht.here).bind fun _ _ => .pure hr
  | _ => exact .pure ht

/-- The search goes through subterms, which are in the region, and what these are bound to. -/
theorem coincides_searchVar (v : Nat) : ∀ (fuel : Nat) {ts : List Term},
    (∀ t ∈ ts, t.Inside region) → Coincides J (searchVar v fuel ts) fun _ => True
  | 0, [], _ => .pure trivial
  | _ + 1, [], _ => .pure trivial
  | 0, _ :: _, _ => .fail _
  | fuel + 1, t :: rest, hts => by
    obtain ⟨ht, hrest⟩ := List.forall_mem_cons.mp hts
    refine (coincides_deref hJ ht).bind fun r hr => ?_
    cases r with
    | var w =>
      dsimp only
      split
      · exact .pure trivial
      · exact coincides_searchVar v fuel hrest
    | compound i f x xs =>
      -- a term is to be searched if it is an argument of the root or was waiting before
      refine coincides_searchVar v fuel fun u hu => ?_
      rcases List.mem_append.mp hu with hu | hu
      · exact hr.arg (List.mem_reverse.mp hu)
      · exact hrest u hu
    | _ => exact coincides_searchVar v fuel hrest

/-! ## Unification -/

theorem coincides_bindVar (fuel : Nat) (occursCheck : Bool) (hv : v ∈ region)
    (ht : t.Inside region) :
    Coincides J (bindVar fuel occursCheck v t) (IfUnified fun _ => True) := by
  have hbind : Coincides J (liftM (Store.bind v t) : Attempt Unit) (IfUnified fun _ => True) :=
    .lift (coincides_write hJ hv ht)
  unfold bindVar
  cases occursCheck with
  | false => exact hbind
  | true =>
    have hsearch := coincides_searchVar hJ v fuel (List.forall_mem_singleton.mpr ht)
    refine Coincides.attempt (.lift hsearch) ?_
    rintro (_ | _) _
    · exact hbind
    · exact Coincides.attempt (P := fun _ => True) (.pure (ifUnified_error _)) fun _ _ => hbind

/-- What a step leaves to be done is in the region. -/
theorem coincides_unifyStep (fuel : Nat) (occursCheck : Bool) (ha : a.Inside region)
    (hb : b.Inside region) :
    Coincides J (unifyStep fuel occursCheck a b)
      (IfUnified (PairsEvery (Term.Placed region))) := by
  have hnil : PairsEvery (Term.Placed region) [] := fun _ hq => nomatch hq
  have hbind : ∀ {v : Nat} {value : Term}, v ∈ region → value.Inside region →
      Coincides J
        (bindVar fuel occursCheck v value >>= fun _ => pure [] : Attempt (List (Term × Term)))
        (IfUnified (PairsEvery (Term.Placed region))) := fun hv hvalue =>
    (coincides_bindVar hJ fuel occursCheck hv hvalue).attempt fun _ _ =>
      .pure (ifUnified_ok hnil)
  refine Coincides.attempt (.lift (coincides_deref hJ ha)) fun ra hra => ?_
  refine Coincides.attempt (.lift (coincides_deref hJ hb)) fun rb hrb => ?_
  split
  · split
    · exact .pure (ifUnified_ok hnil)
    · exact hbind hra.here hrb
  · exact hbind hra.here hrb
  · exact hbind hrb.here hra
  · split
    · refine .pure (ifUnified_ok ?_)
      split
      · exact hnil
      · exact pairsEvery_arguments hra hrb
    · exact .pure (ifUnified_error _)
  · split
    · exact .pure (ifUnified_ok hnil)
    · exact .pure (ifUnified_error _)

/-- The loop comes by pairs of the region only. -/
theorem coincides_unifyPairs (occursCheck : Bool) : ∀ (fuel : Nat) {pairs : List (Term × Term)},
    PairsEvery (Term.Placed region) pairs →
      Coincides J (unifyPairs occursCheck fuel pairs) (IfUnified fun _ => True)
  | 0, [], _ => .pure (ifUnified_ok trivial)
  | _ + 1, [], _ => .pure (ifUnified_ok trivial)
  | 0, _ :: _, _ => .lift (.fail _)
  | fuel + 1, (a, b) :: rest, hpairs => by
    obtain ⟨⟨ha, hb⟩, hrest⟩ := pairsEvery_cons.mp hpairs
    exact (coincides_unifyStep hJ fuel occursCheck ha hb).attempt fun more hmore =>
      coincides_unifyPairs occursCheck fuel (pairsEvery_append.mpr ⟨hmore, hrest⟩)

/-- **Unification** does the same on stores that agree on what its terms reach. -/
theorem coincides_unify (fuel : Nat) (occursCheck : Bool) (ha : a.Inside region)
    (hb : b.Inside region) :
    Coincides J (unify fuel occursCheck a b) (IfUnified fun _ => True) :=
  coincides_unifyPairs hJ occursCheck fuel (pairsEvery_single ha hb)

end Joint

/-! ## The same writes on two stores -/

/-- Two stores after the same writes in the region, one after the other. -/
inductive Store.Together (region : Set Nat) (s₀ u₀ : Store) : Store → Store → Prop where
  | refl : Together region s₀ u₀ s₀ u₀
  | bind {s u : Store} {v : Nat} {t : Term} (h : Together region s₀ u₀ s u)
      (hlt : v < s.cells.size) (hv : v ∈ region) (ht : t.Inside region) :
      Together region s₀ u₀ (s.bound v t) (u.bound v t)

namespace Store.Together

theorem size (h : Together region s₀ u₀ s u) :
    s.cells.size = s₀.cells.size ∧ u.cells.size = u₀.cells.size := by
  induction h with
  | refl => exact ⟨rfl, rfl⟩
  | bind _ _ _ _ ih => exact ⟨size_bound.trans ih.1, size_bound.trans ih.2⟩

theorem confined (h : Together region s₀ u₀ s u) (hs : s₀.Confined region) :
    s.Confined region := by
  induction h with
  | refl => exact hs
  | bind _ hlt _ ht ih => exact ih.bound hlt ht

/-- In the region the two stores go on agreeing. -/
theorem inside (h : Together region s₀ u₀ s u) (hsize : u₀.cells.size = s₀.cells.size)
    (hagree : ∀ v ∈ region, u₀.cells[v]? = s₀.cells[v]?) :
    ∀ v ∈ region, u.cells[v]? = s.cells[v]? := by
  induction h with
  | refl => exact hagree
  | @bind s u w t h _ _ _ ih =>
    intro v hv
    have hsizes : u.cells.size = s.cells.size := by rw [h.size.1, h.size.2, hsize]
    show (u.cells.setIfInBounds w (some t))[v]? = (s.cells.setIfInBounds w (some t))[v]?
    rw [Array.getElem?_setIfInBounds, Array.getElem?_setIfInBounds, ih v hv, hsizes]

/-- Outside the region they are as they were. -/
theorem outside (h : Together region s₀ u₀ s u) (hv : v ∉ region) :
    s.cells[v]? = s₀.cells[v]? ∧ u.cells[v]? = u₀.cells[v]? := by
  induction h with
  | refl => exact ⟨rfl, rfl⟩
  | @bind s u w t _ _ hw _ ih =>
    have hne : w ≠ v := fun hwv => hv (hwv ▸ hw)
    exact ⟨(Array.getElem?_setIfInBounds_ne hne).trans ih.1,
      (Array.getElem?_setIfInBounds_ne hne).trans ih.2⟩

/-- The same writes are in both journals. -/
theorem written (h : Together region s₀ u₀ s u) :
    ∃ written, s.journal = written ++ s₀.journal ∧ u.journal = written ++ u₀.journal ∧
      ∀ e ∈ written, ∃ v t, e = .bind v t ∧ v ∈ region := by
  induction h with
  | refl => exact ⟨[], rfl, rfl, fun _ he => nomatch he⟩
  | @bind s u v t _ _ hv _ ih =>
    obtain ⟨written, hleft, hright, hall⟩ := ih
    refine ⟨.bind v t :: written, congrArg (_ :: ·) hleft, congrArg (_ :: ·) hright, ?_⟩
    exact List.forall_mem_cons.mpr ⟨⟨v, t, rfl, hv⟩, hall⟩

end Store.Together

/-- Stores that agree in a region from which bindings do not lead away can be written together. -/
theorem Store.Confined.joint (hs : s₀.Confined region) (hsize : u₀.cells.size = s₀.cells.size)
    (hagree : ∀ v ∈ region, u₀.cells[v]? = s₀.cells[v]?) :
    Store.Joint region (Store.Together region s₀ u₀) where
  size s u h := by rw [h.size.1, h.size.2, hsize]
  cells _ _ h := h.inside hsize hagree
  confined _ _ h := h.confined hs
  write _ _ _ _ h hlt hv ht := .bind h hlt hv ht

/-- **Unification reads and writes only what its terms reach.** On two stores of one size that agree
on all variables that are reached from one of the terms, well-formed or not, with the occurs check
or without, a run ends on both of them or on none. It returns the same, and it writes the same
terms to the same cells in the same order. All of these are cells that are reached; the others are
left as they are on either store, and no cell is allocated. -/
theorem unify_local (fuel : Nat) (occursCheck : Bool) (hsize : u.cells.size = s.cells.size)
    (hagree : ∀ v, s.cells.Reaches a v ∨ s.cells.Reaches b v → u.cells[v]? = s.cells[v]?) :
    (∃ fault, unify fuel occursCheck a b s = .error fault ∧
      unify fuel occursCheck a b u = .error fault) ∨
    ∃ result s' u' written, unify fuel occursCheck a b s = .ok (result, s') ∧
      unify fuel occursCheck a b u = .ok (result, u') ∧
      s'.journal = written ++ s.journal ∧ u'.journal = written ++ u.journal ∧
      (∀ e ∈ written, ∃ v t, e = .bind v t ∧ (s.cells.Reaches a v ∨ s.cells.Reaches b v)) ∧
      (∀ v, ¬(s.cells.Reaches a v ∨ s.cells.Reaches b v) →
        s'.cells[v]? = s.cells[v]? ∧ u'.cells[v]? = u.cells[v]?) ∧
      s'.cells.size = s.cells.size ∧ u'.cells.size = u.cells.size := by
  let region : Set Nat := {v | s.cells.Reaches a v} ∪ {v | s.cells.Reaches b v}
  have hconfined : s.Confined region := (s.confined_reaches a).union (s.confined_reaches b)
  have hleft : a.Inside region := Term.inside_of_forall fun v hv => .inl (.within hv)
  have hright : b.Inside region := Term.inside_of_forall fun v hv => .inr (.within hv)
  have hends := coincides_unify (hconfined.joint hsize hagree) fuel occursCheck hleft hright s u
    .refl
  generalize hs : unify fuel occursCheck a b s = left, hu : unify fuel occursCheck a b u = right
    at hends
  cases hends with
  | fault f => exact .inl ⟨f, rfl, rfl⟩
  | @ok result s' u' h _ =>
    obtain ⟨written, hjournal, hjournal', hwritten⟩ := h.written
    exact .inr ⟨result, s', u', written, rfl, rfl, hjournal, hjournal', hwritten,
      fun v hv => h.outside hv, h.size.1, h.size.2⟩

/-- Let `X2` be bound to `X0`, and `X3` on one of two stores only. On both of them `f(X2, 7)` and
`f(X1, 8)` fail to unify after `X0` has been bound to `X1`, and `X3` is left alone. -/
theorem unify_local_failing :
    let a : Term := .compound 0 ⟨"f", .interned 0⟩ (.var 2) [.int 7]
    let b : Term := .compound 1 ⟨"f", .interned 0⟩ (.var 1) [.int 8]
    let s : Store := { cells := #[none, none, some (.var 0), none] }
    let u : Store := { cells := #[none, none, some (.var 0), some (.int 5)] }
    ∃ s' u', unify 3 true a b s = .ok (.error .numberMismatch, s') ∧
      unify 3 true a b u = .ok (.error .numberMismatch, u') ∧
      s'.journal = [.bind 0 (.var 1)] ∧ u'.journal = s'.journal ∧
      s'.cells[3]? = some none ∧ u'.cells[3]? = some (some (.int 5)) := by
  intro a b s u
  have hs : s.Confined {v | v < 3} := fun v hv t hbound => by
    match v, hbound with
    | 2, hbound => cases hbound; simp [Term.Placed]
  have ha : a.Inside {v | v < 3} := by simp [a, Term.Placed]
  have hb : b.Inside {v | v < 3} := by simp [b, Term.Placed]
  have hreached : ∀ v, s.cells.Reaches a v ∨ s.cells.Reaches b v → v < 3 := fun v hv =>
    hv.elim (fun h => h.mem hs ha) fun h => h.mem hs hb
  have hrun : unify 3 true a b s = .ok (.error .numberMismatch,
      { cells := #[some (.var 1), none, some (.var 0), none]
        journal := [.bind 0 (.var 1)] }) := rfl
  have hagree : ∀ v, s.cells.Reaches a v ∨ s.cells.Reaches b v → u.cells[v]? = s.cells[v]? := by
    intro v hv
    match v, hreached v hv with
    | 0, _ | 1, _ | 2, _ => rfl
  rcases unify_local (a := a) (b := b) (s := s) (u := u) 3 true rfl hagree with
    ⟨f, hfault, -⟩ | ⟨result, s', u', written, hleft, hright, hjournal, hjournal', -, hrest, -⟩
  · cases hrun.symm.trans hfault
  cases hrun.symm.trans hleft
  have hfar := hrest 3 fun h => absurd (hreached 3 h) (by decide)
  exact ⟨_, u', hrun, hright, rfl, hjournal'.trans hjournal.symm, hfar.1, hfar.2⟩

end Horn
