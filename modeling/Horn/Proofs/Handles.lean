import Horn.Proofs.Moves
import Horn.Term.Hash

/-!
# Atoms by name

Which object an atom is does not matter to equality, hashing and unification: if the handles of all
atoms are left aside, in the terms and in the store, then each of them does what it did before, as
far as it can be told without handles. So terms that differ in the handles of atoms only can be
exchanged for one another.

- `Atom.byName`, `Term.byName`, `Store.byName`: atoms, terms and stores without handles.
- `Term.eqv_byName`, `Term.unifyHash_byName`: equality and hashes.
- `Run.Forgets`, `Attempt.Forgets`: a program does without handles what another one does with them.
- `unify_byName`, `unify_exchange`: unification does, and so handles can be exchanged.
-/

namespace Horn

/-- The atom with its handle left aside. -/
def Atom.byName (a : Atom) : Atom := ⟨a.name, .interned 0⟩

@[simp]
theorem Atom.name_byName (a : Atom) : a.byName.name = a.name := rfl

/-- Atoms are equal or not whatever their handles are. -/
@[simp]
theorem Atom.eqv_byName (a b : Atom) : a.byName.eqv b.byName = a.eqv b := rfl

namespace Term

mutual

/-- The term with the handles of its atoms left aside. -/
def byName : Term → Term
  | atom a => atom a.byName
  | compound i f x xs => compound i f.byName (byName x) (byNameAll xs)
  | t => t

/-- The terms of a list with the handles of their atoms left aside. -/
def byNameAll : List Term → List Term
  | [] => []
  | t :: ts => byName t :: byNameAll ts

end

theorem byNameAll_eq_map (ts : List Term) : byNameAll ts = ts.map byName := by
  induction ts with
  | nil => rfl
  | cons t ts ih => simp [byNameAll, ih]

@[simp]
theorem byName_var (v : Nat) : (var v).byName = var v := rfl

@[simp]
theorem byName_atom (a : Atom) : (atom a).byName = atom a.byName := rfl

@[simp]
theorem byName_int (n : Int64) : (int n).byName = int n := rfl

@[simp]
theorem byName_float (x : Binary64) : (float x).byName = float x := rfl

@[simp]
theorem byName_box (b : BlackBox) : (box b).byName = box b := rfl

@[simp]
theorem byName_compound (i : Nat) (f : Atom) (x : Term) (xs : List Term) :
    (compound i f x xs).byName = compound i f.byName x.byName (xs.map byName) := by
  rw [byName, byNameAll_eq_map]

/-- Atoms differ without their handles if and only if their names do. -/
theorem byName_atom_inj {a b : Atom} : (atom a).byName = (atom b).byName ↔ a.name = b.name := by
  simp [Atom.byName]

theorem kind_byName (t : Term) : t.byName.kind = t.kind := by cases t <;> rfl

theorem byName_eq_var {t : Term} {v : Nat} : t.byName = var v ↔ t = var v := by
  cases t <;> simp

mutual

/-- **Equality** does not look at handles. -/
theorem eqv_byName (t u : Term) : t.byName.eqv u.byName = t.eqv u := by
  cases t with
  | compound i f x xs =>
    cases u with
    | compound j g y ys =>
      rw [byName_compound, byName_compound, eqv, eqv, List.length_map, List.length_map,
        Atom.eqv_byName, eqv_byName x y, eqvAll_byName xs ys]
    | _ => rw [byName_compound]; rfl
  | _ => cases u <;> rfl

theorem eqvAll_byName (ts us : List Term) :
    eqvAll (ts.map byName) (us.map byName) = eqvAll ts us := by
  cases ts with
  | nil => cases us <;> rfl
  | cons t ts =>
    cases us with
    | nil => rfl
    | cons u us =>
      rw [List.map_cons, List.map_cons, eqvAll, eqvAll, eqv_byName t u, eqvAll_byName ts us]

end

/-- **Hashes** are made of names. -/
theorem unifyHash_byName (t : Term) : t.byName.unifyHash = t.unifyHash := by
  cases t with
  | compound i f x xs => rw [byName_compound, unifyHash, unifyHash, List.length_map]; rfl
  | _ => rfl

end Term

/-! ## Stores -/

/-- The cells with the handles of all atoms left aside. -/
def Cells.byName (cells : Cells) : Cells := cells.map (Option.map Term.byName)

/-- The change with the handles of all atoms left aside. -/
def Event.byName : Event → Event
  | .alloc v => .alloc v
  | .bind v t => .bind v t.byName

/-- The store with the handles of all atoms left aside. -/
def Store.byName (s : Store) : Store :=
  { cells := s.cells.byName, journal := s.journal.map Event.byName }

namespace Cells

@[simp]
theorem size_byName (cells : Cells) : cells.byName.size = cells.size := Array.size_map

theorem getElem?_byName (cells : Cells) (v : Nat) :
    cells.byName[v]? = cells[v]?.map (Option.map Term.byName) := Array.getElem?_map

theorem read_byName (cells : Cells) (v : Nat) :
    cells.byName.read v = (cells.read v).map (Option.map Term.byName) := by
  unfold read
  rw [getElem?_byName, size_byName]
  cases cells[v]? <;> rfl

/-- **Chains** run through the same variables. -/
theorem chase_byName (cells : Cells) (n v : Nat) :
    cells.byName.chase n v = (cells.chase n v).map Term.byName := by
  induction n generalizing v with
  | zero => rfl
  | succ n ih =>
    rw [chase, chase, read_byName]
    cases cells.read v with
    | error e => rfl
    | ok binding =>
      cases binding with
      | none => rfl
      | some t =>
        cases t with
        | var w => exact ih w
        | _ => rfl

theorem resolve_byName (cells : Cells) (t : Term) :
    cells.byName.resolve t.byName = (cells.resolve t).map Term.byName := by
  cases t with
  | var v =>
    rw [Term.byName_var, resolve, resolve, size_byName]
    exact chase_byName cells _ v
  | _ => rfl

end Cells

namespace Store

@[simp]
theorem cells_byName (s : Store) : s.byName.cells = s.cells.byName := rfl

/-- A binding without handles is one in the store without handles. -/
theorem byName_bound (s : Store) (v : Nat) (t : Term) :
    (s.bound v t).byName = s.byName.bound v t.byName := by
  simp [bound, byName, Cells.byName, Event.byName, Array.map_setIfInBounds]

end Store

/-! ## Programs -/

section Programs

variable {α α' β β' : Type}

/-- `q` does on a store without handles what `p` does on the store, and its result is made from the
result of `p` by `f`. -/
def Run.Forgets (f : α → α') (p : Run Store α) (q : Run Store α') : Prop :=
  ∀ s, q s.byName = (p s).map (Prod.map f Store.byName)

namespace Run.Forgets

variable {f : α → α'} {g : β → β'} {p : Run Store α} {q : Run Store α'}
  {k : α → Run Store β} {k' : α' → Run Store β'}

theorem pure (f : α → α') (a : α) : Forgets f (Pure.pure a) (Pure.pure (f a)) := fun _ => rfl

theorem fail (f : α → α') (e : Fault) : Forgets f (Run.fail e) (Run.fail e) := fun _ => rfl

/-- What programs do without handles, they do one after the other. -/
theorem bind (hp : Forgets f p q) (hk : ∀ a, Forgets g (k a) (k' (f a))) :
    Forgets g (p >>= k) (q >>= k') := by
  intro s
  have hq := hp s
  cases hs : p s with
  | error e =>
    rw [hs] at hq
    rw [Run.bind_error hs, Run.bind_error hq]
    rfl
  | ok r =>
    obtain ⟨a, s'⟩ := r
    rw [hs] at hq
    rw [Run.bind_ok hs, Run.bind_ok hq]
    exact hk a s'

end Run.Forgets

/-- The same for programs that may fail to unify, whose failures have no handles in them. -/
def Attempt.Forgets (f : α → α') (p : Attempt α) (q : Attempt α') : Prop :=
  Run.Forgets (Except.map f) p q

namespace Attempt.Forgets

variable {f : α → α'} {g : β → β'} {p : Attempt α} {q : Attempt α'} {k : α → Attempt β}
  {k' : α' → Attempt β'}

theorem pure (f : α → α') (a : α) : Forgets f (Pure.pure a) (Pure.pure (f a)) := fun _ => rfl

theorem throw (f : α → α') (e : UnifyError) :
    Forgets f (MonadExcept.throw e) (MonadExcept.throw e) := fun _ => rfl

theorem lift {x : Run Store α} {y : Run Store α'} (h : Run.Forgets f x y) :
    Forgets f (liftM x : Attempt α) (liftM y : Attempt α') := by
  have hbind : Run.Forgets (Except.map f (ε := UnifyError))
      (x >>= fun a => Pure.pure (Except.ok a)) (y >>= fun a => Pure.pure (Except.ok a)) :=
    Run.Forgets.bind h fun a => .pure (Except.map f) (.ok a)
  exact hbind

theorem bind (hp : Forgets f p q) (hk : ∀ a, Forgets g (k a) (k' (f a))) :
    Forgets g (p >>= k) (q >>= k') := by
  have hbind : Run.Forgets (Except.map g) ((p : Run Store _) >>= ExceptT.bindCont k)
      ((q : Run Store _) >>= ExceptT.bindCont k') := by
    refine Run.Forgets.bind hp fun r => ?_
    cases r with
    | ok a => exact hk a
    | error e => exact fun _ => rfl
  exact hbind

end Attempt.Forgets

end Programs

/-! ## Dereferencing, searching and binding -/

theorem forgets_read (v : Nat) :
    Run.Forgets (Option.map Term.byName) (Store.read v) (Store.read v) := by
  intro s
  unfold Store.read
  rw [Store.cells_byName, Cells.read_byName]
  cases s.cells.read v <;> rfl

theorem forgets_resolve (t : Term) :
    Run.Forgets Term.byName (Store.resolve t) (Store.resolve t.byName) := by
  intro s
  unfold Store.resolve
  rw [Store.cells_byName, Cells.resolve_byName]
  cases s.cells.resolve t <;> rfl

theorem forgets_size : Run.Forgets id Store.size Store.size := by
  intro s
  show Except.ok (s.cells.byName.size, s.byName) = _
  rw [Cells.size_byName]
  rfl

theorem forgets_bind (v : Nat) (t : Term) :
    Run.Forgets id (Store.bind v t) (Store.bind v t.byName) := by
  intro s
  have hsize : s.byName.cells.size = s.cells.size := s.cells.size_byName
  by_cases hv : v < s.cells.size
  · rw [Store.bind_run t hv, Store.bind_run t.byName (hsize ▸ hv), ← Store.byName_bound]
    rfl
  · unfold Store.bind
    rw [if_neg hv, if_neg (hsize ▸ hv)]
    rfl

/-- Only variables are told apart where chains are shortened. -/
theorem same_var_byName (t : Term) (v : Nat) : t.byName.same (.var v) = t.same (.var v) := by
  cases t <;> rfl

theorem forgets_shorten (result : Term) (n v : Nat) :
    Run.Forgets id (shorten result n v) (shorten result.byName n v) := by
  induction n generalizing v with
  | zero => exact .pure id ()
  | succ n ih =>
    refine .bind (forgets_read v) fun binding => ?_
    cases binding with
    | none => exact .pure id ()
    | some t =>
      cases t with
      | var w =>
        show Run.Forgets id (if result.same (.var w) then _ else _)
          (if result.byName.same (.var w) then _ else _)
        rw [same_var_byName]
        split
        · exact .pure id ()
        · exact .bind (forgets_bind v result) fun _ => ih w
      | _ => exact .pure id ()

/-- **Dereferencing** forgets handles. -/
theorem forgets_deref (t : Term) : Run.Forgets Term.byName (deref t) (deref t.byName) := by
  cases t with
  | var v =>
    refine .bind (forgets_resolve (.var v)) fun result => ?_
    refine .bind forgets_size fun n => ?_
    exact .bind (forgets_shorten result (n + 1) v) fun _ => .pure Term.byName result
  | _ => exact .pure Term.byName _

/-- The search for a variable forgets handles, as it only compares variables. -/
theorem forgets_searchVar (v fuel : Nat) (ts : List Term) :
    Run.Forgets id (searchVar v fuel ts) (searchVar v fuel (ts.map Term.byName)) := by
  induction fuel generalizing ts with
  | zero =>
    cases ts with
    | nil => exact .pure id false
    | cons t ts => exact .fail id .outOfFuel
  | succ fuel ih =>
    cases ts with
    | nil => exact .pure id false
    | cons t ts =>
      refine .bind (forgets_deref t) fun root => ?_
      cases root with
      | var w =>
        show Run.Forgets id (if w == v then _ else _) (if w == v then _ else _)
        split
        · exact .pure id true
        · exact ih ts
      | compound i f x xs =>
        -- the arguments are searched next; they are renamed with the node
        have hsearch := ih ((x :: xs).reverse ++ ts)
        rw [List.map_append, List.map_reverse] at hsearch
        rw [Term.byName_compound]
        exact hsearch
      | _ => exact ih ts

theorem forgets_bindVar (fuel : Nat) (occursCheck : Bool) (v : Nat) (t : Term) :
    Attempt.Forgets id (bindVar fuel occursCheck v t) (bindVar fuel occursCheck v t.byName) := by
  have hbind : Attempt.Forgets id (liftM (Store.bind v t) : Attempt Unit)
      (liftM (Store.bind v t.byName)) := .lift (forgets_bind v t)
  cases occursCheck with
  | false => exact hbind
  | true =>
    refine .bind (.lift (forgets_searchVar v fuel [t])) fun found => ?_
    cases found with
    | true => exact fun _ => rfl
    | false => exact hbind

/-! ## Unification -/

/-- The move without handles. -/
def Move.byName : Move → Move
  | .pairs more => .pairs (more.map (Prod.map Term.byName Term.byName))
  | .bind v t => .bind v t.byName
  | .fail e => .fail e

theorem mismatch_byName (a b : Term) : mismatch a.byName b.byName = mismatch a b := by
  cases a <;> cases b <;> rfl

/-- Nor does it depend on them whether they do. -/
theorem leavesAgree_byName (a b : Term) : leavesAgree a.byName b.byName = leavesAgree a b := by
  cases a <;> cases b <;> rfl

/-- Two nodes are told apart by their identities, names and numbers of arguments. -/
theorem Move.ofRoots_nodes_byName (i j : Nat) (f g : Atom) (x y : Term) (xs ys : List Term) :
    Move.ofRoots (Term.compound i f x xs).byName (Term.compound j g y ys).byName =
      (Move.ofRoots (.compound i f x xs) (.compound j g y ys)).byName := by
  rw [Term.byName_compound, Term.byName_compound, ofRoots, ofRoots, List.length_map,
    List.length_map, Atom.eqv_byName]
  split
  · split
    · rfl
    · rw [byName, List.map_cons, List.zip_map]
      rfl
  · rfl

/-- The move for two roots does not depend on handles. -/
theorem Move.ofRoots_byName (a b : Term) :
    Move.ofRoots a.byName b.byName = (Move.ofRoots a b).byName := by
  by_cases ha : a.kind = .var
  · cases a with
    | var v =>
      by_cases hb : b = .var v
      · subst hb
        rw [Term.byName_var, ofRoots, if_pos (beq_self_eq_true v)]
        rfl
      · rw [Term.byName_var, ofRoots_var hb, ofRoots_var (mt Term.byName_eq_var.mp hb)]
        rfl
    | _ => cases ha
  by_cases hb : b.kind = .var
  · cases b with
    | var w =>
      rw [Term.byName_var, ofRoots_var_right ha, ofRoots_var_right (a.kind_byName ▸ ha)]
      rfl
    | _ => cases hb
  -- leaves are compared without handles in the first place; nodes have identities as well
  by_cases hnodes : a.kind ≠ .compound ∨ b.kind ≠ .compound
  · rw [ofRoots_leaves ha hb hnodes, ofRoots_leaves (a.kind_byName ▸ ha) (b.kind_byName ▸ hb)
      (a.kind_byName ▸ b.kind_byName ▸ hnodes), leavesAgree_byName, mismatch_byName]
    split <;> rfl
  · simp only [ne_eq, not_or, Decidable.not_not] at hnodes
    cases a with
    | compound i f x xs =>
      cases b with
      | compound j g y ys => exact ofRoots_nodes_byName i j f g x y xs ys
      | _ => cases hnodes.2
    | _ => cases hnodes.1

theorem Move.forgets_run (fuel : Nat) (occursCheck : Bool) (m : Move) :
    Attempt.Forgets (List.map (Prod.map Term.byName Term.byName)) (m.run fuel occursCheck)
      (m.byName.run fuel occursCheck) := by
  cases m with
  | pairs more => exact .pure _ more
  | bind v t => exact .bind (forgets_bindVar fuel occursCheck v t) fun _ => .pure _ []
  | fail e => exact .throw _ e

theorem forgets_unifyStep (fuel : Nat) (occursCheck : Bool) (a b : Term) :
    Attempt.Forgets (List.map (Prod.map Term.byName Term.byName))
      (unifyStep fuel occursCheck a b) (unifyStep fuel occursCheck a.byName b.byName) := by
  rw [unifyStep_eq, unifyStep_eq]
  refine .bind (.lift (forgets_deref a)) fun a => .bind (.lift (forgets_deref b)) fun b => ?_
  rw [Move.ofRoots_byName]
  exact Move.forgets_run fuel occursCheck _

/-- **Unification** forgets handles. -/
theorem forgets_unifyPairs (occursCheck : Bool) (fuel : Nat) (pairs : List (Term × Term)) :
    Attempt.Forgets id (unifyPairs occursCheck fuel pairs)
      (unifyPairs occursCheck fuel (pairs.map (Prod.map Term.byName Term.byName))) := by
  induction fuel generalizing pairs with
  | zero =>
    cases pairs with
    | nil => exact .pure id ()
    | cons p rest => exact .lift (.fail id .outOfFuel)
  | succ fuel ih =>
    cases pairs with
    | nil => exact .pure id ()
    | cons p rest =>
      obtain ⟨a, b⟩ := p
      refine .bind (forgets_unifyStep fuel occursCheck a b) fun more => ?_
      rw [← List.map_append]
      exact ih (more ++ rest)

/-- **Unification** does not look at handles. -/
theorem unify_byName (fuel : Nat) (occursCheck : Bool) (a b : Term) (s : Store) :
    unify fuel occursCheck a.byName b.byName s.byName =
      (unify fuel occursCheck a b s).map (Prod.map id Store.byName) := by
  have hpairs := forgets_unifyPairs occursCheck fuel [(a, b)] s
  have hid : Except.map (ε := UnifyError) (id : Unit → Unit) = id := funext fun r => by
    cases r <;> rfl
  rw [hid] at hpairs
  exact hpairs

/-- Terms and stores that agree without handles can be exchanged in a unification: it comes to the
same outcome, with stores that agree without handles again. -/
theorem unify_exchange {a a' b b' : Term} {s s' : Store} (ha : a.byName = a'.byName)
    (hb : b.byName = b'.byName) (hs : s.byName = s'.byName) (fuel : Nat) (occursCheck : Bool) :
    (unify fuel occursCheck a b s).map (Prod.map id Store.byName) =
      (unify fuel occursCheck a' b' s').map (Prod.map id Store.byName) := by
  rw [← unify_byName, ← unify_byName, ha, hb, hs]

end Horn
