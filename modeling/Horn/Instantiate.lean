import Horn.Rebuild
import Horn.Unify

/-!
# Instantiation

Making instances of stored terms: variables of a source term are replaced by variables of a store,
or matched directly with the parts of a goal. Source variables have nothing to do with the
variables of the store that have the same indices.

- `VarTable`: what the source variables seen so far stand for, in order of first sight.
- `renumber`: numbers the variables of a term densely.
- `copy`: a copy of a term with new variables, where every node is new.
- `copyAndUnify`: the copy and its unification with a goal in one walk, which allocates a variable
  only where an unbound variable of the goal is bound to a copy.
-/

namespace Horn

/-- Entries for variables, in the order in which the variables were entered. -/
structure VarTable (α : Type) where
  entries : List (Nat × α) := []
  deriving Repr, Inhabited

namespace VarTable

variable {α : Type}

def size (m : VarTable α) : Nat := m.entries.length

/-- The entry of a variable. -/
def find? (m : VarTable α) (v : Nat) : Option α := m.entries.lookup v

/-- Enters a variable, or replaces its entry. -/
def insert (m : VarTable α) (v : Nat) (x : α) : VarTable α :=
  if (m.find? v).isSome then
    ⟨m.entries.map fun (w, y) => if w == v then (w, x) else (w, y)⟩
  else ⟨m.entries ++ [(v, x)]⟩

end VarTable

/-- What source variables stand for in a store. -/
abbrev Memo := VarTable Term

/-- An empty memo with room for a number of entries. A table has a place for every entry and a
seventh more, rounded up to a power of two, and at most `2 ^ 58` places. -/
def Memo.ofCapacity (entries : Nat) : Except Fault Memo :=
  if entries * 8 / 7 ≤ 2 ^ 58 then .ok {} else .error .tableOverflow

/-- New indices of variables. -/
abbrev Numbering := VarTable Nat

/-! ## Numbering -/

/-- The visitor of `renumber`. -/
def visitNumber (offset : Nat) (t : Term) : Run Numbering Visit := do
  match t with
  | .var v =>
    let numbering ← get
    match numbering.find? v with
    | some n => pure (.leaf (.var n))
    | none => do
      let n := offset + numbering.size
      set (numbering.insert v n)
      pure (.leaf (.var n))
  | .compound id functor arg args => pure (.enter { id, functor, arg, args })
  | _ => pure (.leaf t)

/-- Replaces the variables of a term by their numbers. A variable without a number gets the next
one, counting from `offset`. Subterms whose variables keep their indices are kept as they are. -/
def renumber (offset : Nat) (t : Term) : Build Numbering Term :=
  rebuild true (visitNumber offset) t.size t

/-! ## Copying -/

/-- A store, and what the source variables stand for in it. -/
structure Instance where
  store : Store
  memo : Memo

/-- Runs a program on the store alone. -/
def onStore {α : Type} (x : Run Store α) : Run Instance α := fun s =>
  match x s.store with
  | .ok (a, store) => .ok (a, { s with store })
  | .error f => .error f

/-- What a source variable stands for, or its entry into the memo. -/
def remember (v : Nat) (t : Term) : Run Instance Unit :=
  modify fun s => { s with memo := s.memo.insert v t }

/-- The visitor of `copy`. -/
def visitCopy (t : Term) : Run Instance Visit := do
  match t with
  | .var v =>
    match (← get).memo.find? v with
    | some known => pure (.leaf known)
    | none => do
      let w ← onStore Store.alloc
      remember v (.var w)
      pure (.leaf (.var w))
  | .compound id functor arg args => pure (.enter { id, functor, arg, args })
  | _ => pure (.leaf t)

/-- The term with each variable replaced by what the memo has for it, a new variable where the memo
has nothing. All nodes of the copy are new. -/
def copy (t : Term) : Build Instance Term := rebuild false visitCopy t.size t

/-- Runs a program on a store with a memo, and returns the memo that it leaves. -/
def withMemo {α : Type} (memo : Memo) (x : Build Instance α) : Build Store (α × Memo) :=
  fun supply store =>
    match x supply { store, memo } with
    | .ok ((result, supply), i) => .ok (((result, i.memo), supply), i.store)
    | .error f => .error f

/-! ## Copying and unifying in one walk -/

/-- A source node and a goal node with the same functor, whose arguments are being matched: the
copies of the first ones, the last one first, and the pairs after the one in hand. -/
structure MatchFrame where
  functor : Atom
  done : List Term
  todo : List (Term × Term)

/-- Programs that make instances and may fail to unify. -/
abbrev Instantiation := ExceptT UnifyError (Build Instance)

/-- What is done with a pair of a source and a goal. -/
inductive Matched where
  /-- The pair is dealt with, and this is the copy of the source. -/
  | done (copy : Term)
  /-- The arguments of the two are to be matched. -/
  | descend (functor : Atom) (first : Term × Term) (rest : List (Term × Term))

/-- One pair of a source and a goal. A source variable seen for the first time stands for the goal
itself; one seen before is unified with it. An unbound variable of the goal is bound to a copy of
the source. -/
def matchStep (fuel : Nat) (source goal : Term) : Instantiation Matched := do
  match source with
  | .var v =>
    match (← (get : Run Instance Instance)).memo.find? v with
    | some known =>
      match ← (onStore (unify fuel false known goal) : Run Instance (Except UnifyError Unit)) with
      | .ok () => pure (.done known)
      | .error e => throw e
    | none => do
      (remember v goal : Run Instance Unit)
      pure (.done goal)
  | _ => do
    let goal ← (onStore (deref goal) : Run Instance Term)
    match source, goal with
    | _, .var w => do
      let copied ← (copy source : Build Instance Term)
      (onStore (Store.bind w copied) : Run Instance Unit)
      pure (.done copied)
    | .compound _ f x xs, .compound _ g y ys =>
      if xs.length == ys.length && f.eqv g then pure (.descend f (x, y) (xs.zip ys))
      else throw .functorMismatch
    | _, _ => if leavesAgree source goal then pure (.done source) else throw (mismatch source goal)

/-- Hands a copy to the innermost frame, and builds the nodes that this finishes. What is left is
the copy of the whole source, or the next pair and the frames around it. -/
def climbMatch (copied : Term) :
    List MatchFrame → Build Instance (Term ⊕ (Term × Term) × List MatchFrame)
  | [] => pure (.inl copied)
  | f :: outer =>
    match f.todo with
    | next :: todo => pure (.inr (next, { f with done := copied :: f.done, todo } :: outer))
    | [] => do
      let node ← newNode f.functor f.done copied
      climbMatch node outer

/-- The walk from a pair inside the given frames. -/
def matchIn : Nat → Term × Term → List MatchFrame → Instantiation Term
  | 0, _, _ => (Run.fail .outOfFuel : Run Instance Term)
  | fuel + 1, (source, goal), frames => do
    match ← matchStep fuel source goal with
    | .descend functor first rest =>
      matchIn fuel first ({ functor, done := [], todo := rest } :: frames)
    | .done copied =>
      match ← (climbMatch copied frames : Build Instance _) with
      | .inl whole => pure whole
      | .inr (next, frames) => matchIn fuel next frames

/-- Copies a source term and unifies the copy with a goal, without occurs check. On failure the
bindings and memo entries made so far stay. -/
def copyAndUnify (fuel : Nat) (source goal : Term) : Instantiation Term :=
  matchIn fuel (source, goal) []

end Horn
