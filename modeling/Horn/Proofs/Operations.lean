import Horn.Proofs.Journal

/-!
# The operations of the engine as data

A statement about every sequence of engine operations needs the operations as values. An `Operation`
names one of them with its arguments, `Operation.program` is what it runs on a store, and an
`Answer` is what it gives back.

- `Operation.keeps`: what the basic programs keep to, every operation keeps to that does not write a
  cell itself.
- `Operation.records`: every operation changes the store by allocations and bindings only, each of
  which it enters into the journal.
-/

namespace Horn

/-- The operations of the engine that touch a store. Those that build nodes take the identities
that are left, those that make instances the memo they start with. -/
inductive Operation where
  | newVar
  | setVar (v : Nat) (value : Term)
  | deref (t : Term)
  | value (supply : Supply) (t : Term)
  | contains (v : Nat) (t : Term)
  | compare (a b : Term)
  | unify (occursCheck : Bool) (a b : Term)
  | copy (supply : Supply) (memo : Memo) (t : Term)
  | copyAndUnify (supply : Supply) (memo : Memo) (source goal : Term)
  | mayUnify (c : Clause) (goal : Term)
  | call (supply : Supply) (c : Clause) (goal : Term)

/-- What an operation gives back. -/
inductive Answer where
  | done
  | variable (v : Nat)
  | flag (b : Bool)
  | order (o : Ordering)
  | term (t : Term)
  | unified (result : Except UnifyError Unit)
  | built (t : Term) (supply : Supply)
  | copied (result : Except UnifyError Term) (memo : Memo) (supply : Supply)
  | called (result : Except UnifyError (Option Term)) (supply : Supply)

namespace Operation

/-- What an operation runs, its loops taking at most `fuel` rounds. -/
def program (fuel : Nat) : Operation → Run Store Answer
  | newVar => .variable <$> Store.alloc
  | setVar v t => do
    Store.bind v t
    pure .done
  | deref t => .term <$> Horn.deref t
  | value supply t => (fun (r, supply) => .built r supply) <$> Horn.value fuel t supply
  | contains v t => .flag <$> containsVar fuel v t
  | compare a b => .order <$> compareTerms fuel a b
  | unify occursCheck a b => .unified <$> (Horn.unify fuel occursCheck a b).run
  | copy supply memo t =>
    (fun ((r, memo), supply) => .copied (.ok r) memo supply) <$>
      withMemo memo (Horn.copy t) supply
  | copyAndUnify supply memo source goal =>
    (fun ((r, memo), supply) => .copied r memo supply) <$>
      withMemo memo (Horn.copyAndUnify fuel source goal).run supply
  | mayUnify c goal => .flag <$> c.mayUnify goal
  | call supply c goal => (fun (r, supply) => .called r supply) <$> (c.call fuel goal).run supply

/-- A cell is written from outside. -/
def Writes : Operation → Prop
  | setVar .. => True
  | _ => False

variable {R : Store → Store → Prop} [Store.Change R]

theorem keeps_answer {α : Type} {x : Run Store α} (f : α → Answer) (hx : Keeps R id x) :
    Keeps R id (f <$> x) :=
  .bind hx fun a => .pure (f a)

/-- **Operations keep to the changes that the basic programs make.** -/
theorem keeps (h : BasicsKeep R) (fuel : Nat) {op : Operation} (hop : ¬op.Writes) :
    Keeps R id (op.program fuel) := by
  cases op with
  | newVar => exact keeps_answer _ h.alloc
  | setVar v t => exact absurd trivial hop
  | deref t => exact keeps_answer _ (h.deref t)
  | value supply t => exact keeps_answer _ (keeps_value h.deref fuel t supply)
  | contains v t => exact keeps_answer _ (keeps_searchVar h.deref v fuel [t])
  | compare a b => exact keeps_answer _ (keeps_comparePairs h.deref fuel [(a, b)])
  | unify occursCheck a b =>
    exact keeps_answer _
      (keeps_unifyPairs (fun fuel => h.unifyStep fuel occursCheck) fuel [(a, b)])
  | copy supply memo t => exact keeps_answer _ (keeps_withMemo memo (keeps_copy h.alloc t) supply)
  | copyAndUnify supply memo source goal =>
    exact keeps_answer _
      (keeps_withMemo memo (keeps_copyAndUnify h.matchStep fuel source goal) supply)
  | mayUnify c goal => exact keeps_answer _ (keeps_mayUnify h.deref c goal)
  | call supply c goal =>
    exact keeps_answer _ (keeps_call h.matchStep h.deref h.alloc fuel c goal supply)

/-- Every operation reaches the store through allocation and binding only. -/
theorem records (fuel : Nat) (op : Operation) : Records id (op.program fuel) := by
  by_cases hop : op.Writes
  · cases op with
    | setVar v t => exact Keeps.bind (records_bind v t) fun _ => Keeps.pure _
    | _ => cases hop
  · exact keeps basicsRecord fuel hop

end Operation

end Horn
