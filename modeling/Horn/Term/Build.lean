import Horn.Term

/-!
# Building terms from names

A compound term is built from the name of its functor and from arguments that are terms or names.
The functor is taken from the atom table first, then the arguments that are names, from left to
right.

- `Ingredient`: an argument as it is given.
- `Term.build`: the term over a functor and arguments.
-/

namespace Horn

/-- An argument of a term that is to be built. -/
inductive Ingredient where
  /-- The term itself. -/
  | term (t : Term)
  /-- The atom of this name. -/
  | named (name : String)
  deriving Inhabited

namespace Ingredient

/-- The argument as a term. -/
def toTerm (table : AtomTable) : Ingredient → Term × AtomTable
  | term t => (t, table)
  | named name => let (a, table) := table.intern name; (.atom a, table)

/-- The arguments as terms, from left to right. -/
def toTerms (table : AtomTable) : List Ingredient → List Term × AtomTable
  | [] => ([], table)
  | arg :: args =>
    let (t, table) := arg.toTerm table
    let (ts, table) := toTerms table args
    (t :: ts, table)

end Ingredient

/-- The term over a functor and arguments, which is an atom if there are no arguments. -/
def Term.build (functor : String) (args : List Ingredient) (table : AtomTable) (s : Supply) :
    Term × AtomTable × Supply :=
  let (f, table) := table.intern functor
  let (args, table) := Ingredient.toTerms table args
  let (t, s) := Term.apply f args s
  (t, table, s)

end Horn
