import Horn.Atom
import Horn.Binary64

/-!
# Terms

A term is a variable, an atom, a 64-bit integer, a float, a compound term or a black box. Variables
carry no binding: what they are bound to is the business of a store.

Compound terms are nodes with an identity. Two nodes with one identity are one node, so comparing
identities decides whether two terms share a node; operations that build a node take its identity
from a `Supply`, those that keep a node keep its identity. A node has at least one argument: the
first one is a field of its own.

- `Term.same`: identity.
- `Term.eqv`: structural equality, which takes a node to be equal to itself without looking inside.
- `Term.maxVar`, `Term.mentions`: what occurs in a term.
- `Term.signature?`, `Term.indicator?`: the name and arity of a callable term.
-/

namespace Horn

/-- An opaque value of the host. Two boxes are one box if their serial numbers agree. -/
structure BlackBox where
  serial : Nat
  payload : String
  deriving DecidableEq, Repr, Inhabited

/-- The terms of the language. -/
inductive Term where
  | var (index : Nat)
  | atom (a : Atom)
  | int (value : Int64)
  | float (value : Binary64)
  | compound (node : Nat) (functor : Atom) (arg : Term) (args : List Term)
  | box (b : BlackBox)
  deriving Inhabited

/-- The node identities that have not been given out: all from `next` on. -/
structure Supply where
  next : Nat := 0
  deriving DecidableEq, Repr, Inhabited

/-- The next identity. -/
def Supply.fresh (s : Supply) : Nat × Supply := (s.next, ⟨s.next + 1⟩)

/-- The kinds of terms. -/
inductive Kind where
  | var | atom | int | float | compound | box
  deriving DecidableEq, Repr, Inhabited

namespace Kind

/-- The name of a kind. -/
def text : Kind → String
  | var => "var"
  | atom => "atom"
  | int => "int"
  | float => "float"
  | compound => "compound"
  | box => "blackbox"

/-- The place of a kind in the standard order; integers and floats share one. -/
def rank : Kind → Nat
  | var => 0
  | atom => 1
  | int => 2
  | float => 2
  | compound => 3
  | box => 4

end Kind

namespace Term

def kind : Term → Kind
  | var _ => .var
  | atom _ => .atom
  | int _ => .int
  | float _ => .float
  | compound .. => .compound
  | box _ => .box

/-- Atoms and compound terms. -/
def isCallable : Term → Bool
  | atom _ => true
  | compound .. => true
  | _ => false

/-- The arguments; only compound terms have any. -/
def arguments : Term → List Term
  | compound _ _ x xs => x :: xs
  | _ => []

def arity (t : Term) : Nat := t.arguments.length

/-- The name of an atom, or of the functor of a compound term. -/
def name? : Term → Option String
  | atom a => some a.name
  | compound _ f _ _ => some f.name
  | _ => none

/-- Name and arity of a callable term. -/
def signature? : Term → Option Signature
  | atom a => some ⟨a, 0⟩
  | compound _ f _ xs => some ⟨f, xs.length + 1⟩
  | _ => none

/-- Equal signatures, or none on both sides. -/
def sameSignature (t u : Term) : Bool :=
  match t.signature?, u.signature? with
  | some s, some r => s.eqv r
  | none, none => true
  | _, _ => false

/-- The two are one object: one variable, one atom handle, one node or one box, or equal numbers,
floats by their bits. -/
def same : Term → Term → Bool
  | var v, var w => v == w
  | atom a, atom b => a.same b
  | int m, int n => m == n
  | float x, float y => x.bits == y.bits
  | compound i .., compound j .. => i == j
  | box b, box c => b.serial == c.serial
  | _, _ => false

/-- A node over the given arguments, or the functor itself if there are none. -/
def apply (functor : Atom) (args : List Term) (s : Supply) : Term × Supply :=
  match args with
  | [] => (.atom functor, s)
  | x :: xs => let (i, s) := s.fresh; (.compound i functor x xs, s)

/-- The name and arity of a callable term as a term of their own, under a slash, which is entered
into the atom table. -/
def indicator? (t : Term) (table : AtomTable) (s : Supply) : Option Term × AtomTable × Supply :=
  match t.signature? with
  | none => (none, table, s)
  | some sig =>
    let (slash, table) := table.intern "/"
    let (indicator, s) := apply slash [.atom sig.name, .int (Int64.ofNat sig.arity)] s
    (some indicator, table, s)

mutual

/-- How many subterms a term has, itself included. -/
def size : Term → Nat
  | compound _ _ x xs => size x + sizeAll xs + 1
  | _ => 1

/-- How many subterms the terms of a list have together. -/
def sizeAll : List Term → Nat
  | [] => 0
  | t :: ts => size t + sizeAll ts

end

mutual

/-- Structural equality with bindings left aside. Atoms and functors are compared by name, floats
numerically, black boxes by identity; a node equals itself even if there is a NaN below it. -/
def eqv : Term → Term → Bool
  | var v, var w => v == w
  | atom a, atom b => a.eqv b
  | int m, int n => m == n
  | float x, float y => x.eqv y
  | compound i f x xs, compound j g y ys =>
    i == j || (xs.length == ys.length && f.eqv g && (eqv x y && eqvAll xs ys))
  | box b, box c => b.serial == c.serial
  | _, _ => false

/-- Equality of two lists of terms, one by one. -/
def eqvAll : List Term → List Term → Bool
  | [], [] => true
  | t :: ts, u :: us => eqv t u && eqvAll ts us
  | _, _ => false

end

mutual

/-- The highest variable index that occurs. -/
def maxVar : Term → Option Nat
  | var v => some v
  | compound _ _ x xs => max (maxVar x) (maxVarAll xs)
  | _ => none

/-- The highest variable index that occurs in one of the terms. -/
def maxVarAll : List Term → Option Nat
  | [] => none
  | t :: ts => max (maxVar t) (maxVarAll ts)

end

mutual

/-- An atom of this name is a subterm. Functor names do not count. -/
def mentions (name : String) : Term → Bool
  | atom a => a.name == name
  | compound _ _ x xs => mentions name x || mentionsAny name xs
  | _ => false

/-- An atom of this name is a subterm of one of the terms. -/
def mentionsAny (name : String) : List Term → Bool
  | [] => false
  | t :: ts => mentions name t || mentionsAny name ts

end

end Term

end Horn
