/-!
# Atoms

An atom is a name together with a handle. The handle says which atom object it is: atoms taken from
an `AtomTable` have one handle per name, an atom made outside the table has a handle of its own.
Atoms are compared by name; handles are only ever compared for identity.

- `AtomTable.intern`: the handle of a name, entered on first use.
- `AtomTable.lookup?`: the same without entering anything.
- `AtomTable.uninterned`: a new atom that no other atom is the same as.
-/

namespace Horn

/-- Which atom object an atom is. -/
inductive Handle where
  /-- The entry of an atom table at this index. -/
  | interned (index : Nat)
  /-- An atom outside the table, by its serial number. -/
  | loose (serial : Nat)
  deriving DecidableEq, Repr, Inhabited

/-- A named constant. -/
structure Atom where
  name : String
  handle : Handle
  deriving DecidableEq, Repr, Inhabited

namespace Atom

/-- The two are one object. -/
def same (a b : Atom) : Bool := a.handle == b.handle

/-- The two have one name. -/
def eqv (a b : Atom) : Bool := a.name == b.name

end Atom

/-- The names entered so far, in order of entry, and the number of atoms made outside the table. -/
structure AtomTable where
  names : Array String := #[]
  looseCount : Nat := 0
  deriving Repr, Inhabited

namespace AtomTable

def size (t : AtomTable) : Nat := t.names.size

/-- The atom of a name that has been entered. -/
def lookup? (t : AtomTable) (name : String) : Option Atom :=
  (t.names.idxOf? name).map fun i => ⟨name, .interned i⟩

/-- The atom of a name, which is entered at the end of the table unless it is there already. -/
def intern (t : AtomTable) (name : String) : Atom × AtomTable :=
  match t.lookup? name with
  | some a => (a, t)
  | none => (⟨name, .interned t.names.size⟩, { t with names := t.names.push name })

/-- A new atom outside the table. -/
def uninterned (t : AtomTable) (name : String) : Atom × AtomTable :=
  (⟨name, .loose t.looseCount⟩, { t with looseCount := t.looseCount + 1 })

end AtomTable

/-- Name and arity of a callable term. -/
structure Signature where
  name : Atom
  arity : Nat
  deriving Repr, Inhabited

namespace Signature

/-- Equal names and equal arities. -/
def eqv (s t : Signature) : Bool := s.name.eqv t.name && s.arity == t.arity

/-- Written `name/arity`, the name without quotes. -/
def text (s : Signature) : String := s.name.name ++ "/" ++ toString s.arity

/-- The form in diagnostics. -/
def debugText (s : Signature) : String := "Signature(" ++ s.text ++ ")"

end Signature

end Horn
