import Horn.Binary64.Text
import Horn.Term
import Horn.Text.Escaped
import Horn.Text.Quoted

/-!
# Terms as text

- `Term.render`: the printed form, where each subterm is first replaced by what a resolver gives
  for it. Subterms deeper than 256 levels are cut, so that a term that the resolver makes cyclic
  has a printed form too.
- `Term.text`: the printed form of the term as it stands.
- `Term.debugText`: the form in diagnostics, which shows kinds and never cuts.
-/

namespace Horn

/-- Subterms down to this depth are printed, the whole term having depth zero. -/
def printedDepth : Nat := 256

namespace Term

/-- The printed form with `levels` levels of subterms. -/
def render {m : Type → Type} [Monad m] (resolve : Term → m Term) : Nat → Term → m String
  | 0, _ => pure "..."
  | levels + 1, t => do
    match ← resolve t with
    | var v => pure ("_" ++ toString v)
    | atom a => pure (Text.quoted a.name)
    | int n => pure (toString n.toInt)
    | float x => pure x.text
    | box _ => pure "<blackbox>"
    | compound _ f x xs => do
      let texts ← (x :: xs).mapM (render resolve levels)
      pure (Text.quoted f.name ++ "(" ++ ", ".intercalate texts ++ ")")

/-- The printed form. -/
def text (t : Term) : String := Id.run (t.render pure (printedDepth + 1))

mutual

/-- The form in diagnostics. -/
def debugText : Term → String
  | var v => "Var(" ++ toString v ++ ")"
  | atom a => "Atom(" ++ Text.escaped a.name ++ ")"
  | int n => "Number(" ++ toString n.toInt ++ ")"
  | float x => "Float(" ++ x.debugText ++ ")"
  | box _ => "BlackBox(_)"
  | compound _ f x xs =>
    "Compound(" ++ Text.escaped f.name ++ ", [" ++ debugText x ++ debugTail xs ++ "])"

/-- The forms of the arguments after the first, each behind a comma. -/
def debugTail : List Term → String
  | [] => ""
  | t :: ts => ", " ++ debugText t ++ debugTail ts

end

end Term

end Horn
