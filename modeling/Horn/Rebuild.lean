import Horn.Store

/-!
# Rebuilding terms from their leaves

A term is rebuilt bottom-up by a visitor, which is shown the term and then the arguments of every
node it enters, from left to right. It answers with a result, or with a node to enter, which may be
another than the one it was shown. The nodes that have been entered and not yet finished are kept
on a list of frames, the innermost first.

- `Visit`: the answers of a visitor.
- `rebuild`: the walk. When nodes are to be shared, a node whose arguments all come back as they
  were is the result itself; otherwise a new node is built.
- `value`: a term with every bound variable replaced by its value.
-/

namespace Horn

/-- A compound term. -/
structure Node where
  id : Nat
  functor : Atom
  arg : Term
  args : List Term

namespace Node

/-- The node as a term. -/
def term (n : Node) : Term := .compound n.id n.functor n.arg n.args

/-- All arguments. -/
def arguments (n : Node) : List Term := n.arg :: n.args

end Node

/-- Puts the terms of the first list, last one first, in front of `t` and the terms after it. -/
def restoreOrder : List Term → Term → List Term → Term × List Term
  | [], t, after => (t, after)
  | u :: us, t, after => restoreOrder us u (t :: after)

/-- What is done with a visited term. -/
inductive Visit where
  /-- This is the term's result. -/
  | leaf (result : Term)
  /-- The result is this node, rebuilt from the results of its arguments. -/
  | enter (node : Node)

/-- A node that is being rebuilt: the results of its first arguments, the last one first, and the
arguments after the one that is being visited. -/
structure Frame where
  node : Node
  done : List Term
  todo : List Term

/-- Programs that build nodes. -/
abbrev Build (σ : Type) := StateT Supply (Run σ)

/-- A node of the given functor with a new identity, its arguments being those of the list, last
one first, and then `last`. -/
def newNode {σ : Type} (functor : Atom) (done : List Term) (last : Term) : Build σ Term := do
  let id ← modifyGet Supply.fresh
  let (arg, args) := restoreOrder done last []
  pure (.compound id functor arg args)

/-- Finishes a frame with the result of its last argument. -/
def Frame.close {σ : Type} (share : Bool) (f : Frame) (last : Term) : Build σ Term := do
  let (arg, args) := restoreOrder f.done last []
  -- a node is kept only if each argument has come back as the very same term
  if share && ((arg :: args).zip f.node.arguments).all fun (new, old) => new.same old then
    pure f.node.term
  else newNode f.node.functor f.done last

/-- Hands a result to the innermost frame. The frames that this finishes are closed; what is left
is the result of the whole walk, or the next term to visit and the frames around it. -/
def climb {σ : Type} (share : Bool) (result : Term) :
    List Frame → Build σ (Term ⊕ Term × List Frame)
  | [] => pure (.inl result)
  | f :: outer =>
    match f.todo with
    | next :: todo => pure (.inr (next, { f with done := result :: f.done, todo } :: outer))
    | [] => do
      let closed ← f.close share result
      climb share closed outer

/-- The walk from a term inside the given frames. -/
def rebuildIn {σ : Type} (share : Bool) (visit : Term → Run σ Visit) :
    Nat → Term → List Frame → Build σ Term
  | 0, _, _ => (Run.fail .outOfFuel : Run σ Term)
  | fuel + 1, t, frames => do
    match ← (visit t : Run σ Visit) with
    | .enter node =>
      rebuildIn share visit fuel node.arg ({ node, done := [], todo := node.args } :: frames)
    | .leaf result =>
      match ← climb share result frames with
      | .inl whole => pure whole
      | .inr (next, frames) => rebuildIn share visit fuel next frames

/-- Rebuilds a term. -/
def rebuild {σ : Type} (share : Bool) (visit : Term → Run σ Visit) (fuel : Nat) (t : Term) :
    Build σ Term :=
  rebuildIn share visit fuel t []

/-- The visitor of `value`: a variable stands for what it is bound to. -/
def visitValue (t : Term) : Run Store Visit := do
  match t with
  | .var _ =>
    match ← deref t with
    | .compound id functor arg args => pure (.enter { id, functor, arg, args })
    | result => pure (.leaf result)
  | .compound id functor arg args => pure (.enter { id, functor, arg, args })
  | _ => pure (.leaf t)

/-- The term with every bound variable replaced by its value. Subterms without bound variables are
kept as they are. -/
def value (fuel : Nat) (t : Term) : Build Store Term := rebuild true visitValue fuel t

end Horn
