import Horn.Term.Argument
import Horn.Proofs.RecursiveRebuilding

/-!
# Arguments by position

The frames of a walk carry the arguments that are still to come. A walk could as well keep only the
results of the first arguments and find the next argument by its position: a node has arguments, and
there are fewer results than arguments as long as the node is not finished. So no argument is read
that is not there.

- `rebuildByPosition`: the walk with arguments found by their positions.
- `Frame.InPlace`: what is known of the frames of a walk.
- `rebuildByPosition_eq`: the two walks are one program.
-/

namespace Horn

variable {σ : Type}

/-- A node that is being rebuilt, and the results of its first arguments. -/
structure Unfinished where
  node : Node
  results : List Term

/-- Hands a result to the innermost node. The argument to visit next is found by its position. -/
def climbByPosition (share : Bool) (result : Term) :
    List Unfinished → Build σ (Term ⊕ Term × List Unfinished)
  | [] => pure (.inl result)
  | u :: outer => do
    let results := u.results ++ [result]
    if results.length < u.node.arguments.length then
      let next ← u.node.term.argument results.length
      pure (.inr (next, { u with results } :: outer))
    else
      let closed ← modifyGet (u.node.rebuilt share results)
      climbByPosition share closed outer

/-- The walk from a term inside the given nodes, with arguments found by their positions. -/
def rebuildByPosition (share : Bool) (visit : Term → Run σ Visit) :
    Nat → Term → List Unfinished → Build σ Term
  | 0, _, _ => (Run.fail .outOfFuel : Run σ Term)
  | fuel + 1, t, outer => do
    match ← (visit t : Run σ Visit) with
    | .enter node =>
      let first ← node.term.argument 0
      rebuildByPosition share visit fuel first ({ node, results := [] } :: outer)
    | .leaf result =>
      match ← climbByPosition share result outer with
      | .inl whole => pure whole
      | .inr (next, outer) => rebuildByPosition share visit fuel next outer

variable {share : Bool} {visit : Term → Run σ Visit} {fuel : Nat} {t result : Term}
  {ts results : List Term} {node : Node} {supply supply' : Supply} {s s' : σ}

/-! ## The two walks -/

/-- The node of a frame with its results in their order. -/
def Frame.unfinished (f : Frame) : Unfinished := { node := f.node, results := f.done.reverse }

/-- The argument that is being visited stands between those that are done and those to come. -/
structure Frame.InPlace (f : Frame) : Prop where
  visiting : f.done.length < f.node.arguments.length
  todo : f.node.arguments.drop (f.done.length + 1) = f.todo

theorem Node.argument_eq {i : Nat} {x : Term} (h : node.arguments[i]? = some x) :
    node.term.argument i = .ok x := by
  have hterm : node.term.arguments[i]? = some x := h
  rw [Term.argument, hterm]

/-- While there are arguments left, the one at the next position comes next. -/
theorem climbByPosition_next {next : Term} (outer : List Unfinished)
    (h : node.arguments[results.length + 1]? = some next) :
    (climbByPosition share result ({ node, results } :: outer) : Build σ _) =
      pure (.inr (next, { node, results := results ++ [result] } :: outer)) := by
  have hlength : (results ++ [result]).length = results.length + 1 := by simp
  rw [climbByPosition]
  dsimp only
  rw [hlength, if_pos (List.getElem?_eq_some_iff.mp h).1, node.argument_eq h]
  rfl

/-- When there are as many results as arguments, the node is built from them and handed on. -/
theorem climbByPosition_close (outer : List Unfinished)
    (h : node.arguments.length = results.length + 1) :
    (climbByPosition share result ({ node, results } :: outer) : Build σ _) =
      modifyGet (node.rebuilt share (results ++ [result])) >>= fun closed =>
        climbByPosition share closed outer := by
  rw [climbByPosition]
  dsimp only
  rw [if_neg (by simp [h])]

/-- A frame keeps its results newest first, so closing it takes them in reverse. -/
theorem Frame.close_eq (f : Frame) (last : Term) :
    (f.close share last : Build σ Term) =
      modifyGet (f.node.rebuilt share (f.done.reverse ++ [last])) := by
  funext supply s
  rw [Frame.close_run]
  rfl

/-- A result is handed to frames that are in place as it is to nodes whose arguments are found by
their positions. What follows goes on with frames in place. -/
theorem climbByPosition_bind {onward : Term ⊕ Term × List Frame → Build σ Term}
    {onwardByPosition : Term ⊕ Term × List Unfinished → Build σ Term}
    (hwhole : ∀ whole, onwardByPosition (.inl whole) = onward (.inl whole))
    (hnext : ∀ next frames, (∀ f ∈ frames, Frame.InPlace f) →
      onwardByPosition (.inr (next, frames.map Frame.unfinished)) = onward (.inr (next, frames)))
    {frames : List Frame} (hframes : ∀ f ∈ frames, f.InPlace) (result : Term) :
    climbByPosition share result (frames.map Frame.unfinished) >>= onwardByPosition =
      climb share result frames >>= onward := by
  induction frames generalizing result with
  | nil => simpa [climbByPosition, climb] using hwhole result
  | cons f outer ih =>
    obtain ⟨⟨hvisiting, htodo⟩, houter⟩ := List.forall_mem_cons.mp hframes
    obtain ⟨node, done, todo⟩ := f
    dsimp only at hvisiting htodo
    rw [List.map_cons, Frame.unfinished, climb]
    dsimp only
    cases todo with
    | nil =>
      -- nothing is left to visit exactly if the position is the last one
      have hlength : node.arguments.length = done.length + 1 := by
        have hle := List.drop_eq_nil_iff.mp htodo
        omega
      rw [climbByPosition_close _ (by simpa using hlength), bind_assoc, bind_assoc,
        Frame.close_eq]
      exact bind_congr fun closed => ih houter closed
    | cons next todo =>
      have hget : node.arguments[done.length + 1]? = some next := by
        rw [← List.head?_drop, htodo, List.head?_cons]
      have hdrop : node.arguments.drop (done.length + 1 + 1) = todo := by
        rw [← List.tail_drop, htodo, List.tail_cons]
      -- the position moves on by one, as the list loses its head
      have hplace : Frame.InPlace { node, done := result :: done, todo } :=
        ⟨(List.getElem?_eq_some_iff.mp hget).1, hdrop⟩
      rw [climbByPosition_next _ (by simpa using hget), pure_bind, pure_bind]
      have hlast := hnext next _ (List.forall_mem_cons.mpr ⟨hplace, houter⟩)
      rwa [List.map_cons, Frame.unfinished, List.reverse_cons] at hlast

/-- **No argument is read that is not there**: the walk that finds arguments by their positions is
the walk that takes them from a list. -/
theorem rebuildByPosition_eq (fuel : Nat) (t : Term) {frames : List Frame}
    (hframes : ∀ f ∈ frames, f.InPlace) :
    rebuildByPosition share visit fuel t (frames.map Frame.unfinished) =
      rebuildIn share visit fuel t frames := by
  induction fuel generalizing t frames with
  | zero => rfl
  | succ fuel ih =>
    rw [rebuildByPosition, rebuildIn]
    refine bind_congr fun answer => ?_
    cases answer with
    | leaf result =>
      exact climbByPosition_bind (fun _ => rfl) (fun next _ h => ih next h) hframes result
    | enter node =>
      have hplace : Frame.InPlace { node, done := [], todo := node.args } :=
        ⟨Nat.succ_pos _, rfl⟩
      have hfirst : node.term.argument 0 = .ok node.arg := node.argument_eq rfl
      dsimp only
      rw [hfirst, ← ih node.arg (List.forall_mem_cons.mpr ⟨hplace, hframes⟩)]
      rfl

end Horn
