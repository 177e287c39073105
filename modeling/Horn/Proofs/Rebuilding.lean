import Mathlib.Data.List.Forall2
import Horn.Proofs.Programs
import Horn.Proofs.Subterms

/-!
# Rebuilding as recursion

The walk that rebuilds a term keeps its frames on a list. It is a recursion over the term all the
same: from a term inside any frames it gets to the term's result inside the same frames.

- `Rebuilds`: the walk gets from a term to a result.
- `RebuildsAll`: the same for the arguments of a node, one after the other.
- `Rebuilds.leaf`, `Rebuilds.enter`: the two answers of a visitor.
- `Node.rebuilt`: what a node becomes when its arguments are replaced; `Node.rebuilt_shared`: where
  nodes are shared, it is kept if there is nothing to change below it, and only then.
-/

namespace Horn

variable {σ : Type}

/-- What a node becomes once its arguments have been rebuilt: itself if nodes are shared and the
arguments are the same, otherwise a new node. -/
def Node.rebuilt (share : Bool) (n : Node) (results : List Term) (supply : Supply) :
    Term × Supply :=
  match results with
  | [] => (n.term, supply)
  | x :: xs =>
    if share && ((x :: xs).zip n.arguments).all fun (new, old) => new.same old then (n.term, supply)
    else (.compound supply.next n.functor x xs, ⟨supply.next + 1⟩)

/-- A node is kept or made anew. -/
theorem Node.rebuilt_cases (share : Bool) (n : Node) (x : Term) (xs : List Term) (supply : Supply) :
    ((x :: xs).zip n.arguments).all (fun (new, old) => new.same old) = true ∧
        n.rebuilt share (x :: xs) supply = (n.term, supply) ∨
      n.rebuilt share (x :: xs) supply =
        (.compound supply.next n.functor x xs, ⟨supply.next + 1⟩) := by
  by_cases h : (share && ((x :: xs).zip n.arguments).all fun (new, old) => new.same old) = true
  · exact .inl ⟨(Bool.and_eq_true_iff.mp h).2, if_pos h⟩
  · exact .inr (if_neg h)

/-- A node whose arguments all come back is kept. -/
theorem Node.rebuilt_self (n : Node) (supply : Supply) :
    n.rebuilt true n.arguments supply = (n.term, supply) := by
  have hall : ∀ ts : List Term, ((ts.zip ts).all fun (new, old) => new.same old) = true := by
    intro ts
    induction ts with
    | nil => rfl
    | cons t ts ih => exact Bool.and_eq_true_iff.mpr ⟨t.same_self, ih⟩
  exact if_pos (hall n.arguments)

/-- Terms come back, all of them, if and only if there is nothing to change in any of them. -/
theorem all_same_iff {R : Term → Term → Prop} {unchanged : Term → Prop} {ts results : List Term}
    (h : List.Forall₂ R ts results)
    (hsame : ∀ t ∈ ts, ∀ r, R t r → (r.same t = true ↔ unchanged t)) :
    ((results.zip ts).all fun (new, old) => new.same old) = true ↔ ∀ t ∈ ts, unchanged t := by
  induction h with
  | nil => simp
  | cons h _ ih =>
    obtain ⟨ht, hts⟩ := List.forall_mem_cons.mp hsame
    rw [List.zip_cons_cons, List.all_cons, Bool.and_eq_true, ht _ h, ih hts, List.forall_mem_cons]

/-- Where nodes are shared, a node is kept if there is nothing to change in any of its arguments.
Otherwise a new node is made over what has become of them. -/
theorem Node.rebuilt_shared {R : Term → Term → Prop} {unchanged : Term → Prop} {n : Node}
    {results : List Term} (supply : Supply) (h : List.Forall₂ R n.arguments results)
    (hsame : ∀ x ∈ n.arguments, ∀ r, R x r → (r.same x = true ↔ unchanged x)) :
    (∀ x ∈ n.arguments, unchanged x) ∧ n.rebuilt true results supply = (n.term, supply) ∨
      (¬∀ x ∈ n.arguments, unchanged x) ∧ ∃ y ys, results = y :: ys ∧
        n.rebuilt true results supply =
          (.compound supply.next n.functor y ys, ⟨supply.next + 1⟩) := by
  have hall := all_same_iff h hsame
  cases results with
  | nil => cases h
  | cons y ys =>
    rw [Node.rebuilt, Bool.true_and]
    split
    · exact .inl ⟨hall.mp ‹_›, rfl⟩
    · exact .inr ⟨mt hall.mpr ‹_›, y, ys, rfl, rfl⟩

/-- Identities are only taken from the supply. -/
theorem Node.next_le_rebuilt (share : Bool) (n : Node) (results : List Term) (supply : Supply) :
    supply.next ≤ (n.rebuilt share results supply).2.next := by
  cases results with
  | nil => exact Nat.le_refl _
  | cons x xs =>
    rcases n.rebuilt_cases share x xs supply with ⟨-, heq⟩ | heq
    · exact heq ▸ Nat.le_refl _
    · exact heq ▸ Nat.le_succ _

/-- The results of a node, in the order of its arguments again. -/
theorem restoreOrder_cons : ∀ (done : List Term) (t : Term) (after : List Term),
    (restoreOrder done t after).1 :: (restoreOrder done t after).2 = done.reverse ++ t :: after
  | [], _, _ => rfl
  | u :: us, t, after => by
    rw [restoreOrder, restoreOrder_cons us u (t :: after)]
    simp

theorem newNode_run (functor : Atom) (done : List Term) (last : Term) (supply : Supply) (s : σ) :
    newNode functor done last supply s =
      .ok (Term.apply functor (done.reverse ++ [last]) supply, s) := by
  rw [← restoreOrder_cons done last []]
  rfl

/-- A frame closes by rebuilding its node. -/
theorem Frame.close_run (share : Bool) (node : Node) (done todo : List Term) (last : Term)
    (supply : Supply) (s : σ) :
    Frame.close share { node, done, todo } last supply s =
      .ok (node.rebuilt share (done.reverse ++ [last]) supply, s) := by
  obtain ⟨x, xs, h⟩ : ∃ x xs, done.reverse ++ [last] = x :: xs :=
    List.exists_cons_of_ne_nil (by simp)
  obtain ⟨hx, hxs⟩ := List.cons.inj ((restoreOrder_cons done last []).trans h)
  unfold Frame.close Node.rebuilt
  dsimp only
  rw [h, hx, hxs]
  dsimp only
  split
  · rfl
  · exact (newNode_run _ done last supply s).trans (by rw [h]; rfl)

/-- What is left of the walk once a term has its result. -/
def resume (share : Bool) (visit : Term → Run σ Visit) (fuel : Nat) (result : Term)
    (frames : List Frame) : Build σ Term := do
  match ← climb share result frames with
  | .inl whole => pure whole
  | .inr (next, frames) => rebuildIn share visit fuel next frames

section Walk

variable {share : Bool} {visit : Term → Run σ Visit} {fuel : Nat} {t result : Term}
  {node : Node} {frames outer : List Frame} {supply : Supply} {s s' : σ}

theorem resume_nil : resume share visit fuel result [] supply s = .ok ((result, supply), s) := rfl

/-- The innermost frame with terms left hands out the next one. -/
theorem resume_todo (next : Term) (done todo : List Term) :
    resume share visit fuel result ({ node, done, todo := next :: todo } :: outer) supply s =
      rebuildIn share visit fuel next ({ node, done := result :: done, todo } :: outer) supply s :=
  rfl

/-- A frame without terms left is closed, and its result handed on. -/
theorem resume_close (done : List Term) :
    resume share visit fuel result ({ node, done, todo := [] } :: outer) supply s =
      resume share visit fuel (node.rebuilt share (done.reverse ++ [result]) supply).1 outer
        (node.rebuilt share (done.reverse ++ [result]) supply).2 s := by
  have hclimb : climb share result ({ node, done, todo := [] } :: outer) supply s =
      climb share (node.rebuilt share (done.reverse ++ [result]) supply).1 outer
        (node.rebuilt share (done.reverse ++ [result]) supply).2 s :=
    Build.bind_ok (Frame.close_run share node done [] result supply s)
  exact Build.bind_congr hclimb

/-- A term that the visit answers is done. -/
theorem rebuildIn_leaf (h : visit t s = .ok (.leaf result, s')) :
    rebuildIn share visit (fuel + 1) t frames supply s =
      resume share visit fuel result frames supply s' := by
  rw [rebuildIn, Build.lift_bind h]
  rfl

/-- The arguments of a node that the visit enters come next. -/
theorem rebuildIn_enter (h : visit t s = .ok (.enter node, s')) :
    rebuildIn share visit (fuel + 1) t frames supply s =
      rebuildIn share visit fuel node.arg ({ node, done := [], todo := node.args } :: frames)
        supply s' := by
  rw [rebuildIn, Build.lift_bind h]

end Walk

/-! ## The recursion -/

/-- From the term, whatever frames there are around it, the walk gets to the result after `n`
visits. -/
def Rebuilds (share : Bool) (visit : Term → Run σ Visit) (n : Nat) (t : Term) (supply : Supply)
    (s : σ) (result : Term) (supply' : Supply) (s' : σ) : Prop :=
  ∀ fuel frames, rebuildIn share visit (n + fuel) t frames supply s =
    resume share visit fuel result frames supply' s'

/-- The terms are rebuilt one after the other. -/
inductive RebuildsAll (share : Bool) (visit : Term → Run σ Visit) :
    Nat → List Term → Supply → σ → List Term → Supply → σ → Prop where
  | nil {supply : Supply} {s : σ} : RebuildsAll share visit 0 [] supply s [] supply s
  | cons {n m : Nat} {t result : Term} {ts results : List Term} {supply supply₁ supply₂ : Supply}
      {s s₁ s₂ : σ} (head : Rebuilds share visit n t supply s result supply₁ s₁)
      (tail : RebuildsAll share visit m ts supply₁ s₁ results supply₂ s₂) :
      RebuildsAll share visit (n + m) (t :: ts) supply s (result :: results) supply₂ s₂

namespace Rebuilds

variable {share : Bool} {visit : Term → Run σ Visit} {n : Nat} {t result : Term} {node : Node}
  {results : List Term} {supply supply' : Supply} {s s₁ s' : σ}

theorem leaf (h : visit t s = .ok (.leaf result, s')) :
    Rebuilds share visit 1 t supply s result supply s' := by
  intro fuel frames
  rw [Nat.add_comm, rebuildIn_leaf h]

/-- The arguments of a node that has been entered are rebuilt, and then the node is closed. -/
theorem inFrame {x : Term} {xs : List Term}
    (h : RebuildsAll share visit n (x :: xs) supply s results supply' s') (done : List Term)
    (fuel : Nat) (outer : List Frame) :
    rebuildIn share visit (n + fuel) x ({ node, done, todo := xs } :: outer) supply s =
      resume share visit fuel (node.rebuilt share (done.reverse ++ results) supply').1 outer
        (node.rebuilt share (done.reverse ++ results) supply').2 s' := by
  -- the induction is on the arguments that are still to come; those done are on the frame
  induction xs generalizing x n supply s results done with
  | nil =>
    cases h with
    | cons head tail =>
      cases tail
      rw [Nat.add_zero, head, resume_close]
  | cons y ys ih =>
    cases h with
    | @cons _ _ _ result _ results _ _ _ _ _ _ head tail =>
      rw [Nat.add_assoc, head, resume_todo, ih tail]
      simp

/-- A node that is entered is rebuilt from its arguments. -/
theorem enter (h : visit t s = .ok (.enter node, s₁))
    (hargs : RebuildsAll share visit n node.arguments supply s₁ results supply' s') :
    Rebuilds share visit (n + 1) t supply s (node.rebuilt share results supply').1
      (node.rebuilt share results supply').2 s' := by
  intro fuel frames
  rw [Nat.add_right_comm, rebuildIn_enter h]
  exact inFrame hargs [] fuel frames

/-- The whole walk. -/
theorem run (h : Rebuilds share visit n t supply s result supply' s') {fuel : Nat}
    (hfuel : n ≤ fuel) : rebuild share visit fuel t supply s = .ok ((result, supply'), s') := by
  obtain ⟨k, rfl⟩ := Nat.exists_eq_add_of_le hfuel
  rw [rebuild, h, resume_nil]

end Rebuilds

end Horn
