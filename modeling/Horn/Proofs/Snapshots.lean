import Horn.Heap
import Horn.Proofs.Operations
import Mathlib.Data.List.TakeWhile

/-!
# Backtracking is restoring snapshots

The plain way to make a store that can be put back is to copy all cells at every checkpoint. A heap
does without copies: it trails what the cells held, and not even that for cells that the newest
checkpoint does not know. This module proves that nobody can tell the difference.

- `Snapshots`: the plain store, and `Snapshots.perform`, what an action does to it.
- `Heap.perform`: what the action does to a heap.
- `Heap.GoesBackTo h old`: taking back the newest entries of the trail of `h` and dropping the cells
  that `old` does not have gives the cells of `old`, and leaves its trail. It is transitive, so it
  is enough to keep it between a heap and its newest checkpoint, and between each checkpoint and
  the one before.
- `Heap.Keeps h past`: the invariant, where `past` holds the heaps at which the live checkpoints
  were taken.
- `Heap.refines_snapshots`: the heap and the plain store agree on every sequence of actions, and
  undoing leads back to the very heap of which the checkpoint was taken.
-/

namespace Horn

/-! ## The plain store -/

/-- Cells, and the live checkpoints with a copy of the cells for each, the newest first. -/
structure Snapshots where
  cells : Cells := #[]
  live : List (Checkpoint × Cells) := []

namespace Snapshots

/-- The live checkpoints. -/
def marks (r : Snapshots) : List Checkpoint := r.live.map Prod.fst

/-- What a caller can see of a plain store after some actions. -/
def view (r : List Outcome × Snapshots) : List Outcome × Cells × List Checkpoint :=
  (r.1, r.2.cells, r.2.marks)

/-- Runs a program on the cells. -/
def run {α : Type} (r : Snapshots) (program : Run Store α) : Except Fault (α × Snapshots) :=
  match program { cells := r.cells } with
  | .ok (a, s) => .ok (a, { r with cells := s.cells })
  | .error f => .error f

/-- Copies the cells. -/
def checkpoint (r : Snapshots) (cp : Checkpoint) : Snapshots :=
  { r with live := (cp, r.cells) :: r.live }

/-- Puts back the copy of a live checkpoint, which stays live, and drops the newer ones. -/
def undo (r : Snapshots) (cp : Checkpoint) : Except TermError Snapshots :=
  match r.live.dropWhile (·.1 ≠ cp) with
  | [] => .error .invalidCheckpoint
  | (_, copy) :: older => .ok { cells := copy, live := (cp, copy) :: older }

/-- Drops a live checkpoint and the newer ones, and keeps the cells. -/
def commit (r : Snapshots) (cp : Checkpoint) : Except TermError Snapshots :=
  match r.live.dropWhile (·.1 ≠ cp) with
  | [] => .error .invalidCheckpoint
  | _ :: older => .ok { r with live := older }

end Snapshots

/-! ## Actions -/

/-- What can be done with a store that keeps checkpoints. A checkpoint gets a stamp; undoing and
committing may be tried with any checkpoint, live, outdated or of another heap. -/
inductive Action where
  | operate (fuel : Nat) (op : Operation)
  | checkpoint (stamp : Nat)
  | undo (cp : Checkpoint)
  | commit (cp : Checkpoint)
  | clear

/-- The stamp of a checkpoint that the action takes. -/
def Action.stamp? : Action → Option Nat
  | checkpoint stamp => some stamp
  | _ => none

/-- What the caller sees of an action. -/
inductive Outcome where
  | answered (a : Answer)
  | taken (cp : Checkpoint)
  | done
  | refused (e : TermError)

/-- The outcome of an action that may be refused, and then changes nothing. -/
def orRefused {σ : Type} (s : σ) : Except TermError σ → Outcome × σ
  | .ok s' => (.done, s')
  | .error e => (.refused e, s)

/-- What an action does to a heap. -/
def Heap.perform (h : Heap) : Action → Except Fault (Outcome × Heap)
  | .operate fuel op => do
    let (a, h, _) ← h.run (op.program fuel)
    pure (.answered a, h)
  | .checkpoint stamp => .ok (.taken (h.checkpoint stamp).1, (h.checkpoint stamp).2)
  | .undo cp => .ok (orRefused h (h.undo cp))
  | .commit cp => .ok (orRefused h (h.commit cp))
  | .clear => .ok (.done, h.clear)

/-- What an action does to a plain store, where the checkpoint of a stamp goes by the name that
`names` gives. -/
def Snapshots.perform (names : Nat → Checkpoint) (r : Snapshots) :
    Action → Except Fault (Outcome × Snapshots)
  | .operate fuel op => do
    let (a, r) ← r.run (op.program fuel)
    pure (.answered a, r)
  | .checkpoint stamp => .ok (.taken (names stamp), r.checkpoint (names stamp))
  | .undo cp => .ok (orRefused r (r.undo cp))
  | .commit cp => .ok (orRefused r (r.commit cp))
  | .clear => .ok (.done, {})

/-- Performs actions one after the other. -/
def performAll {σ : Type} (perform : σ → Action → Except Fault (Outcome × σ)) (s : σ) :
    List Action → Except Fault (List Outcome × σ)
  | [] => .ok ([], s)
  | action :: rest => do
    let (outcome, s) ← perform s action
    let (outcomes, s) ← performAll perform s rest
    pure (outcome :: outcomes, s)

/-! ## Going back -/

namespace Heap

/-- Putting back what a cell held commutes with dropping cells. -/
theorem take_restore (cells : Cells) (e : TrailEntry) (n : Nat) :
    (restore cells e).take n = restore (cells.take n) e := by
  apply Array.ext_getElem?
  intro i
  simp only [restore, Array.take_eq_extract, Array.getElem?_extract, Array.getElem?_setIfInBounds,
    Array.size_setIfInBounds, Array.size_extract]
  grind

/-- Restoring cells and dropping the newest ones may be done in either order. -/
theorem take_foldl_restore (entries : List TrailEntry) (cells : Cells) (n : Nat) :
    (entries.foldl restore cells).take n = entries.foldl restore (cells.take n) := by
  induction entries generalizing cells with
  | nil => rfl
  | cons e entries ih => rw [List.foldl_cons, List.foldl_cons, ih, take_restore]

@[simp] theorem size_foldl_restore (entries : List TrailEntry) (cells : Cells) :
    (entries.foldl restore cells).size = cells.size := by
  induction entries generalizing cells with
  | nil => rfl
  | cons e entries ih => rw [List.foldl_cons, ih]; simp [restore]

/-- Taking back the newest trail entries and dropping the newest cells of `h` gives the cells of
`old`, and the trail that is left is that of `old`. -/
def GoesBackTo (h old : Heap) : Prop :=
  h.conditionalTrailing = old.conditionalTrailing ∧
    ∃ recent, h.trail = recent ++ old.trail ∧
      recent.foldl restore (h.cells.take old.cells.size) = old.cells

namespace GoesBackTo

variable {h old older : Heap}

/-- Only cells that are still there can be gone back to. -/
theorem size_le (hb : h.GoesBackTo old) : old.cells.size ≤ h.cells.size := by
  obtain ⟨-, recent, -, hcells⟩ := hb
  have hsize := congrArg Array.size hcells
  simp only [size_foldl_restore, Array.take_eq_extract, Array.size_extract] at hsize
  omega

/-- Going back in two steps is going back. -/
theorem trans (hb : h.GoesBackTo old) (hb' : old.GoesBackTo older) : h.GoesBackTo older := by
  have hle := hb'.size_le
  obtain ⟨hflag, recent, htrail, hcells⟩ := hb
  obtain ⟨hflag', recent', htrail', hcells'⟩ := hb'
  refine ⟨hflag.trans hflag', recent ++ recent', ?_, ?_⟩
  · rw [htrail, htrail', List.append_assoc]
  · have htake : (h.cells.take old.cells.size).take older.cells.size =
        h.cells.take older.cells.size := by
      simp only [Array.take_eq_extract, Array.extract_extract]
      congr 1
      omega
    rw [List.foldl_append, ← htake, ← take_foldl_restore, hcells, hcells']

/-- A new variable is dropped on going back. -/
theorem alloc (hb : h.GoesBackTo old) :
    GoesBackTo { h with cells := h.cells.push none } old := by
  have hle := hb.size_le
  obtain ⟨hflag, recent, htrail, hcells⟩ := hb
  refine ⟨hflag, recent, htrail, ?_⟩
  have htake : (h.cells.push none).take old.cells.size = h.cells.take old.cells.size := by
    simp only [Array.take_eq_extract]
    exact Array.extract_push_of_le hle
  rw [htake]
  exact hcells

/-- A write is taken back by its trail entry if it has one, and concerns a cell that is dropped if
it has none. -/
theorem write {cp : Checkpoint} {rest : List Checkpoint} (hb : h.GoesBackTo old)
    (hnewest : h.checkpoints = cp :: rest) (hcount : cp.varCount = old.cells.size) (v : Nat)
    (value : Term) : (h.write v value).GoesBackTo old := by
  obtain ⟨hflag, recent, htrail, hcells⟩ := hb
  by_cases hneeds : h.needsTrail v
  · refine ⟨hflag, { var := v, previous := (h.cells[v]?).join } :: recent, ?_, ?_⟩
    · simp [Heap.write, hneeds, htrail]
    · -- taking back the new entry gives the old cells, cut to their old number
      have hundone : restore ((h.write v value).cells.take old.cells.size)
          { var := v, previous := (h.cells[v]?).join } = h.cells.take old.cells.size := by
        rw [← take_restore]
        congr 1
        apply Array.ext_getElem?
        intro i
        simp only [Heap.write, restore, Array.getElem?_setIfInBounds, Array.size_setIfInBounds]
        grind
      rw [List.foldl_cons, hundone]
      exact hcells
  · refine ⟨hflag, recent, ?_, ?_⟩
    · simp [Heap.write, hneeds, htrail]
    · -- what needs no entry is younger than the newest checkpoint, and undoing drops it
      have hyoung : old.cells.size ≤ v := by
        simp only [needsTrail, hnewest, hcount, Bool.or_eq_true, decide_eq_true_eq] at hneeds
        omega
      have htake : (h.write v value).cells.take old.cells.size = h.cells.take old.cells.size := by
        apply Array.ext_getElem?
        intro i
        simp only [Heap.write, Array.take_eq_extract, Array.getElem?_extract,
          Array.getElem?_setIfInBounds, Array.size_setIfInBounds]
        grind
      rw [htake]
      exact hcells

end GoesBackTo

/-! ## The invariant -/

/-- `past` holds the live checkpoints, the newest first, each with the heap at which it was taken.
Each of these heaps can be gone back to from the next newer one, and the newest from `h`. -/
def Keeps (h : Heap) : List (Checkpoint × Heap) → Prop
  | [] => h.checkpoints = []
  | (cp, old) :: older =>
    h.checkpoints = cp :: old.checkpoints ∧
      (cp.trailLength = old.trail.length ∧ cp.varCount = old.cells.size) ∧
        h.GoesBackTo old ∧ old.Keeps older

/-- The heap as it was right after its newest checkpoint, of which `p` tells. -/
def retaken (p : Checkpoint × Heap) : Heap := { p.2 with checkpoints := p.1 :: p.2.checkpoints }

namespace Keeps

variable {h : Heap} {past : List (Checkpoint × Heap)}

/-- The live checkpoints are those of the past. -/
theorem checkpoints_eq : ∀ {h : Heap} {past : List (Checkpoint × Heap)}, h.Keeps past →
    h.checkpoints = past.map Prod.fst
  | _, [], hk => hk
  | _, (cp, old) :: older, ⟨hcps, _, _, hold⟩ => by
    rw [hcps, hold.checkpoints_eq]
    rfl

/-- One event of the engine concerns the newest checkpoint only. -/
theorem apply (hk : h.Keeps past) (e : Event) : (h.apply e).Keeps past := by
  match past, hk with
  | [], hk => cases e <;> exact hk
  | (cp, old) :: older, ⟨hcps, hmark, hback, hold⟩ =>
    cases e with
    | alloc v => exact ⟨hcps, hmark, hback.alloc, hold⟩
    | bind v value => exact ⟨hcps, hmark, hback.write hcps hmark.2 v value, hold⟩

/-- All that a run of the engine writes is above the newest checkpoint. -/
theorem replay (hk : h.Keeps past) (events : List Event) : (h.replay events).Keeps past := by
  unfold Heap.replay
  induction events generalizing h with
  | nil => exact hk
  | cons e events ih => exact ih (hk.apply e)

/-- A new checkpoint goes back to the heap at which it is taken. -/
theorem checkpoint (hk : h.Keeps past) (stamp : Nat) :
    (h.checkpoint stamp).2.Keeps (((h.checkpoint stamp).1, h) :: past) :=
  ⟨rfl, ⟨rfl, rfl⟩, ⟨rfl, [], rfl, by simp [Heap.checkpoint]⟩, hk⟩

/-- Any live checkpoint can be gone back to, through all newer ones. -/
theorem goesBackTo {cp : Checkpoint} {p : Checkpoint × Heap} {older : List (Checkpoint × Heap)} :
    ∀ {h : Heap} {past : List (Checkpoint × Heap)}, h.Keeps past →
      past.dropWhile (·.1 ≠ cp) = p :: older →
      p.1 = cp ∧ (cp.trailLength = p.2.trail.length ∧ cp.varCount = p.2.cells.size) ∧
        h.GoesBackTo p.2 ∧ p.2.Keeps older
  | _, [], _, hdrop => by cases hdrop
  | h, (cp', old) :: rest, ⟨_, hmark, hback, hold⟩, hdrop => by
    by_cases heq : cp' = cp
    · subst heq
      rw [List.dropWhile_cons_of_neg (by simp)] at hdrop
      cases hdrop
      exact ⟨rfl, hmark, hback, hold⟩
    · rw [List.dropWhile_cons_of_pos (by simpa using heq)] at hdrop
      obtain ⟨hcp, hmark', hback', hold'⟩ := hold.goesBackTo hdrop
      exact ⟨hcp, hmark', hback.trans hback', hold'⟩

/-- What is left of the stack of checkpoints below a live one. -/
theorem dropWhile_checkpoints (hk : h.Keeps past) (cp : Checkpoint) :
    h.checkpoints.dropWhile (· ≠ cp) = (past.dropWhile (·.1 ≠ cp)).map Prod.fst := by
  rw [hk.checkpoints_eq, List.dropWhile_map]
  rfl

/-- A checkpoint is live if the past goes back to it. -/
theorem mem_checkpoints_iff (hk : h.Keeps past) (cp : Checkpoint) :
    cp ∈ h.checkpoints ↔ past.dropWhile (·.1 ≠ cp) ≠ [] := by
  rw [hk.checkpoints_eq, ne_eq, List.dropWhile_eq_nil_iff]
  simp

/-- Undoing to a live checkpoint restores the heap at which it was taken. -/
theorem undo (hk : h.Keeps past) {cp : Checkpoint} {p : Checkpoint × Heap}
    {older : List (Checkpoint × Heap)} (hdrop : past.dropWhile (·.1 ≠ cp) = p :: older) :
    h.undo cp = .ok (retaken p) := by
  have hlive : cp ∈ h.checkpoints := by
    rw [hk.mem_checkpoints_iff, hdrop]
    exact List.cons_ne_nil _ _
  have hcps := hk.dropWhile_checkpoints cp
  obtain ⟨hcp, ⟨hlength, hcount⟩, ⟨hflag, recent, htrail, hcells⟩, hold⟩ := hk.goesBackTo hdrop
  have hundone : h.trail.length - cp.trailLength = recent.length := by
    rw [htrail, hlength, List.length_append]
    omega
  rw [hdrop, List.map_cons, ← hold.checkpoints_eq] at hcps
  simp only [Heap.undo, if_pos hlive, trailLength, hundone, hcps, take_foldl_restore, hcount]
  rw [htrail, List.take_left, List.drop_left, hcells, hflag]
  rfl

/-- The heap that undoing restores keeps the checkpoint itself and what is older. -/
theorem retaken (hk : h.Keeps past) {cp : Checkpoint} {p : Checkpoint × Heap}
    {older : List (Checkpoint × Heap)} (hdrop : past.dropWhile (·.1 ≠ cp) = p :: older) :
    (Heap.retaken p).Keeps (p :: older) := by
  obtain ⟨hp, hmark, -, hold⟩ := hk.goesBackTo hdrop
  exact ⟨rfl, by rwa [hp], ⟨rfl, [], rfl, by simp [Heap.retaken]⟩, hold⟩

/-- Committing a live checkpoint keeps what is older. -/
theorem commit (hk : h.Keeps past) {cp : Checkpoint} {p : Checkpoint × Heap}
    {older : List (Checkpoint × Heap)} (hdrop : past.dropWhile (·.1 ≠ cp) = p :: older) :
    ∃ h', h.commit cp = .ok h' ∧ h'.cells = h.cells ∧ h'.Keeps older := by
  have hlive : cp ∈ h.checkpoints := by
    rw [hk.mem_checkpoints_iff, hdrop]
    exact List.cons_ne_nil _ _
  have hcps := hk.dropWhile_checkpoints cp
  obtain ⟨hcp, -, hback, hold⟩ := hk.goesBackTo hdrop
  rw [hdrop, List.map_cons] at hcps
  refine ⟨_, if_pos hlive, rfl, ?_⟩
  -- the trail goes with the last checkpoint, and stays where an older one needs it
  match older, hold with
  | [], hold =>
    show (h.checkpoints.dropWhile (· ≠ cp)).tail = []
    rw [hcps]
    rfl
  | (cp', old') :: older', ⟨hcps', hmark', hback', hold'⟩ =>
    have htail : (h.checkpoints.dropWhile (· ≠ cp)).tail = cp' :: old'.checkpoints := by
      rw [hcps, hold'.checkpoints_eq]
      rfl
    refine ⟨htail, hmark', ?_, hold'⟩
    obtain ⟨hflag, recent, htrail, hcells⟩ := hback.trans hback'
    refine ⟨hflag, recent, ?_, hcells⟩
    simp only [htail, List.isEmpty_cons]
    exact htrail

/-- A checkpoint that is not live is refused. -/
theorem refused (hk : h.Keeps past) {cp : Checkpoint}
    (hdrop : past.dropWhile (·.1 ≠ cp) = []) :
    h.undo cp = .error .invalidCheckpoint ∧ h.commit cp = .error .invalidCheckpoint := by
  have hdead : cp ∉ h.checkpoints := by
    rw [hk.mem_checkpoints_iff, hdrop]
    exact fun hne => hne rfl
  exact ⟨if_neg hdead, if_neg hdead⟩

end Keeps

/-! ## The simulation -/

theorem replay_concat (h : Heap) (events : List Event) (e : Event) :
    h.replay (events ++ [e]) = (h.replay events).apply e := by
  simp [replay]

/-- Replaying the journal of what became of a store brings a heap with the same cells there. -/
theorem cells_replay {s s' : Store} (h : Heap) (hrec : s.Recorded s') (hjournal : s.journal = [])
    (hcells : h.cells = s.cells) : (h.replay s'.journal.reverse).cells = s'.cells := by
  induction hrec with
  | refl => simpa [hjournal, replay] using hcells
  | alloc _ ih =>
    rw [Store.allocated, List.reverse_cons, replay_concat]
    exact congrArg (Array.push · none) ih
  | bind v value _ _ ih =>
    rw [Store.bound, List.reverse_cons, replay_concat]
    exact congrArg (Array.setIfInBounds · v (some value)) ih

/-- A heap and a plain store that agree, where `past` tells of the live checkpoints. -/
structure Agrees (past : List (Checkpoint × Heap)) (h : Heap) (r : Snapshots) : Prop where
  keeps : h.Keeps past
  cells : h.cells = r.cells
  live : r.live = past.map fun p => (p.1, p.2.cells)

namespace Agrees

variable {past : List (Checkpoint × Heap)} {h : Heap} {r : Snapshots}

/-- The snapshots have the checkpoints of the heap. -/
theorem marks (ha : Agrees past h r) : h.checkpoints = r.marks := by
  rw [ha.keeps.checkpoints_eq, Snapshots.marks, ha.live, List.map_map]
  rfl

/-- They are dropped as the checkpoints are. -/
theorem dropWhile_live (ha : Agrees past h r) (cp : Checkpoint) :
    r.live.dropWhile (·.1 ≠ cp) = (past.dropWhile (·.1 ≠ cp)).map fun p => (p.1, p.2.cells) := by
  rw [ha.live, List.dropWhile_map]
  rfl

/-- A program sees the same cells, and leaves the same cells behind. -/
theorem run {α : Type} (ha : Agrees past h r) {program : Run Store α}
    (hrec : Records id program) :
    (∃ f, h.run program = .error f ∧ r.run program = .error f) ∨
      ∃ a h' events r', h.run program = .ok (a, h', events) ∧ r.run program = .ok (a, r') ∧
        Agrees past h' r' := by
  have hsame : ({ cells := h.cells } : Store) = { cells := r.cells } := by rw [ha.cells]
  unfold Heap.run Snapshots.run
  rw [← hsame]
  cases hprog : program { cells := h.cells } with
  | error f => exact .inl ⟨f, rfl, rfl⟩
  | ok result =>
    obtain ⟨a, s⟩ := result
    refine .inr ⟨a, _, _, _, rfl, rfl, ha.keeps.replay _, ?_, ha.live⟩
    exact cells_replay h (hrec _ _ _ hprog) rfl rfl

/-- The newest of the past is a new checkpoint of this heap. -/
theorem checkpoint (ha : Agrees past h r) (stamp : Nat) :
    Agrees (((h.checkpoint stamp).1, h) :: past) (h.checkpoint stamp).2
      (r.checkpoint (h.checkpoint stamp).1) where
  keeps := ha.keeps.checkpoint stamp
  cells := ha.cells
  live := by
    rw [Snapshots.checkpoint, ha.live, ← ha.cells]
    rfl

end Agrees

/-- Heap and plain store end an action with the same outcome and agree again. What is new in the
past is the checkpoint that the action takes. -/
def StaysInStep (past : List (Checkpoint × Heap)) (h : Heap) (r : Snapshots)
    (names : Nat → Checkpoint) (action : Action) : Prop :=
  ∃ outcome h' r' past', h.perform action = .ok (outcome, h') ∧
    r.perform names action = .ok (outcome, r') ∧ Agrees past' h' r' ∧
      ∀ p ∈ past', p ∈ past ∨ action.stamp? = some p.1.stamp

namespace Agrees

variable {past : List (Checkpoint × Heap)} {h : Heap} {r : Snapshots}

/-- Undoing leads both to the checkpoint, which stays live, or both refuse. -/
theorem undo (ha : Agrees past h r) (names : Nat → Checkpoint) (cp : Checkpoint) :
    StaysInStep past h r names (.undo cp) := by
  have hdrop := ha.dropWhile_live cp
  cases hcp : past.dropWhile (·.1 ≠ cp) with
  | nil =>
    rw [hcp] at hdrop
    refine ⟨.refused .invalidCheckpoint, h, r, past, ?_, ?_, ha, fun p hp => .inl hp⟩
    · rw [Heap.perform, (ha.keeps.refused hcp).1]
      rfl
    · rw [Snapshots.perform, Snapshots.undo, hdrop]
      rfl
  | cons p older =>
    rw [hcp] at hdrop
    have hp := (ha.keeps.goesBackTo hcp).1
    have hagain : Agrees (p :: older) (retaken p)
        { cells := p.2.cells, live := (cp, p.2.cells) :: older.map fun q => (q.1, q.2.cells) } :=
      ⟨ha.keeps.retaken hcp, rfl, by rw [List.map_cons, hp]⟩
    refine ⟨.done, _, _, p :: older, ?_, ?_, hagain, ?_⟩
    · rw [Heap.perform, ha.keeps.undo hcp]
      rfl
    · rw [Snapshots.perform, Snapshots.undo, hdrop]
      rfl
    · intro q hq
      exact .inl ((List.dropWhile_suffix _).subset (hcp ▸ hq))

/-- Committing drops the checkpoint and keeps the cells, or both refuse. -/
theorem commit (ha : Agrees past h r) (names : Nat → Checkpoint) (cp : Checkpoint) :
    StaysInStep past h r names (.commit cp) := by
  have hdrop := ha.dropWhile_live cp
  cases hcp : past.dropWhile (·.1 ≠ cp) with
  | nil =>
    rw [hcp] at hdrop
    refine ⟨.refused .invalidCheckpoint, h, r, past, ?_, ?_, ha, fun p hp => .inl hp⟩
    · rw [Heap.perform, (ha.keeps.refused hcp).2]
      rfl
    · rw [Snapshots.perform, Snapshots.commit, hdrop]
      rfl
  | cons p older =>
    rw [hcp] at hdrop
    obtain ⟨h', hcommit, hcells, hkeeps⟩ := ha.keeps.commit hcp
    have hagain : Agrees older h' { r with live := older.map fun q => (q.1, q.2.cells) } :=
      ⟨hkeeps, hcells.trans ha.cells, rfl⟩
    refine ⟨.done, h', _, older, ?_, ?_, hagain, ?_⟩
    · rw [Heap.perform, hcommit]
      rfl
    · rw [Snapshots.perform, Snapshots.commit, hdrop]
      rfl
    · intro q hq
      exact .inl ((List.dropWhile_suffix _).subset (hcp ▸ List.mem_cons_of_mem p hq))

end Agrees

/-- **One action**: heap and plain store give the same outcome and agree again, or end in the same
fault. -/
theorem perform_agrees {past : List (Checkpoint × Heap)} {h : Heap} {r : Snapshots}
    (ha : Agrees past h r) (names : Nat → Checkpoint) (action : Action)
    (hnames : ∀ stamp, action = .checkpoint stamp → names stamp = (h.checkpoint stamp).1) :
    (∃ f, h.perform action = .error f ∧ r.perform names action = .error f) ∨
      StaysInStep past h r names action := by
  cases action with
  | operate fuel op =>
    rcases ha.run (op.records fuel) with ⟨f, hh, hr⟩ | ⟨a, h', events, r', hh, hr, ha'⟩
    · exact .inl ⟨f, by simp [Heap.perform, hh, bind, Except.bind],
        by simp [Snapshots.perform, hr, bind, Except.bind]⟩
    · exact .inr ⟨.answered a, h', r', past,
        by simp [Heap.perform, hh, bind, Except.bind, pure, Except.pure],
        by simp [Snapshots.perform, hr, bind, Except.bind, pure, Except.pure], ha',
        fun p hp => .inl hp⟩
  | checkpoint stamp =>
    refine .inr ⟨_, _, _, _, rfl, ?_, ha.checkpoint stamp, ?_⟩
    · rw [Snapshots.perform, hnames stamp rfl]
    · intro p hp
      rcases List.mem_cons.mp hp with rfl | hp
      · exact .inr rfl
      · exact .inl hp
  | undo cp => exact .inr (ha.undo names cp)
  | commit cp => exact .inr (ha.commit names cp)
  | clear =>
    exact .inr ⟨.done, _, _, [], rfl, rfl, ⟨rfl, rfl, rfl⟩, fun p hp => by cases hp⟩

/-- A new heap and a new plain store. -/
theorem agrees_empty (conditionalTrailing : Bool) :
    Agrees [] { conditionalTrailing } {} where
  keeps := rfl
  cells := rfl
  live := rfl

end Heap

/-! ## Runs -/

/-- The stamps of the checkpoints that the actions take. -/
def stamps (actions : List Action) : List Nat := actions.filterMap Action.stamp?

/-- A stamp is used by an action or by a later one. -/
theorem mem_stamps_cons {n : Nat} {action : Action} {rest : List Action} :
    n ∈ stamps (action :: rest) ↔ action.stamp? = some n ∨ n ∈ stamps rest := by
  simp [stamps]

/-- If all stamps differ, that of the first action is none of those to come. -/
theorem nodup_stamps_cons {action : Action} {rest : List Action}
    (h : (stamps (action :: rest)).Nodup) :
    (∀ n, action.stamp? = some n → n ∉ stamps rest) ∧ (stamps rest).Nodup := by
  unfold stamps at h ⊢
  cases hstamp : action.stamp? with
  | none =>
    rw [List.filterMap_cons_none hstamp] at h
    exact ⟨fun n hn => (nomatch hn), h⟩
  | some n =>
    rw [List.filterMap_cons_some hstamp, List.nodup_cons] at h
    exact ⟨fun m hm => Option.some.inj hm ▸ h.1, h.2⟩

section Runs

variable {σ : Type} {perform : σ → Action → Except Fault (Outcome × σ)} {s s' : σ}
  {action : Action} {rest : List Action}

theorem performAll_cons_ok {outcome : Outcome} (h : perform s action = .ok (outcome, s')) :
    performAll perform s (action :: rest) =
      (performAll perform s' rest).map fun r => (outcome :: r.1, r.2) := by
  simp only [performAll, h, bind, Except.bind, pure, Except.pure]
  cases performAll perform s' rest <;> rfl

theorem performAll_cons_error {f : Fault} (h : perform s action = .error f) :
    performAll perform s (action :: rest) = .error f := by
  simp only [performAll, h, bind, Except.bind]

end Runs

/-- Only the name of the checkpoint that is taken matters. -/
theorem Snapshots.perform_congr {names names' : Nat → Checkpoint} (r : Snapshots) {action : Action}
    (h : ∀ n, action.stamp? = some n → names n = names' n) :
    r.perform names action = r.perform names' action := by
  cases action with
  | checkpoint stamp => rw [Snapshots.perform, Snapshots.perform, h stamp rfl]
  | _ => rfl

namespace Heap

/-- What a caller can see of a heap after some actions. -/
def view (r : List Outcome × Heap) : List Outcome × Cells × List Checkpoint :=
  (r.1, r.2.cells, r.2.checkpoints)

/-- The names of the checkpoints are found on the way. Those of other stamps play no part, so that
each stamp must be given out once. -/
theorem performAll_agrees : ∀ (actions : List Action) {past : List (Checkpoint × Heap)}
    {h : Heap} {r : Snapshots}, Agrees past h r → (stamps actions).Nodup →
    ∃ names : Nat → Checkpoint, (∀ n, (names n).stamp = n) ∧
      ∀ names' : Nat → Checkpoint, (∀ n ∈ stamps actions, names' n = names n) →
        (performAll Heap.perform h actions).map view =
          (performAll (Snapshots.perform names') r actions).map Snapshots.view
  | [], past, h, r, ha, _ => by
    refine ⟨fun stamp => { stamp, trailLength := 0, varCount := 0 }, fun _ => rfl, fun _ _ => ?_⟩
    simp [performAll, Except.map, view, Snapshots.view, ha.cells, ha.marks]
  | action :: rest, past, h, r, ha, hstamps => by
    obtain ⟨hfresh, hrest⟩ := nodup_stamps_cons hstamps
    rcases perform_agrees ha (fun n => (h.checkpoint n).1) action fun _ _ => rfl with
      ⟨f, hh, hr⟩ | ⟨outcome, h', r', past', hh, hr, ha', -⟩
    · refine ⟨fun n => (h.checkpoint n).1, fun _ => rfl, fun names' hnames => ?_⟩
      have hcongr : r.perform names' action = .error f := by
        rw [← hr]
        exact r.perform_congr fun n hn => hnames n (mem_stamps_cons.mpr (.inl hn))
      rw [performAll_cons_error hh, performAll_cons_error hcongr]
      rfl
    · obtain ⟨names, hnamed, hsame⟩ := performAll_agrees rest ha' hrest
      refine ⟨fun n => if action.stamp? = some n then (h.checkpoint n).1 else names n,
        fun n => ?_, fun names' hnames => ?_⟩
      · dsimp only
        split
        · rfl
        · exact hnamed n
      have hcongr : r.perform names' action = .ok (outcome, r') := by
        rw [← hr]
        refine r.perform_congr fun n hn => ?_
        exact (hnames n (mem_stamps_cons.mpr (.inl hn))).trans (if_pos hn)
      -- the first action has its stamp to itself, so the names of the rest are those found for it
      have hlater : ∀ n ∈ stamps rest, names' n = names n := by
        intro n hn
        exact (hnames n (mem_stamps_cons.mpr (.inr hn))).trans
          (if_neg fun hstamp => hfresh n hstamp hn)
      have hviews := hsame names' hlater
      rw [performAll_cons_ok hh, performAll_cons_ok hcongr]
      generalize performAll Heap.perform h' rest = x at hviews
      generalize performAll (Snapshots.perform names') r' rest = y at hviews
      cases x <;> cases y <;> simp_all [Except.map, view, Snapshots.view]

/-- After any actions, each live checkpoint is one of before or has one of their stamps. -/
theorem performAll_past : ∀ (actions : List Action) {past : List (Checkpoint × Heap)}
    {h h' : Heap} {r : Snapshots} {outcomes : List Outcome}, Agrees past h r →
    performAll Heap.perform h actions = .ok (outcomes, h') →
    ∃ past' r', Agrees past' h' r' ∧ ∀ p ∈ past', p ∈ past ∨ p.1.stamp ∈ stamps actions
  | [], past, h, h', r, outcomes, ha, hrun => by
    cases hrun
    exact ⟨past, r, ha, fun p hp => .inl hp⟩
  | action :: rest, past, h, h', r, outcomes, ha, hrun => by
    -- any names will do here, so those are taken that the heap itself gives out
    rcases perform_agrees ha (fun n => (h.checkpoint n).1) action fun _ _ => rfl with
      ⟨f, hh, hr⟩ | ⟨outcome, h₁, r₁, past₁, hh, hr, ha₁, hnew⟩
    · rw [performAll_cons_error hh] at hrun
      cases hrun
    · rw [performAll_cons_ok hh] at hrun
      cases hlater : performAll Heap.perform h₁ rest with
      | error f => rw [hlater] at hrun; cases hrun
      | ok result =>
        rw [hlater] at hrun
        cases hrun
        obtain ⟨past', r', ha', hpast⟩ := performAll_past rest ha₁ hlater
        refine ⟨past', r', ha', fun p hp => ?_⟩
        rcases hpast p hp with hp | hp
        · rcases hnew p hp with hp | hp
          · exact .inl hp
          · exact .inr (mem_stamps_cons.mpr (.inl hp))
        · exact .inr (mem_stamps_cons.mpr (.inr hp))

/-- Undoing to a checkpoint of which the stamp was given out once leads back to the heap of which
it was taken, whatever was done since. -/
theorem undo_performAll {past : List (Checkpoint × Heap)} {h h₁ h₂ : Heap} {r : Snapshots}
    (ha : Agrees past h r) {stamp : Nat} (hpast : ∀ p ∈ past, p.1.stamp ≠ stamp)
    {actions : List Action} (hfresh : stamp ∉ stamps actions) {outcomes : List Outcome}
    (hrun : performAll Heap.perform (h.checkpoint stamp).2 actions = .ok (outcomes, h₁))
    (hundo : h₁.undo (h.checkpoint stamp).1 = .ok h₂) : h₂ = (h.checkpoint stamp).2 := by
  obtain ⟨past', r', ha', hnew⟩ := performAll_past actions (ha.checkpoint stamp) hrun
  cases hdrop : past'.dropWhile (·.1 ≠ (h.checkpoint stamp).1) with
  | nil =>
    rw [(ha'.keeps.refused hdrop).1] at hundo
    cases hundo
  | cons p older =>
    have hcp : p.1 = (h.checkpoint stamp).1 := (ha'.keeps.goesBackTo hdrop).1
    have hmem : p ∈ past' := (List.dropWhile_suffix _).subset (hdrop ▸ List.mem_cons_self ..)
    -- no other live checkpoint has the stamp
    have hp : p = ((h.checkpoint stamp).1, h) := by
      rcases hnew p hmem with hold | hlater
      · rcases List.mem_cons.mp hold with rfl | hold
        · rfl
        · exact absurd (congrArg Checkpoint.stamp hcp) (hpast p hold)
      · rw [hcp] at hlater
        exact absurd hlater hfresh
    rw [ha'.keeps.undo hdrop, hp] at hundo
    cases hundo
    rfl

/-- **Backtracking restores snapshots.** Take any sequence of actions on a new heap, with trailing
of either kind, in which every checkpoint has a stamp of its own. The plain store gives the same
outcomes, ends in the same fault if any, and has the same cells and the same live checkpoints in
the end; in particular exactly the checkpoints that are not live there are refused. And undoing to
a checkpoint, whatever was done after it was taken, leads back to the very heap it was taken of:
the same cells, the same trail, and the checkpoint on top of those that were live then. -/
theorem refines_snapshots (conditionalTrailing : Bool) (actions : List Action)
    (hstamps : (stamps actions).Nodup) :
    (∃ names : Nat → Checkpoint, (∀ n, (names n).stamp = n) ∧
      (performAll Heap.perform { conditionalTrailing } actions).map Heap.view =
        (performAll (Snapshots.perform names) {} actions).map Snapshots.view) ∧
    ∀ before stamp after, actions = before ++ .checkpoint stamp :: after →
      ∀ outcomes₁ h₁ outcomes₂ h₂ h₃,
        performAll Heap.perform { conditionalTrailing } before = .ok (outcomes₁, h₁) →
        performAll Heap.perform (h₁.checkpoint stamp).2 after = .ok (outcomes₂, h₂) →
        h₂.undo (h₁.checkpoint stamp).1 = .ok h₃ → h₃ = (h₁.checkpoint stamp).2 := by
  have hempty := agrees_empty conditionalTrailing
  constructor
  · obtain ⟨names, hnamed, hsame⟩ := performAll_agrees actions hempty hstamps
    exact ⟨names, hnamed, hsame names fun _ _ => rfl⟩
  · intro before stamp after hsplit outcomes₁ h₁ outcomes₂ h₂ h₃ hbefore hafter hundo
    -- the stamp is neither one of before nor given out again
    have honce : stamp ∉ stamps before ∧ stamp ∉ stamps after := by
      rw [hsplit, stamps, List.filterMap_append,
        List.filterMap_cons_some (Action.stamp?.eq_1 stamp), List.nodup_append] at hstamps
      obtain ⟨-, hlater, hapart⟩ := hstamps
      exact ⟨fun hmem => hapart _ hmem _ (List.mem_cons_self ..) rfl,
        (List.nodup_cons.mp hlater).1⟩
    obtain ⟨past, r, ha, hpast⟩ := performAll_past before hempty hbefore
    refine undo_performAll ha (fun p hp heq => ?_) honce.2 hafter hundo
    rcases hpast p hp with hnone | hmem
    · cases hnone
    · exact honce.1 (heq ▸ hmem)

/-- A binding that was shortened under a checkpoint that is committed since, in a cell that is
dropped when the older checkpoint is undone. -/
theorem refines_snapshots_nested :
    let actions : List Action :=
      [.operate 9 .newVar, .checkpoint 0, .operate 9 .newVar, .operate 9 .newVar,
        .operate 9 (.setVar 0 (.var 1)), .checkpoint 1, .operate 9 (.setVar 1 (.var 2)),
        .operate 9 (.deref (.var 0)), .commit ⟨1, 1, 3⟩, .undo ⟨0, 0, 1⟩]
    (stamps actions).Nodup ∧
      ∃ names : Nat → Checkpoint, (∀ n, (names n).stamp = n) ∧
        (performAll Heap.perform { conditionalTrailing := true } actions).map Heap.view =
          (performAll (Snapshots.perform names) {} actions).map Snapshots.view := by
  intro actions
  have hstamps : (stamps actions).Nodup := by decide
  exact ⟨hstamps, (refines_snapshots true actions hstamps).1⟩

end Heap

end Horn
