import Horn.Proofs.Snapshots

/-!
# The bounds of the trail

Undoing to a checkpoint takes the difference of two lengths, takes that many entries off the trail,
writes each of them back into a cell and drops the cells from some number on. None of this is out of
range: the lengths of the trail and of the cells, the lengths that the checkpoints recorded and the
variables on the trail bound each other in every heap that can be reached, though cells are dropped
and allocated anew below entries that stay, and though the entries above a committed checkpoint pass
to the one before it.

- `Heap.InBounds`: the invariant, kept by every action.
- `Heap.undoStrict`: undoing with each access checked.
- `Heap.undo_in_bounds`: in every heap that can be reached, undoing to a live checkpoint stays in
  range.
-/

namespace Horn

/-- The oldest entries of a trail, which has the newest first. -/
def oldestEntries (n : Nat) (trail : List TrailEntry) : List TrailEntry :=
  trail.drop (trail.length - n)

section OldestEntries

variable {n : Nat} {trail : List TrailEntry}

@[simp] theorem oldestEntries_length (trail : List TrailEntry) :
    oldestEntries trail.length trail = trail := by
  simp [oldestEntries]

/-- A new entry is none of those that were there. -/
theorem oldestEntries_cons (h : n ≤ trail.length) (e : TrailEntry) :
    oldestEntries n (e :: trail) = oldestEntries n trail := by
  rw [oldestEntries, List.length_cons, Nat.succ_sub h, List.drop_succ_cons, oldestEntries]

/-- The oldest entries stay when others are taken off. -/
theorem oldestEntries_oldestEntries {m : Nat} (hnm : n ≤ m) (hm : m ≤ trail.length) :
    oldestEntries n (oldestEntries m trail) = oldestEntries n trail := by
  simp only [oldestEntries, List.length_drop, List.drop_drop]
  congr 1
  omega

/-- The oldest entries are as many as are asked for, if there are so many. -/
theorem length_oldestEntries (h : n ≤ trail.length) : (oldestEntries n trail).length = n := by
  rw [oldestEntries, List.length_drop]
  omega

end OldestEntries

namespace Heap

/-- The numbers that undoing goes by bound each other. -/
structure InBounds (h : Heap) : Prop where
  /-- Neither the trail nor the cells were longer at an older checkpoint than at a newer one. -/
  ordered : h.checkpoints.Pairwise fun newer older =>
    older.trailLength ≤ newer.trailLength ∧ older.varCount ≤ newer.varCount
  /-- Neither was longer at any live checkpoint than it is now. -/
  reached : ∀ cp ∈ h.checkpoints, cp.trailLength ≤ h.trailLength ∧ cp.varCount ≤ h.size
  /-- An entry that was there at a checkpoint is for a cell that was there. -/
  known : ∀ cp ∈ h.checkpoints, ∀ e ∈ oldestEntries cp.trailLength h.trail, e.var < cp.varCount
  /-- Every entry is for a cell that is there. -/
  allocated : ∀ e ∈ h.trail, e.var < h.size
  /-- Without checkpoints there is no trail. -/
  unused : h.checkpoints = [] → h.trail = []

namespace InBounds

variable {h : Heap}

/-- A new variable is one more cell. -/
theorem alloc (hb : h.InBounds) : InBounds { h with cells := h.cells.push none } := by
  have hsize : size { h with cells := h.cells.push none } = h.size + 1 := Array.size_push _
  refine ⟨hb.ordered, fun cp hcp => ?_, hb.known, fun e he => ?_, hb.unused⟩
  · exact ⟨(hb.reached cp hcp).1, hsize ▸ Nat.le_succ_of_le (hb.reached cp hcp).2⟩
  · exact hsize ▸ Nat.lt_succ_of_lt (hb.allocated e he)

/-- A write to a cell that is there makes at most one entry, which is for that cell and newer than
all checkpoints. -/
theorem write (hb : h.InBounds) {v : Nat} (hv : v < h.size) (value : Term) :
    (h.write v value).InBounds := by
  have hsize : (h.write v value).size = h.size := Array.size_setIfInBounds
  by_cases hneeds : h.needsTrail v
  · have htrail : (h.write v value).trail =
        { var := v, previous := (h.cells[v]?).join } :: h.trail := by simp [Heap.write, hneeds]
    refine ⟨hb.ordered, fun cp hcp => ?_, fun cp hcp => ?_, ?_, fun hnone => ?_⟩
    · rw [hsize, trailLength, htrail]
      exact ⟨Nat.le_succ_of_le (hb.reached cp hcp).1, (hb.reached cp hcp).2⟩
    · rw [htrail, oldestEntries_cons (hb.reached cp hcp).1]
      exact hb.known cp hcp
    · rw [hsize, htrail]
      exact List.forall_mem_cons.mpr ⟨hv, hb.allocated⟩
    · -- without checkpoints nothing is trailed
      have hlive : h.checkpoints = [] := hnone
      simp [needsTrail, hlive] at hneeds
  · have htrail : (h.write v value).trail = h.trail := by simp [Heap.write, hneeds]
    refine ⟨hb.ordered, fun cp hcp => ?_, fun cp hcp => ?_, ?_, fun hnone => ?_⟩
    · rw [hsize, trailLength, htrail]
      exact hb.reached cp hcp
    · rw [htrail]
      exact hb.known cp hcp
    · rw [hsize, htrail]
      exact hb.allocated
    · rw [htrail]
      exact hb.unused hnone

/-- A new checkpoint records the lengths of now. -/
theorem checkpoint (hb : h.InBounds) (stamp : Nat) : (h.checkpoint stamp).2.InBounds where
  ordered := List.pairwise_cons.mpr ⟨hb.reached, hb.ordered⟩
  reached := List.forall_mem_cons.mpr ⟨⟨Nat.le_refl _, Nat.le_refl _⟩, hb.reached⟩
  known := by
    refine List.forall_mem_cons.mpr ⟨?_, hb.known⟩
    show ∀ e ∈ oldestEntries h.trail.length h.trail, e.var < h.size
    rw [oldestEntries_length]
    exact hb.allocated
  allocated := hb.allocated
  unused hnone := nomatch hnone

theorem clear (h : Heap) : h.clear.InBounds :=
  ⟨.nil, List.forall_mem_nil _, List.forall_mem_nil _, List.forall_mem_nil _, fun _ => rfl⟩

/-- A new heap has neither trail nor checkpoints. -/
theorem new (conditionalTrailing : Bool) : InBounds { conditionalTrailing } :=
  ⟨.nil, List.forall_mem_nil _, List.forall_mem_nil _, List.forall_mem_nil _, fun _ => rfl⟩

/-- The live checkpoints from some one on are it and older ones. -/
theorem exists_older {cp : Checkpoint} (hcp : cp ∈ h.checkpoints) :
    ∃ older, h.checkpoints.dropWhile (· ≠ cp) = cp :: older ∧ cp :: older <:+ h.checkpoints := by
  obtain ⟨first, older, hdrop⟩ := List.exists_cons_of_ne_nil
    (show h.checkpoints.dropWhile (· ≠ cp) ≠ [] by
      rw [ne_eq, List.dropWhile_eq_nil_iff]
      exact fun hall => by simpa using hall cp hcp)
  have hfirst : first = cp := by
    have hhead := List.head?_dropWhile_not (· ≠ cp) h.checkpoints
    rw [hdrop] at hhead
    simpa using hhead
  subst hfirst
  exact ⟨older, hdrop, hdrop ▸ List.dropWhile_suffix _⟩

/-- Undoing to a live checkpoint takes the trail and the cells back to the lengths of then. -/
theorem undo (hb : h.InBounds) {cp : Checkpoint} (hcp : cp ∈ h.checkpoints) :
    ∃ h', h.undo cp = .ok h' ∧ h'.trailLength = cp.trailLength ∧ h'.size = cp.varCount ∧
      h'.InBounds := by
  obtain ⟨older, hdrop, hsuffix⟩ := exists_older hcp
  obtain ⟨hlength, hcount⟩ := hb.reached cp hcp
  -- the older checkpoints were taken when trail and store were no longer than at this one
  have hlater : ∀ cp' ∈ cp :: older,
      cp'.trailLength ≤ cp.trailLength ∧ cp'.varCount ≤ cp.varCount := by
    have hpair := hb.ordered.sublist hsuffix.sublist
    exact List.forall_mem_cons.mpr
      ⟨⟨Nat.le_refl _, Nat.le_refl _⟩, (List.pairwise_cons.mp hpair).1⟩
  have hsize : ∀ entries : List TrailEntry,
      ((entries.foldl restore h.cells).take cp.varCount).size = cp.varCount := by
    intro entries
    rw [Array.take_eq_extract, Array.size_extract, size_foldl_restore]
    exact Nat.min_eq_left hcount
  refine ⟨_, if_pos hcp, length_oldestEntries hlength, hsize _, ?_⟩
  rw [hdrop]
  constructor
  · exact hb.ordered.sublist hsuffix.sublist
  · intro cp' hcp'
    show cp'.trailLength ≤ (oldestEntries cp.trailLength h.trail).length ∧ _ ≤ Array.size _
    rw [length_oldestEntries hlength, hsize]
    exact hlater cp' hcp'
  · intro cp' hcp'
    show ∀ e ∈ oldestEntries cp'.trailLength (oldestEntries cp.trailLength h.trail), _
    -- what an older checkpoint knows of the trail has not been cut off
    rw [oldestEntries_oldestEntries (hlater cp' hcp').1 hlength]
    exact hb.known cp' (hsuffix.subset hcp')
  · intro e he
    show e.var < Array.size _
    rw [hsize]
    exact hb.known cp hcp e he
  · exact fun hnone => nomatch hnone

/-- Committing a live checkpoint drops checkpoints, and the trail with the last of them. -/
theorem commit (hb : h.InBounds) {cp : Checkpoint} (hcp : cp ∈ h.checkpoints) :
    ∃ h', h.commit cp = .ok h' ∧ h'.InBounds := by
  obtain ⟨older, hdrop, hsuffix⟩ := exists_older hcp
  have holder : older <:+ h.checkpoints := (List.suffix_cons cp older).trans hsuffix
  refine ⟨_, if_pos hcp, ?_⟩
  rw [hdrop, List.tail_cons]
  cases older with
  | nil =>
    exact ⟨.nil, List.forall_mem_nil _, List.forall_mem_nil _, List.forall_mem_nil _, fun _ => rfl⟩
  | cons next older =>
    exact ⟨hb.ordered.sublist holder.sublist, fun cp hcp => hb.reached cp (holder.subset hcp),
      fun cp hcp => hb.known cp (holder.subset hcp), hb.allocated, fun hnone => nomatch hnone⟩

/-! ## Actions -/

/-- Replaying what became of the cells by recorded changes, each of which concerns a cell that is
there at its time. -/
theorem replay {s s' : Store} (hb : h.InBounds) (hrec : s.Recorded s') (hjournal : s.journal = [])
    (hcells : h.cells = s.cells) : (h.replay s'.journal.reverse).InBounds := by
  induction hrec with
  | refl => simpa [hjournal, Heap.replay] using hb
  | alloc _ ih =>
    rw [Store.allocated, List.reverse_cons, replay_concat]
    exact ih.alloc
  | @bind t v value hrec hv ih =>
    have hsize : (h.replay t.journal.reverse).size = t.cells.size :=
      congrArg Array.size (cells_replay h hrec hjournal hcells)
    rw [Store.bound, List.reverse_cons, replay_concat]
    exact ih.write (hsize ▸ hv) value

/-- **Every action** keeps the bounds. -/
theorem perform {h' : Heap} {action : Action} {outcome : Outcome} (hb : h.InBounds)
    (hrun : h.perform action = .ok (outcome, h')) : h'.InBounds := by
  cases action with
  | operate fuel op =>
    rw [Heap.perform, Heap.run] at hrun
    cases hprog : op.program fuel { cells := h.cells } with
    | error f => rw [hprog] at hrun; cases hrun
    | ok result =>
      obtain ⟨a, s'⟩ := result
      rw [hprog] at hrun
      cases hrun
      -- the heap makes the writes that the journal of the program tells of
      exact hb.replay (op.records fuel _ _ _ hprog) rfl rfl
  | checkpoint stamp =>
    cases hrun
    exact hb.checkpoint stamp
  | undo cp =>
    by_cases hcp : cp ∈ h.checkpoints
    · obtain ⟨h₁, hundo, -, -, hb₁⟩ := hb.undo hcp
      rw [Heap.perform, hundo] at hrun
      cases hrun
      exact hb₁
    · rw [Heap.perform, Heap.undo, if_neg hcp] at hrun
      cases hrun
      exact hb
  | commit cp =>
    by_cases hcp : cp ∈ h.checkpoints
    · obtain ⟨h₁, hcommit, hb₁⟩ := hb.commit hcp
      rw [Heap.perform, hcommit] at hrun
      cases hrun
      exact hb₁
    · rw [Heap.perform, Heap.commit, if_neg hcp] at hrun
      cases hrun
      exact hb
  | clear =>
    cases hrun
    exact .clear h

/-- So does every run of actions. -/
theorem performAll {h' : Heap} : ∀ {actions : List Action} {h : Heap} {outcomes : List Outcome},
    h.InBounds →
    performAll Heap.perform h actions = .ok (outcomes, h') → h'.InBounds
  | [], _, _, hb, hrun => by
    cases hrun
    exact hb
  | action :: rest, h, outcomes, hb, hrun => by
    cases hfirst : h.perform action with
    | error f =>
      rw [performAll_cons_error hfirst] at hrun
      cases hrun
    | ok result =>
      obtain ⟨outcome, h₁⟩ := result
      rw [performAll_cons_ok hfirst] at hrun
      cases hlater : Horn.performAll Heap.perform h₁ rest with
      | error f => rw [hlater] at hrun; cases hrun
      | ok later =>
        rw [hlater] at hrun
        cases hrun
        exact performAll (hb.perform hfirst) hlater

end InBounds

/-! ## Undoing with checks -/

/-- A cell gets back what it held, if there is such a cell. -/
def restoreStrict (cells : Cells) (e : TrailEntry) : Option Cells :=
  if e.var < cells.size then some (restore cells e) else none

/-- The cells after undoing, where nothing is taken to be in range: the trail must have been no
longer at the checkpoint than it is now, every entry made since must be for a cell that there is,
and there must have been no more cells. -/
def undoStrict (h : Heap) (cp : Checkpoint) : Option Cells :=
  if cp.trailLength ≤ h.trailLength ∧ cp.varCount ≤ h.size then
    ((h.trail.take (h.trailLength - cp.trailLength)).foldlM restoreStrict h.cells).map
      fun cells => cells.take cp.varCount
  else none

/-- If all entries are for cells that there are, the cells are there at each of them. -/
theorem foldlM_restoreStrict : ∀ (entries : List TrailEntry) (cells : Cells),
    (∀ e ∈ entries, e.var < cells.size) →
      entries.foldlM restoreStrict cells = some (entries.foldl restore cells)
  | [], _, _ => rfl
  | e :: entries, cells, hentries => by
    obtain ⟨he, hrest⟩ := List.forall_mem_cons.mp hentries
    have hsize : (restore cells e).size = cells.size := Array.size_setIfInBounds
    have hstrict : restoreStrict cells e = some (restore cells e) := if_pos he
    rw [List.foldlM_cons, hstrict, Option.bind_eq_bind, Option.bind_some, List.foldl_cons]
    exact foldlM_restoreStrict entries _ (hsize ▸ hrest)

/-- Undoing to a live checkpoint within bounds passes all checks. -/
theorem InBounds.undoStrict {h h' : Heap} {cp : Checkpoint} (hb : h.InBounds)
    (hcp : cp ∈ h.checkpoints) (hundo : h.undo cp = .ok h') : h.undoStrict cp = some h'.cells := by
  rw [Heap.undo, if_pos hcp] at hundo
  cases hundo
  have hentries : ∀ e ∈ h.trail.take (h.trailLength - cp.trailLength), e.var < h.size :=
    fun e he => hb.allocated e (List.mem_of_mem_take he)
  rw [Heap.undoStrict, if_pos (hb.reached cp hcp), foldlM_restoreStrict _ _ hentries]
  rfl

/-- **Undoing stays in range.** In every heap that can be reached from an empty one by any actions,
with trailing of either kind, the lengths of the trail and of the cells at the live checkpoints do
not decrease from the oldest to the newest and are at most the lengths of now, an entry of the trail
is for a cell that is there, and for one that was there at each live checkpoint that is newer than
the entry, and without live checkpoints the trail is empty. So undoing to any live checkpoint finds
every entry and every cell that it looks for, and leaves a trail and cells of the lengths of
then. -/
theorem undo_in_bounds (conditionalTrailing : Bool) (actions : List Action)
    {outcomes : List Outcome} {h : Heap}
    (hrun : performAll Heap.perform { conditionalTrailing } actions = .ok (outcomes, h)) :
    h.InBounds ∧ ∀ cp ∈ h.checkpoints, ∃ h', h.undo cp = .ok h' ∧
      h.undoStrict cp = some h'.cells ∧ h'.trailLength = cp.trailLength ∧
        h'.size = cp.varCount := by
  have hb : h.InBounds := .performAll (.new conditionalTrailing) hrun
  refine ⟨hb, fun cp hcp => ?_⟩
  obtain ⟨h', hundo, hlength, hcount, -⟩ := hb.undo hcp
  exact ⟨h', hundo, hb.undoStrict hcp hundo, hlength, hcount⟩

/-- The entries made since a checkpoint that is committed pass to the one before it, which knows
fewer cells than they are for. -/
theorem undo_in_bounds_merged :
    let cp : Checkpoint := ⟨0, 0, 1⟩
    let actions : List Action :=
      [.operate 9 .newVar, .checkpoint 0, .operate 9 .newVar, .operate 9 (.setVar 0 (.int 1)),
        .checkpoint 1, .operate 9 (.setVar 1 (.int 2)), .commit ⟨1, 1, 2⟩]
    let h : Heap := {
      cells := #[some (.int 1), some (.int 2)]
      trail := [⟨1, none⟩, ⟨0, none⟩]
      checkpoints := [cp] }
    (∃ outcomes, performAll Heap.perform { conditionalTrailing := true } actions =
      .ok (outcomes, h)) ∧ h.InBounds ∧ h.undoStrict cp = some #[none] := by
  intro cp actions h
  have hrun : ∃ outcomes, performAll Heap.perform { conditionalTrailing := true } actions =
      .ok (outcomes, h) := ⟨_, rfl⟩
  obtain ⟨outcomes, hactions⟩ := hrun
  obtain ⟨hb, hundo⟩ := undo_in_bounds true actions hactions
  obtain ⟨h', hh', hstrict, -, -⟩ := hundo cp (List.mem_singleton_self cp)
  have hcells : h.undo cp = .ok { cells := #[none], checkpoints := [cp] } := rfl
  cases hh'.symm.trans hcells
  exact ⟨⟨outcomes, hactions⟩, hb, hstrict⟩

end Heap

end Horn
