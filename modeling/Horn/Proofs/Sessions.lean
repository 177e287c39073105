import Horn.Proofs.Safety
import Horn.Proofs.TrailBounds

/-!
# Sessions

A session starts with an empty heap and performs actions on it, whose terms mention variables only
that are allocated by then. Clauses and terms that are copied have variables of their own and may
mention any. Whatever is done, with the occurs check or without, with actions that fail, and with
bindings taken back and variables dropped, the heap stays well formed: no cell mentions a variable
that has been dropped, and no chain of variables closes.

- `Operation.Admissible`: what an operation may be given.
- `Operation.Underway`, `Operation.Passes`: the stores that the run of an operation comes by, even
  if it does not end.
- `Operation.MayFault`: how a run can end if it has no answer.
- `Operation.program_grows`: an operation makes a well-formed store grow, or faults as it may.
- `Heap.Reached`: the heaps of all sessions.
- `Heap.session_safe`: what every action on them does.
-/

namespace Horn

/-! ## Operations -/

/-- The terms of the memo are over `n` variables. -/
def Memo.Below (n : Nat) (memo : Memo) : Prop := ∀ v t, memo.find? v = some t → t.Below n

/-- The terms that an operation is given mention allocated variables only, of which there are `n`.
Clauses and sources of copies are not terms of the store. No operation but `setVar` binds a variable
without looking where the term leads. -/
def Operation.Admissible (n : Nat) : Operation → Prop
  | .newVar => True
  | .setVar _ _ => False
  | .deref t | .value _ t | .contains _ t | .mayUnify _ t | .call _ _ t => t.Below n
  | .compare a b | .unify _ a b => a.Below n ∧ b.Below n
  | .copy _ memo _ => memo.Below n
  | .copyAndUnify _ memo _ goal => memo.Below n ∧ goal.Below n

/-- The store `s'` is one that the operation on the store `s` comes by after `n` rounds of a loop.
Only these operations follow bindings inside nodes, where they may lead in circles. -/
inductive Operation.Underway (s : Store) (n : Nat) : Operation → Store → Prop where
  | value {supply : Supply} {t : Term} {s' : Store} (h : VisitPasses (fun _ => True) n [t] s s') :
      Underway s n (.value supply t) s'
  | contains {v : Nat} {t : Term} {s' : Store} (h : VisitPasses (· ≠ .var v) n [t] s s') :
      Underway s n (.contains v t) s'
  | compare {a b : Term} {s' : Store} (h : ComparePasses n [(a, b)] s s') :
      Underway s n (.compare a b) s'
  | unify {occursCheck : Bool} {a b : Term} {s' : Store}
      (h : UnifyPasses occursCheck n [(a, b)] s s') : Underway s n (.unify occursCheck a b) s'
  | copyAndUnify {supply : Supply} {memo : Memo} {source goal : Term} {s' : Store}
      (h : MatchPasses n [(source, goal)] { store := s, memo } s') :
      Underway s n (.copyAndUnify supply memo source goal) s'
  | call {supply : Supply} {c : Clause} {goal root : Term} {s₁ s' : Store}
      (hroot : Horn.deref goal s = .ok (root, s₁)) (harity : c.head.arity = root.arity)
      (h : CallPasses n (c.head.arguments.zip root.arguments) { store := s₁, memo := {} } s') :
      Underway s n (.call supply c goal) s'

/-- The store `s'` is one that a run of the operation on the store `s` comes by, whether or not the
run ends. -/
inductive Operation.Passes (s : Store) (op : Operation) (s' : Store) : Prop where
  | ended {fuel : Nat} {a : Answer} (h : op.program fuel s = .ok (a, s'))
  | underway {n : Nat} (h : op.Underway s n s')

/-- How the run of an operation can end without an answer: its loop has made as many rounds as it
may, or a clause is called with a goal of another arity. -/
inductive Operation.MayFault (fuel : Nat) (s : Store) : Operation → Fault → Prop where
  | endless {op : Operation} {s' : Store} (h : op.Underway s fuel s') :
      MayFault fuel s op .outOfFuel
  | wrongArity {supply : Supply} {c : Clause} {goal root : Term} (hroot : s.cells.Root goal root)
      (h : c.head.arity ≠ root.arity) : MayFault fuel s (.call supply c goal)
        (.wrongArity root c.signature c.head.arity root.arity)

/-- The terms that are returned, or left in a memo, are over `n` variables. -/
def Answer.Below (n : Nat) : Answer → Prop
  | .done | .flag _ | .order _ | .unified _ => True
  | .variable v => v < n
  | .term t | .built t _ => t.Below n
  | .copied result memo _ => (∀ t, result = .ok t → t.Below n) ∧ memo.Below n
  | .called result _ => ∀ body, result = .ok (some body) → body.Below n

namespace Operation

variable {s : Store} {op : Operation}

/-- What the run of an operation on a well-formed store can come to. -/
def Safe (fuel : Nat) (op : Operation) (s : Store) : Except Fault (Answer × Store) → Prop
  | .ok (a, s') => s.Grows s' ∧ a.Below s'.cells.size
  | .error f => op.MayFault fuel s f

variable {fuel : Nat}

/-- An operation answers by what its program returns. -/
theorem Safe.of_ok {α : Type} {x : Run Store α} {f : α → Answer} {a : α} {s' : Store}
    (hx : x s = .ok (a, s')) (hgrows : s.Grows s') (ha : (f a).Below s'.cells.size) :
    op.Safe fuel s ((f <$> x) s) := by
  have hrun : (f <$> x) s = .ok (f a, s') := Run.bind_ok (f := fun a => pure (f a)) hx
  exact hrun ▸ ⟨hgrows, ha⟩

/-- A program is safe if it meets a fault that it may meet. -/
theorem Safe.of_error {α : Type} {x : Run Store α} {f : α → Answer} {e : Fault}
    (hx : x s = .error e) (he : op.MayFault fuel s e) : op.Safe fuel s ((f <$> x) s) := by
  have hrun : (f <$> x) s = .error e := Run.bind_error (f := fun a => pure (f a)) hx
  exact hrun ▸ he

/-- An operation with a loop comes to what its program ends as. -/
theorem Safe.of_ends {α : Type} {x : Run Store α} {f : α → Answer} {P : α × Store → Prop}
    (hx : Ends P (∃ s', op.Underway s fuel s') (x s))
    (hP : ∀ a s', P (a, s') → s.Grows s' ∧ (f a).Below s'.cells.size) :
    op.Safe fuel s ((f <$> x) s) := by
  have hend : Ends (fun r => s.Grows r.2 ∧ r.1.Below r.2.cells.size)
      (∃ s', op.Underway s fuel s') ((f <$> x) s) :=
    Ends.bind (f := fun a => pure (f a)) hx fun a s' h => .of_ok rfl (hP a s' h)
  cases hrun : (f <$> x) s with
  | ok r =>
    rw [hrun] at hend
    exact hend
  | error e =>
    rw [hrun] at hend
    obtain ⟨rfl, s', h⟩ := hend
    exact .endless h

/-- **Every operation** with admissible terms makes a well-formed store grow, write by write, and
answers with terms over the store that it leaves. Otherwise its loop has made as many rounds as
it may, or it is a call with a goal of another arity. -/
theorem program_grows (fuel : Nat) (hs : s.cells.WellFormed)
    (hop : op.Admissible s.cells.size) : op.Safe fuel s (op.program fuel s) := by
  cases op with
  | newVar =>
    have hnew : s.cells.size < s.allocated.cells.size := by simp [Store.allocated]
    exact .of_ok rfl (.alloc .refl) hnew
  | setVar v t => exact hop.elim
  | deref t =>
    obtain ⟨r, s', hrun, -, hshort, -, hbelow⟩ := hs.deref hop
    exact .of_ok hrun hshort.grows hbelow
  | value supply t =>
    have hvalue := value_shortens fuel hs hop supply
    refine .of_ends (hvalue.imp_right (Exists.imp fun s' => .value)) ?_
    rintro ⟨r, supply'⟩ s' ⟨hshort, hr⟩
    -- the value is below the size of the store that is left, which is the old size
    rw [← hshort.compressed.size] at hr
    exact ⟨hshort.grows, hr⟩
  | contains v t =>
    have hterm : ∀ u ∈ [t], u.Below s.cells.size := fun u hu => List.mem_singleton.mp hu ▸ hop
    have hsearch := searchVar_shortens (v := v) fuel hs hterm
    exact .of_ends (hsearch.imp_right (Exists.imp fun s' => .contains))
      fun b s' h => ⟨h.grows, trivial⟩
  | compare a b =>
    have hpair : PairsBelow s.cells.size [(a, b)] := fun q hq => List.mem_singleton.mp hq ▸ hop
    have hcompare := comparePairs_shortens fuel hs hpair
    exact .of_ends (hcompare.imp_right (Exists.imp fun s' => .compare))
      fun o s' h => ⟨h.grows, trivial⟩
  | unify occursCheck a b =>
    have hunify := unify_grows fuel occursCheck hs hop.1 hop.2
    exact .of_ends (hunify.imp_right (Exists.imp fun s' => .unify)) fun r s' h => ⟨h, trivial⟩
  | copy supply memo t =>
    obtain ⟨copied, supply', i', hrun, hgrows, -, hcopied, -⟩ :=
      copy_grows t supply (i := { store := s, memo }) ⟨hs, hop⟩
    refine .of_ok (withMemo_run hrun) hgrows.store ⟨?_, hgrows.wellFormed.memo⟩
    rintro _ ⟨⟩
    exact hcopied
  | copyAndUnify supply memo source goal =>
    have hmatch := copyAndUnify_makes fuel source supply (i := { store := s, memo })
      ⟨hs, hop.1⟩ hop.2
    exact .of_ends ((Ends.withMemo hmatch).imp_right (Exists.imp fun s' => .copyAndUnify))
      fun r s' h => ⟨h.1.store, h.2, h.1.wellFormed.memo⟩
  | mayUnify c goal =>
    obtain ⟨b, s', hrun, hshort⟩ := c.mayUnify_shortens hs hop
    exact .of_ok hrun hshort.grows trivial
  | call supply c goal =>
    obtain ⟨root, _, hderef, hroot, -⟩ := hs.deref hop
    -- a goal of another arity ends the call before anything is matched
    by_cases harity : c.head.arity = root.arity
    · have hcall := c.call_grows fuel supply hs hop hroot harity
      refine .of_ends (hcall.imp_right ?_) fun r s' h => h
      rintro ⟨s₁, s', hderef, h⟩
      exact ⟨s', .call hderef harity h⟩
    · have hcall := (Clause.call_run hderef fuel supply (c := c)).trans (if_neg harity)
      exact .of_error hcall (.wrongArity hroot harity)

end Operation

/-! ## Runs that have not ended -/

section Underway

variable {s s' : Store}

theorem Cells.WellFormed.of_deref {t r : Term} (hs : s.cells.WellFormed)
    (ht : t.Below s.cells.size) (h : Horn.deref t s = .ok (r, s')) :
    s.Shortened s' ∧ s'.cells.WellFormed ∧ r.Below s'.cells.size := by
  obtain ⟨root, s₁, hrun, -, hresult⟩ := hs.deref ht
  cases hrun.symm.trans h
  exact hresult

/-- **Visiting** terms shortens chains, round by round. -/
theorem VisitPasses.shortens {p : Term → Prop} {n : Nat} {ts : List Term}
    (h : VisitPasses p n ts s s') (hs : s.cells.WellFormed)
    (hts : ∀ t ∈ ts, t.Below s.cells.size) : s.Shortened s' := by
  induction h with
  | start => exact .refl
  | visit h _ hmore later ih =>
    obtain ⟨ht, hrest⟩ := List.forall_mem_cons.mp hts
    obtain ⟨hshort, hs₁, hr⟩ := hs.of_deref ht h
    refine hshort.trans (ih hs₁ fun u hu => ?_)
    rcases List.mem_append.mp hu with hu | hu
    · exact hr.arg (hmore.mem_iff.mp hu)
    · exact hshort.grows.term_below (hrest u hu)

/-- The roots of a pair are over the store that is left when they have been found. -/
theorem Cells.WellFormed.of_deref_pair {a b ra rb : Term} {s₁ s₂ : Store}
    (hs : s.cells.WellFormed) (ha : a.Below s.cells.size) (hb : b.Below s.cells.size)
    (hra : Horn.deref a s = .ok (ra, s₁)) (hrb : Horn.deref b s₁ = .ok (rb, s₂)) :
    s.Shortened s₂ ∧ s₂.cells.WellFormed ∧ ra.Below s₂.cells.size ∧ rb.Below s₂.cells.size := by
  obtain ⟨hshort₁, hs₁, hra⟩ := hs.of_deref ha hra
  obtain ⟨hshort₂, hs₂, hrb⟩ := hs₁.of_deref (hshort₁.grows.term_below hb) hrb
  exact ⟨hshort₁.trans hshort₂, hs₂, hshort₂.grows.term_below hra, hrb⟩

theorem ComparePasses.shortens {n : Nat} {pairs : List (Term × Term)}
    (h : ComparePasses n pairs s s') (hs : s.cells.WellFormed)
    (hpairs : PairsBelow s.cells.size pairs) : s.Shortened s' := by
  induction h with
  | start => exact .refl
  | round ha hb heq later ih =>
    obtain ⟨⟨hta, htb⟩, hrest⟩ := List.forall_mem_cons.mp hpairs
    obtain ⟨hshort, hs₂, hra, hrb⟩ := hs.of_deref_pair hta htb ha hb
    exact hshort.trans (ih hs₂ (pairsEvery_append.mpr
      ⟨(sameSymbol_of_eq heq).pairsEvery hra hrb, PairsBelow.mono hrest hshort.grows.size_le⟩))

/-- **Unifying** pairs makes the store grow, round by round. -/
theorem UnifyPasses.grows {occursCheck : Bool} {n : Nat} {pairs : List (Term × Term)}
    (h : UnifyPasses occursCheck n pairs s s') (hs : s.cells.WellFormed)
    (hpairs : PairsBelow s.cells.size pairs) : s.Grows s' := by
  induction h with
  | start => exact .refl
  | search _ ha hb hv h =>
    obtain ⟨hta, htb⟩ := hpairs _ List.mem_cons_self
    obtain ⟨hshort, hs₂, hra, hrb⟩ := hs.of_deref_pair hta htb ha hb
    refine (hshort.trans (h.shortens hs₂ (List.forall_mem_singleton.mpr ?_))).grows
    rcases hv with ⟨-, rfl⟩ | ⟨-, rfl⟩
    · exact hrb
    · exact hra
  | fail h =>
    obtain ⟨ha, hb⟩ := hpairs _ List.mem_cons_self
    exact ((unifyStep_grows _ _ hs ha hb).of_eq_ok h).1
  | round h later ih =>
    obtain ⟨⟨ha, hb⟩, hrest⟩ := List.forall_mem_cons.mp hpairs
    obtain ⟨hgrows, hmore⟩ := (unifyStep_grows _ _ hs ha hb).of_eq_ok h
    exact hgrows.trans (ih (hgrows.wellFormed hs)
      (pairsEvery_append.mpr ⟨hmore _ rfl, PairsBelow.mono hrest hgrows.size_le⟩))

/-- **Matching** pairs makes the store grow, round by round. -/
theorem MatchPasses.grows {n : Nat} {pairs : List (Term × Term)} {i : Instance}
    (h : MatchPasses n pairs i s') (hi : i.WellFormed)
    (hpairs : ∀ q ∈ pairs, q.2.Below i.store.cells.size) :
    i.store.Grows s' := by
  induction h with
  | start => exact .refl
  | unify hv h =>
    have hgoal := hpairs _ List.mem_cons_self
    exact h.grows hi.cells (List.forall_mem_singleton.mpr ⟨hi.memo _ _ hv, hgoal⟩)
  | fail h =>
    exact ((matchStep_steps _ _ _ hi (hpairs _ List.mem_cons_self)).of_eq_ok h).1.store
  | @round _ _ _ _ _ _ _ m _ _ _ h later ih =>
    obtain ⟨hgoal, hrest⟩ := List.forall_mem_cons.mp hpairs
    obtain ⟨hgrows, hm⟩ := (matchStep_steps _ _ _ hi hgoal).of_eq_ok h
    refine hgrows.store.trans (ih hgrows.wellFormed fun q hq => ?_)
    rcases List.mem_append.mp hq with hq | hq
    · cases m with
      | done copied => cases hq
      | descend functor first rest => exact hm _ rfl q hq
    · exact (hrest q hq).mono hgrows.store.size_le

theorem CallPasses.grows {n : Nat} {pairs : List (Term × Term)} {i : Instance}
    (h : CallPasses n pairs i s') (hi : i.WellFormed)
    (hpairs : ∀ q ∈ pairs, q.2.Below i.store.cells.size) : i.store.Grows s' := by
  induction h with
  | within h => exact h.grows hi (List.forall_mem_singleton.mpr (hpairs _ List.mem_cons_self))
  | next h later ih =>
    obtain ⟨hgoal, hrest⟩ := List.forall_mem_cons.mp hpairs
    obtain ⟨hgrows, -⟩ := (copyAndUnify_makes _ _ _ hi hgoal).of_eq_ok h
    exact hgrows.store.trans (ih hgrows.wellFormed fun q hq =>
      (hrest q hq).mono hgrows.store.size_le)

/-- What an operation has done by any time is one of the growths of the store. -/
theorem Operation.Underway.grows {op : Operation} {n : Nat} (h : op.Underway s n s')
    (hs : s.cells.WellFormed) (hop : op.Admissible s.cells.size) : s.Grows s' := by
  cases h with
  | value h | contains h => exact (h.shortens hs (List.forall_mem_singleton.mpr hop)).grows
  | compare h => exact (h.shortens hs (List.forall_mem_singleton.mpr hop)).grows
  | unify h => exact h.grows hs (List.forall_mem_singleton.mpr hop)
  | copyAndUnify h => exact h.grows ⟨hs, hop.1⟩ (List.forall_mem_singleton.mpr hop.2)
  | call hroot _ h =>
    obtain ⟨hshort, hs₁, hbelow⟩ := hs.of_deref hop hroot
    exact hshort.grows.trans (h.grows (.empty hs₁) fun q hq => hbelow.of_mem_zip hq)

/-- **Whatever store an operation comes by**, it has made by growing the one it started from. -/
theorem Operation.Passes.grows {op : Operation} (h : op.Passes s s') (hs : s.cells.WellFormed)
    (hop : op.Admissible s.cells.size) : s.Grows s' := by
  cases h with
  | @ended fuel _ h =>
    have hsafe := op.program_grows fuel hs hop
    rw [h] at hsafe
    exact hsafe.1
  | underway h => exact h.grows hs hop

end Underway

/-! ## Sessions -/

/-- What an action may be given on a heap of `n` variables. Any checkpoint may be tried. -/
def Action.Admissible (n : Nat) : Action → Prop
  | .operate _ op => op.Admissible n
  | _ => True

/-- How an action on a heap can end without an outcome. -/
def Action.MayFault (cells : Cells) (action : Action) (f : Fault) : Prop :=
  ∃ fuel op, action = .operate fuel op ∧ op.MayFault fuel { cells } f

/-- The terms of an answer are over `n` variables. -/
def Outcome.Below (n : Nat) : Outcome → Prop
  | .answered a => a.Below n
  | _ => True

namespace Heap

/-- The heaps that sessions reach. -/
inductive Reached : Heap → Prop where
  | new (conditionalTrailing : Bool) : Reached { conditionalTrailing }
  | perform {h h' : Heap} {outcome : Outcome} (hr : Reached h) (action : Action)
      (ha : action.Admissible h.size) (hrun : h.perform action = .ok (outcome, h')) : Reached h'

/-- The heap and those at which its live checkpoints were taken are well formed. -/
structure WellKept (h : Heap) (past : List (Checkpoint × Heap)) : Prop where
  keeps : h.Keeps past
  cells : h.cells.WellFormed
  past : ∀ p ∈ past, p.2.cells.WellFormed

variable {h : Heap} {past : List (Checkpoint × Heap)} {action : Action}

/-- Replaying what has been written up to some time gives the cells of that time. -/
theorem cells_of_written {s' : Store} {written : List Event}
    (hgrows : Store.Grows { cells := h.cells } s') (hw : written <+: s'.journal.reverse) :
    ∃ u, Store.Grows { cells := h.cells } u ∧ (h.replay written).cells = u.cells := by
  obtain ⟨u, hu, rfl⟩ := hgrows.exists_of_prefix rfl hw
  exact ⟨u, hu, cells_replay h hu.recorded rfl rfl⟩

namespace WellKept

/-- Undoing leads back to a heap that was well formed, or is refused. -/
theorem undo (hk : h.WellKept past) (cp : Checkpoint) :
    ∃ outcome h' past', h.perform (.undo cp) = .ok (outcome, h') ∧ h'.WellKept past' ∧
      outcome.Below h'.size := by
  cases hdrop : past.dropWhile (·.1 ≠ cp) with
  | nil =>
    refine ⟨.refused .invalidCheckpoint, h, past, ?_, hk, trivial⟩
    rw [perform, (hk.keeps.refused hdrop).1]
    rfl
  | cons p older =>
    have hold : ∀ q ∈ p :: older, q.2.cells.WellFormed := fun q hq =>
      hk.past q ((List.dropWhile_suffix _).subset (hdrop ▸ hq))
    refine ⟨.done, retaken p, p :: older, ?_,
      ⟨hk.keeps.retaken hdrop, hold p List.mem_cons_self, hold⟩, trivial⟩
    rw [perform, hk.keeps.undo hdrop]
    rfl

/-- A heap stays well kept when a checkpoint is committed, be it live or not. -/
theorem commit (hk : h.WellKept past) (cp : Checkpoint) :
    ∃ outcome h' past', h.perform (.commit cp) = .ok (outcome, h') ∧ h'.WellKept past' ∧
      outcome.Below h'.size := by
  cases hdrop : past.dropWhile (·.1 ≠ cp) with
  | nil =>
    refine ⟨.refused .invalidCheckpoint, h, past, ?_, hk, trivial⟩
    rw [perform, (hk.keeps.refused hdrop).2]
    rfl
  | cons p older =>
    obtain ⟨h', hcommit, hcells, hkeeps⟩ := hk.keeps.commit hdrop
    refine ⟨.done, h', older, ?_, ⟨hkeeps, hcells ▸ hk.cells, fun q hq => ?_⟩, trivial⟩
    · rw [perform, hcommit]
      rfl
    · exact hk.past q ((List.dropWhile_suffix _).subset (hdrop ▸ List.mem_cons_of_mem p hq))

/-- The heap replays what an operation has written. -/
theorem operate (hk : h.WellKept past) (fuel : Nat) {op : Operation}
    (hop : op.Admissible h.size) :
    (∃ a h', h.perform (.operate fuel op) = .ok (.answered a, h') ∧ h'.WellKept past ∧
      a.Below h'.size) ∨
    ∃ f, h.perform (.operate fuel op) = .error f ∧ op.MayFault fuel { cells := h.cells } f := by
  have hsafe : op.Safe fuel { cells := h.cells } (op.program fuel { cells := h.cells }) :=
    op.program_grows fuel hk.cells hop
  cases hrun : op.program fuel { cells := h.cells } with
  | error f =>
    rw [hrun] at hsafe
    exact .inr ⟨f, by rw [Heap.perform, Heap.run, hrun]; rfl, hsafe⟩
  | ok r =>
    rw [hrun] at hsafe
    obtain ⟨a, s'⟩ := r
    obtain ⟨hgrows, ha⟩ := hsafe
    have hcells : (h.replay s'.journal.reverse).cells = s'.cells :=
      cells_replay h hgrows.recorded rfl rfl
    refine .inl ⟨a, h.replay s'.journal.reverse, by rw [Heap.perform, Heap.run, hrun]; rfl,
      ⟨hk.keeps.replay _, ?_, hk.past⟩, ?_⟩
    · exact hcells ▸ hgrows.wellFormed hk.cells
    · have hsize : (h.replay s'.journal.reverse).size = s'.cells.size := congrArg Array.size hcells
      exact hsize ▸ ha

/-- **One action** on a well-kept heap. -/
theorem perform (hk : h.WellKept past) (ha : action.Admissible h.size) :
    (∃ outcome h' past', h.perform action = .ok (outcome, h') ∧ h'.WellKept past' ∧
      outcome.Below h'.size) ∨ ∃ f, h.perform action = .error f ∧ action.MayFault h.cells f := by
  cases action with
  | operate fuel op =>
    rcases hk.operate fuel ha with ⟨a, h', hrun, hk', ha'⟩ | ⟨f, hrun, hf⟩
    · exact .inl ⟨.answered a, h', past, hrun, hk', ha'⟩
    · exact .inr ⟨f, hrun, fuel, op, rfl, hf⟩
  | checkpoint stamp =>
    exact .inl ⟨_, _, _, rfl, ⟨hk.keeps.checkpoint stamp, hk.cells,
      List.forall_mem_cons.mpr ⟨hk.cells, hk.past⟩⟩, trivial⟩
  | undo cp => exact .inl (hk.undo cp)
  | commit cp => exact .inl (hk.commit cp)
  | clear =>
    exact .inl ⟨_, _, [], rfl, ⟨rfl, Cells.wellFormed_empty, fun _ hp => nomatch hp⟩, trivial⟩

end WellKept

/-- All heaps of sessions are well kept. -/
theorem Reached.wellKept (hr : h.Reached) : ∃ past, h.WellKept past := by
  induction hr with
  | new conditionalTrailing =>
    exact ⟨[], rfl, Cells.wellFormed_empty, fun _ hp => nomatch hp⟩
  | perform hr action ha hrun ih =>
    obtain ⟨past, hk⟩ := ih
    rcases hk.perform ha with ⟨_, _, past', hrun', hk', -⟩ | ⟨_, hfault, -⟩
    · cases hrun'.symm.trans hrun
      exact ⟨past', hk'⟩
    · cases hfault.symm.trans hrun

/-- All heaps of sessions are within the bounds that undoing goes by. -/
theorem Reached.inBounds (hr : h.Reached) : h.InBounds := by
  induction hr with
  | new conditionalTrailing => exact .new conditionalTrailing
  | perform _ action _ hrun ih => exact ih.perform hrun

/-- **Sessions are safe.** Every heap that a session reaches is well formed. Every action on it
whose terms mention allocated variables only leaves a well-formed heap and gives back terms over it,
whether or not it succeeds; or else it is an operation that has gone round as often as it may, or a
call with a goal of another arity. Undoing to a live checkpoint finds every entry of the trail and
every cell that it looks for. At every write of an operation, even of one that does not end, the
cells are well formed and every term over them can be dereferenced. -/
theorem session_safe (hr : h.Reached) (action : Action) (ha : action.Admissible h.size) :
    h.cells.WellFormed ∧
      ((∃ outcome h', h.perform action = .ok (outcome, h') ∧ h'.cells.WellFormed ∧
        outcome.Below h'.size) ∨ ∃ f, h.perform action = .error f ∧ action.MayFault h.cells f) ∧
      (∀ cp ∈ h.checkpoints, ∃ h', h.undo cp = .ok h' ∧ h.undoStrict cp = some h'.cells) ∧
      ∀ fuel op s' written, action = .operate fuel op → op.Passes { cells := h.cells } s' →
        written <+: s'.journal.reverse → (h.replay written).cells.WellFormed ∧
          ∀ t, t.Below (h.replay written).size →
            ∃ r s'', deref t { cells := (h.replay written).cells } = .ok (r, s'') := by
  obtain ⟨past, hk⟩ := hr.wellKept
  refine ⟨hk.cells, ?_, fun cp hcp => ?_, ?_⟩
  · rcases hk.perform ha with ⟨outcome, h', _, hrun, hk', ho⟩ | hfault
    · exact .inl ⟨outcome, h', hrun, hk'.cells, ho⟩
    · exact .inr hfault
  · obtain ⟨h', hundo, -⟩ := hr.inBounds.undo hcp
    exact ⟨h', hundo, hr.inBounds.undoStrict hcp hundo⟩
  · rintro fuel op s' written rfl hpasses hw
    obtain ⟨u, hgrows, hcells⟩ := cells_of_written (hpasses.grows hk.cells ha) hw
    have hwell : (h.replay written).cells.WellFormed := hcells ▸ hgrows.wellFormed hk.cells
    refine ⟨hwell, fun t ht => ?_⟩
    obtain ⟨r, s'', hrun, -⟩ :=
      Cells.WellFormed.deref (s := { cells := (h.replay written).cells }) hwell ht
    exact ⟨r, s'', hrun⟩

/-- A session in which a variable comes to be bound to a node in which it occurs, after which
the checkpoint before it is undone. -/
theorem session_safe_cyclic :
    let cyclic : Term := .compound 0 ⟨"f", .interned 0⟩ (.var 0) [.var 1]
    let h : Heap := {
      cells := #[some cyclic, none]
      trail := [⟨0, none⟩]
      checkpoints := [⟨0, 0, 2⟩] }
    h.Reached ∧ h.cells.WellFormed ∧ h.undoStrict ⟨0, 0, 2⟩ = some #[none, none] ∧
      ∃ outcome h', h.perform (.undo ⟨0, 0, 2⟩) = .ok (outcome, h') ∧ h'.cells.WellFormed := by
  intro cyclic h
  have h₁ : Reached { cells := #[none] } :=
    .perform (.new true) (.operate 9 .newVar) trivial rfl
  have h₂ : Reached { cells := #[none, none] } :=
    .perform h₁ (.operate 9 .newVar) trivial rfl
  have h₃ : Reached { cells := #[none, none], checkpoints := [⟨0, 0, 2⟩] } :=
    .perform h₂ (.checkpoint 0) trivial rfl
  have hbelow : Term.Below 2 (.var 0) ∧ cyclic.Below 2 := by
    simp [cyclic, Term.Bounded]
  have hr : h.Reached := .perform h₃ (.operate 9 (.unify false (.var 0) cyclic)) hbelow rfl
  obtain ⟨hwell, hruns | ⟨f, hfault, -⟩, hundo, -⟩ := session_safe hr (.undo ⟨0, 0, 2⟩) trivial
  · obtain ⟨outcome, h', hrun, hwell', -⟩ := hruns
    obtain ⟨h₄, hback, hstrict⟩ := hundo ⟨0, 0, 2⟩ (List.mem_singleton_self _)
    have hcells : h.undo ⟨0, 0, 2⟩ = .ok { cells := #[none, none], checkpoints := [⟨0, 0, 2⟩] } :=
      rfl
    cases hback.symm.trans hcells
    exact ⟨hr, hwell, hstrict, outcome, h', hrun, hwell'⟩
  · cases hfault

end Heap

end Horn
