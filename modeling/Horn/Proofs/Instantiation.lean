import Mathlib.Order.Interval.Finset.Nat
import Horn.Proofs.CanonicalForm
import Horn.Proofs.Sightings

/-!
# The variables of an instance

The variables of a clause and those of a store have the same indices and nothing to do with each
other. A call never lets one of the clause into the store: whatever it writes, and the body that it
returns, has the variables only that the goal reaches, and new ones. New ones are allocated only for
those variables of the clause that occur for the first time in a part of the head that is copied, or
in the body; the others stand for parts of the goal.

- `Clause.Sees`: the sightings of the variables of a clause in a call.
- `Clause.inCopyFirst`: those that need a new variable.
- `Clause.Instantiated`: what each variable of the clause stands for when the call is over.
- `Clause.call_apart`: a call keeps the variables of the clause and of the store apart.
-/

namespace Horn

variable {s s' : Store} {i i' : Instance} {seen : List (Nat × Sighting)} {v : Nat}

/-- The sighting is one in a copy. -/
def Sighting.isInCopy : Sighting → Bool
  | beside _ => false
  | inCopy => true

/-- A key is looked up with success. -/
theorem mem_keys_iff_lookup {α : Type} {entries : List (Nat × α)} :
    v ∈ entries.map Prod.fst ↔ ∃ x, entries.lookup v = some x := by
  rw [← Option.isSome_iff_exists, List.lookup_isSome_iff, List.mem_map]
  exact exists_congr fun e => and_congr_right fun _ => eq_comm.trans beq_iff_eq.symm

theorem Term.occurrences_of_callable {t : Term} (h : t.isCallable = true) :
    t.occurrences = occurrencesAll t.arguments := by
  cases t with
  | atom => rfl
  | compound => exact occurrences_of_compound
  | _ => cases h

namespace Clause

variable {c : Clause} {head : Term} {body b : Option Term} {goal root : Term}
  {supply supply' supply₀ supply₁ : Supply} {fuel : Nat} {memo : Memo}

/-- The sightings in a call whose goal has the given root: first those in the head, whose arguments
are matched with those of the root, and then those in the body, which is copied. -/
def Sees (c : Clause) (root : Term) (s : Store) (seen : List (Nat × Sighting)) : Prop :=
  ∃ ahead i, Horn.Sees (c.head.arguments.zip root.arguments) { store := s, memo := {} } ahead i ∧
    seen = ahead ++ (c.body.map Term.sightings).getD []

/-- The variables of the clause that are first sighted in a copy. -/
def inCopyFirst (c : Clause) (seen : List (Nat × Sighting)) : Finset Nat :=
  (Finset.range c.varCount).filter fun v => (seen.lookup v).any Sighting.isInCopy

/-- What the variables of a clause stand for in an instance of it, with body `b`. -/
structure Instantiated (c : Clause) (seen : List (Nat × Sighting)) (s : Store) (b : Option Term)
    (memo : Memo) (s' : Store) : Prop where
  /-- All occurrences have been sighted, in order. -/
  occurrences : seen.map Prod.fst = Term.occurrencesAll (parts c.head c.body)
  /-- As many cells have been allocated as there are variables first sighted in a copy. -/
  size : s'.cells.size = s.cells.size + (c.inCopyFirst seen).card
  le : (c.inCopyFirst seen).card ≤ c.varCount
  /-- Each of these has a new variable for itself. -/
  allocated : ∀ v ∈ c.inCopyFirst seen, ∃ w, memo.find? v = some (.var w) ∧ s.cells.size ≤ w ∧
    w < s'.cells.size ∧ ∀ u ∈ c.inCopyFirst seen, memo.find? u = some (.var w) → u = v
  /-- The others stand for the part of the goal beside which they have been first sighted. -/
  aliased : ∀ v < c.varCount, v ∉ c.inCopyFirst seen →
    ∃ part, seen.lookup v = some (.beside part) ∧ memo.find? v = some part
  /-- The body is that of the clause with its variables replaced. -/
  body : ∃ n, b = c.body.map fun t => (t.copied memo.image n).1

/-- These variables are first sighted in a copy. -/
theorem mem_inCopyFirst :
    v ∈ c.inCopyFirst seen ↔ v < c.varCount ∧ seen.lookup v = some .inCopy := by
  have hany : (seen.lookup v).any Sighting.isInCopy = true ↔ seen.lookup v = some .inCopy := by
    cases seen.lookup v with
    | none => simp
    | some x => cases x <;> simp [Sighting.isInCopy]
  rw [inCopyFirst, Finset.mem_filter, Finset.mem_range, hany]

/-! ## What a call sees -/

/-- An instance that is made accounts for all that is sighted in head and body. -/
theorem sees_of_instantiate
    (h : c.instantiate fuel root supply { store := s, memo := {} } = .ok ((.ok b, supply'), i')) :
    ∃ seen, c.Sees root s seen ∧ Instance.Accounts { store := s, memo := {} } seen i' ∧
      ∃ n, b = c.body.map fun t => (t.copied i'.memo.image n).1 := by
  unfold instantiate at h
  obtain ⟨_, supply₁, i₁, hmatch, hrest⟩ := Instantiation.ok_of_bind h
  obtain ⟨ahead, hsees⟩ := sees_of_matchAll hmatch
  cases hbody : c.body with
  | none =>
    rw [hbody] at hrest
    cases hrest
    refine ⟨ahead, ⟨ahead, i', hsees, ?_⟩, hsees.accounts, 0, rfl⟩
    rw [hbody]
    exact (List.append_nil _).symm
  | some t =>
    obtain ⟨i₂, hcopy, henters, hknown⟩ := copy_run t supply₁ i₁
    have hrun := Instantiation.build_bind (f := fun t => pure (some t)) hcopy
    rw [hbody] at hrest
    cases hrun.symm.trans hrest
    -- what is sighted in the body comes after what is sighted in the head
    refine ⟨ahead ++ t.sightings, ⟨ahead, i₁, hsees, ?_⟩,
      hsees.accounts.trans (henters.accounts hknown), supply₁.next, rfl⟩
    rw [hbody]
    rfl

/-- The sightings are the occurrences in head and body. -/
theorem Sees.occurrences (h : c.Sees root s seen) (hhead : c.head.isCallable = true)
    (harity : c.head.arity = root.arity) :
    seen.map Prod.fst = Term.occurrencesAll (parts c.head c.body) := by
  obtain ⟨ahead, i, hsees, rfl⟩ := h
  have hsources : sources (c.head.arguments.zip root.arguments) = c.head.arguments :=
    List.map_fst_zip (Nat.le_of_eq harity)
  have hbody : ((c.body.map Term.sightings).getD []).map Prod.fst =
      Term.occurrencesAll c.body.toList := by
    cases c.body with
    | none => rfl
    | some t => exact (Term.map_fst_sightings t).trans (List.append_nil _).symm
  rw [List.map_append, hsees.occurrences, hsources, hbody, parts, Term.occurrencesAll,
    Term.occurrences_of_callable hhead]

/-- Memo and store tell what the variables of the clause stand for. -/
theorem instantiated_of_accounts {s₁ : Store} (hsize : s₁.cells.size = s.cells.size)
    (hoccurrences : seen.map Prod.fst = Term.occurrencesAll (parts c.head c.body))
    (hordered : (Term.occurrencesAll (parts c.head c.body)).eraseDups = List.range c.varCount)
    (h : Instance.Accounts { store := s₁, memo := {} } seen { store := s', memo })
    (hbody : ∃ n, b = c.body.map fun t => (t.copied memo.image n).1) :
    c.Instantiated seen s b memo s' := by
  have hnew : ∀ v, ({} : Memo).find? v = none := fun _ => rfl
  have hsighted : ∀ v, v < c.varCount ↔ ∃ x, seen.lookup v = some x := by
    intro v
    rw [← mem_keys_iff_lookup, hoccurrences, ← List.mem_eraseDups, hordered, List.mem_range]
  have hallocated : ∀ v ∈ c.inCopyFirst seen,
      ∃ w, memo.find? v = some (.var w) ∧ s₁.cells.size ≤ w ∧ w < s'.cells.size :=
    fun v hv => h.allocated v (hnew v) (mem_inCopyFirst.mp hv).2
  have hinj : ∀ u ∈ c.inCopyFirst seen, ∀ v ∈ c.inCopyFirst seen, ∀ w,
      memo.find? u = some (.var w) → memo.find? v = some (.var w) → u = v :=
    fun u hu v hv w => h.inj u v w (hnew u) (hnew v) (mem_inCopyFirst.mp hu).2
      (mem_inCopyFirst.mp hv).2
  constructor
  case occurrences => exact hoccurrences
  case body => exact hbody
  case le =>
    have hle := Finset.card_filter_le (Finset.range c.varCount)
      fun v => (seen.lookup v).any Sighting.isInCopy
    rwa [Finset.card_range] at hle
  case size =>
    -- the variables first sighted in a copy are counted by the cells allocated for them
    choose cell hcell hge hlt using hallocated
    have hcard : (c.inCopyFirst seen).card =
        (Finset.Ico s₁.cells.size s'.cells.size).card := by
      refine Finset.card_bij cell ?_ ?_ ?_
      · exact fun v hv => Finset.mem_Ico.mpr ⟨hge v hv, hlt v hv⟩
      · intro u hu v hv heq
        exact hinj u hu v hv _ (hcell u hu) (heq ▸ hcell v hv)
      · intro w hw
        obtain ⟨hle, hlt⟩ := Finset.mem_Ico.mp hw
        obtain ⟨v, -, hfirst, hvw⟩ := h.onto w hle hlt
        have hv : v ∈ c.inCopyFirst seen :=
          mem_inCopyFirst.mpr ⟨(hsighted v).mpr ⟨_, hfirst⟩, hfirst⟩
        cases (hcell v hv).symm.trans hvw
        exact ⟨v, hv, rfl⟩
    have hle : s₁.cells.size ≤ s'.cells.size := h.le
    rw [hcard, Nat.card_Ico]
    omega
  case allocated =>
    intro v hv
    obtain ⟨w, hw, hle, hlt⟩ := hallocated v hv
    exact ⟨w, hw, hsize ▸ hle, hlt, fun u hu huw => hinj u hu v hv w huw hw⟩
  case aliased =>
    intro v hv hnot
    obtain ⟨x, hx⟩ := (hsighted v).mp hv
    cases x with
    | beside part => exact ⟨part, hx, h.aliased v part (hnew v) hx⟩
    | inCopy => exact absurd (mem_inCopyFirst.mpr ⟨hv, hx⟩) hnot

/-! ## Calling -/

/-- The variable is reached from the goal before the call, or is allocated in it. -/
def Near (goal : Term) (s s' : Store) (v : Nat) : Prop :=
  s.cells.Reaches goal v ∨ s.cells.size ≤ v ∧ v < s'.cells.size

/-- Only goals of the arity of the head are called. -/
theorem call_cases {result : Except UnifyError (Option Term)}
    (hs : s.cells.WellFormed) (hgoal : goal.Below s.cells.size)
    (h : c.call fuel goal supply s = .ok ((result, supply'), s')) :
    ∃ root s₁ memo, deref goal s = .ok (root, s₁) ∧ s.cells.Root goal root ∧
      s₁.cells.size = s.cells.size ∧ c.head.arity = root.arity ∧
        c.instantiate fuel root supply { store := s₁, memo := {} } =
          .ok ((result, supply'), { store := s', memo }) := by
  obtain ⟨root, s₁, hderef, hroot, hshort, -⟩ := hs.deref hgoal
  rw [call_run hderef] at h
  split at h
  · rename_i harity
    obtain ⟨memo, hinstantiate⟩ := ok_of_withNewMemo h
    exact ⟨root, s₁, memo, hderef, hroot, hshort.compressed.size, harity, hinstantiate⟩
  · cases h

/-- **Clause variables are kept apart.** However a call of a clause ends, what it writes is near the
goal: all variables in it are reached from the goal or allocated by the call, and so are those of a
body that is returned. If it succeeds, the variables of the clause that are first sighted in a copy,
of a part of the head that meets an unbound variable or of the body, are those for which cells have
been allocated, and all others stand for the part of the goal where they are first sighted. -/
theorem call_apart {result : Except UnifyError (Option Term)}
    (hmake : make head body supply₀ = .ok (.ok c, supply₁)) (hdated : Dated head body supply₀)
    (hs : s.cells.WellFormed) (hgoal : goal.Below s.cells.size)
    (h : c.call fuel goal supply s = .ok ((result, supply'), s')) :
    (∃ written, s'.journal = written ++ s.journal ∧
      ∀ e ∈ written, ∀ v, e.Concerns v → Near goal s s' v) ∧
    ∀ b, result = .ok b → (∀ t ∈ b, ∀ v, Term.Within (.var v) t → Near goal s s' v) ∧
      ∃ root s₁ memo seen, deref goal s = .ok (root, s₁) ∧
        c.instantiate fuel root supply { store := s₁, memo := {} } =
          .ok ((.ok b, supply'), { store := s', memo }) ∧
        c.Sees root s₁ seen ∧ c.Instantiated seen s b memo s' := by
  obtain ⟨root, s₁, memo, hderef, hroot, hsize, harity, hinstantiate⟩ := call_cases hs hgoal h
  obtain ⟨hgrows, hbelow⟩ := (call_grows fuel c supply hs hgoal hroot harity).of_eq_ok h
  have hconfined := (s.confined_reaches goal).union_new
  -- the region: what the goal reaches, and all that is allocated from now on
  have hroomy := hconfined.roomy fun v hv => .inr hv
  have hinside : goal.Inside ({v | s.cells.Reaches goal v} ∪ {v | s.cells.size ≤ v}) :=
    Term.inside_of_forall fun v hv => .inl (.within hv)
  obtain ⟨htouches, hbody⟩ := upholds_call hroomy fuel c hinside supply s _ s' .refl h
  refine ⟨?_, ?_⟩
  · obtain ⟨written, hjournal, hregion⟩ := htouches.written
    -- the region is not bounded above, so the bound by the size is added from the growth
    obtain ⟨written', hjournal', hlt⟩ := hgrows.written_below hs
    cases List.append_cancel_right (hjournal.symm.trans hjournal')
    exact ⟨written, hjournal, fun e he v hv =>
      (hregion e he v hv).imp_right fun hle => ⟨hle, hlt e he v hv⟩⟩
  · rintro b rfl
    refine ⟨?_, ?_⟩
    · rintro t ⟨⟩ v hv
      have hregion : v ∈ {v | s.cells.Reaches goal v} ∪ {v | s.cells.size ≤ v} :=
        hbody _ rfl t rfl _ hv
      exact hregion.imp_right fun hle => ⟨hle, (hbelow t rfl).lt hv⟩
    · obtain ⟨seen, hsees, haccounts, hcopied⟩ := sees_of_instantiate hinstantiate
      have hmade := made_of_make hmake
      have hhead : c.head.isCallable = true := by
        rw [Term.isCallable_eq, hmade.signature_head, hmade.signature]
        rfl
      exact ⟨root, s₁, memo, seen, hderef, hinstantiate, hsees, instantiated_of_accounts hsize
        (hsees.occurrences hhead harity) (hmade.ordered hdated) haccounts hcopied⟩

/-- The rule `p(X0, f(X0, X1)) :- q(X1, X2)` is called with the goal `p(X2, X1)`, where `X2` is an
alias of `X0`. All of its variables are those of cells, but it is for `X1` and `X2` of the rule that
two cells are allocated, while `X0` of the rule stands for `X2` of the goal. -/
theorem call_apart_colliding :
    let head : Term := .compound 0 ⟨"p", .interned 0⟩ (.var 0)
      [.compound 1 ⟨"f", .interned 1⟩ (.var 0) [.var 1]]
    let body : Term := .compound 2 ⟨"q", .interned 2⟩ (.var 1) [.var 2]
    let goal : Term := .compound 3 ⟨"p", .interned 0⟩ (.var 2) [.var 1]
    let s : Store := { cells := aliasedCells }
    ∃ c b supply s' memo seen, make head (some body) ⟨4⟩ = .ok (.ok c, ⟨4⟩) ∧
      c.call 4 goal ⟨4⟩ s = .ok ((.ok (some b), supply), s') ∧
        (∀ v, Term.Within (.var v) b → Near goal s s' v) ∧
          c.Instantiated seen s (some b) memo s' ∧ (c.inCopyFirst seen).card = 2 ∧
            0 ∉ c.inCopyFirst seen := by
  intro head body goal s
  let c : Clause := {
    head
    body := some body
    varCount := 3
    signature := ⟨⟨"p", .interned 0⟩, 2⟩
    argHashes := head.arguments.map Term.unifyHash
    hasCut := false }
  have hmake : make head (some body) ⟨4⟩ = .ok (.ok c, ⟨4⟩) := rfl
  have hdated : Dated head (some body) ⟨4⟩ := by
    simp [Dated, parts, head, body, Term.Dated]
  have hs : s.cells.WellFormed := (sound_aliasedCells (fun _ => goal) 0).proper.wellFormed
  have hgoal : goal.Below s.cells.size := by simp [goal, s, aliasedCells, Term.Bounded]
  obtain ⟨b, supply, s', hcall, hsize⟩ : ∃ b supply s',
      c.call 4 goal ⟨4⟩ s = .ok ((.ok (some b), supply), s') ∧ s'.cells.size = 5 :=
    ⟨_, _, _, rfl, rfl⟩
  obtain ⟨-, hok⟩ := call_apart hmake hdated hs hgoal hcall
  obtain ⟨hbody, root, s₁, memo, seen, hderef, hinstantiate, hsees, hinst⟩ := hok _ rfl
  have hcard : (c.inCopyFirst seen).card = 2 := by
    have hcells := hinst.size
    rw [hsize, show s.cells.size = 3 from rfl] at hcells
    omega
  cases hderef
  have hzero : memo.find? 0 = some (.var 2) := by
    cases hinstantiate
    rfl
  refine ⟨c, b, supply, s', memo, seen, hmake, hcall, hbody b rfl, hinst, hcard, fun hmem => ?_⟩
  obtain ⟨w, hw, hle, -⟩ := hinst.allocated 0 hmem
  cases hzero.symm.trans hw
  exact absurd hle (by decide)

end Clause

end Horn
