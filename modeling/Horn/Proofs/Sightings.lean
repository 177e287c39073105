import Horn.Proofs.Confinement
import Horn.Proofs.Occurrences

/-!
# Sightings of source variables

While sources are matched with a goal, the occurrences of their variables are come by from left to
right. One is either met beside a part of the goal, or in a term that is copied because an unbound
variable of the goal is bound to the copy. What a variable stands for is decided when it is first
sighted: it is the part of the goal beside it, or a variable that is allocated for it.

- `Sighting`: the two ways to meet an occurrence.
- `Deals`: all that a step of the walk can do that does not fail, and what it sights.
- `Sees`: a walk over pairs of sources and goals; `sees_of_matchAll`: each that succeeds is one.
- `Sees.occurrences`: it sights the occurrences of the sources, one after the other.
- `Instance.Accounts`: what memo and store tell of the variables that have been sighted.
- `Sees.accounts`: a walk leaves the memo and the store that account for what it has sighted.
-/

namespace Horn

variable {source goal : Term} {i i' i₁ i₂ : Instance} {m : Matched} {supply supply' : Supply}
  {pairs rest : List (Term × Term)} {fuel v : Nat}

/-- How an occurrence of a source variable is met. -/
inductive Sighting where
  /-- The variable is matched with this part of the goal. -/
  | beside (part : Term)
  /-- The variable occurs in a term that is copied. -/
  | inCopy

/-- The sightings of a term that is copied. -/
def Term.sightings (t : Term) : List (Nat × Sighting) := t.occurrences.map fun v => (v, .inCopy)

/-! ## Steps of the walk -/

/-- What is done with a source and a goal when it does not fail, and what is sighted of the source.
-/
inductive Deals : Term → Term → Instance → List (Nat × Sighting) → Matched → Instance → Prop where
  /-- A variable that is new stands for the goal. -/
  | first {v : Nat} {goal : Term} {i : Instance} (hv : i.memo.find? v = none) :
      Deals (.var v) goal i [(v, .beside goal)] (.done goal)
        { i with memo := i.memo.insert v goal }
  /-- What another variable stands for is unified with the goal. -/
  | known {fuel v : Nat} {goal t : Term} {i : Instance} {s' : Store}
      (hv : i.memo.find? v = some t) (hunify : unify fuel false t goal i.store = .ok (.ok (), s')) :
      Deals (.var v) goal i [(v, .beside goal)] (.done t) { i with store := s' }
  /-- An unbound variable of the goal is bound to a copy of the source. -/
  | bind {w : Nat} {source goal copied : Term} {i i' : Instance} {s₁ : Store}
      {supply supply' : Supply} (hsource : source.kind ≠ .var)
      (hderef : deref goal i.store = .ok (.var w, s₁))
      (hcopy : copy source supply { i with store := s₁ } = .ok ((copied, supply'), i')) :
      Deals source goal i source.sightings (.done copied)
        { i' with store := i'.store.bound w copied }
  /-- A leaf of the source agrees with one of the goal. -/
  | leaf {source goal root : Term} {i : Instance} {s₁ : Store}
      (hderef : deref goal i.store = .ok (root, s₁)) (hagree : leavesAgree source root = true) :
      Deals source goal i [] (.done source) { i with store := s₁ }
  /-- Nodes are to be matched argument by argument. -/
  | node {j k : Nat} {f g : Atom} {x y goal : Term} {xs ys : List Term} {i : Instance} {s₁ : Store}
      (hderef : deref goal i.store = .ok (.compound k g y ys, s₁))
      (hlength : xs.length = ys.length) :
      Deals (.compound j f x xs) goal i [] (.descend f (x, y) (xs.zip ys)) { i with store := s₁ }

/-- A variable of the source is sighted beside its part of the goal. -/
theorem deals_of_matchStep_var
    (h : matchStep fuel (.var v) goal supply i = .ok ((.ok m, supply'), i')) :
    ∃ seen, Deals (.var v) goal i seen m i' := by
  cases hv : i.memo.find? v with
  | none =>
    cases (matchStep_new fuel hv).symm.trans h
    exact ⟨_, .first hv⟩
  | some t =>
    -- only a unification that succeeds leaves a step that did not fail
    rw [matchStep_known fuel hv] at h
    cases hunify : unify fuel false t goal i.store with
    | error f =>
      have herror : onStore (unify fuel false t goal) i = .error f := by rw [onStore, hunify]
      rw [Instantiation.run_bind_error herror] at h
      cases h
    | ok r =>
      obtain ⟨result, s'⟩ := r
      rw [Instantiation.run_bind (onStore_run hunify)] at h
      cases result with
      | error e => cases h
      | ok u =>
        cases h
        exact ⟨_, .known hv hunify⟩

/-- **Every step** that does not fail is one of these. -/
theorem deals_of_matchStep
    (h : matchStep fuel source goal supply i = .ok ((.ok m, supply'), i')) :
    ∃ seen, Deals source goal i seen m i' := by
  by_cases hsource : source.kind = .var
  · cases source with
    | var v => exact deals_of_matchStep_var h
    | _ => cases hsource
  cases hderef : deref goal i.store with
  | error f =>
    rw [Walks.matchStep_error hsource fuel hderef] at h
    cases h
  | ok r =>
    obtain ⟨root, s₁⟩ := r
    rw [Walks.matchStep_run hsource fuel hderef] at h
    by_cases hkind : root.kind = .var
    · cases root with
      | var w =>
        obtain ⟨i₁, hcopy, -⟩ := copy_run source supply { i with store := s₁ }
        -- a variable of the goal is bound to a copy, unless it was never allocated
        rw [matchRoot_var, Instantiation.build_bind hcopy] at h
        by_cases hw : w < i₁.store.cells.size
        · rw [Instantiation.run_bind (onStore_run (Store.bind_run _ hw))] at h
          cases h
          exact ⟨_, .bind hsource hderef hcopy⟩
        · have hbind : onStore (Store.bind w (source.copied i₁.memo.image supply.next).1) i₁ =
              .error (.neverAllocated w) := by rw [onStore, Store.bind, if_neg hw]
          rw [Instantiation.run_bind_error hbind] at h
          cases h
      | _ => cases hkind
    by_cases hleaf : source.kind ≠ .compound ∨ root.kind ≠ .compound
    · rw [matchRoot_leaves hsource hkind hleaf] at h
      split at h
      · rename_i hagree
        cases h
        exact ⟨_, .leaf hderef hagree⟩
      · cases h
    · -- both are nodes
      simp only [ne_eq, not_or, Decidable.not_not] at hleaf
      cases source with
      | compound j f x xs =>
        cases root with
        | compound k g y ys =>
          rw [matchRoot] at h
          split at h
          · rename_i hsame
            rw [Bool.and_eq_true, beq_iff_eq] at hsame
            cases h
            exact ⟨_, .node hderef hsame.1⟩
          · cases h
        | _ => cases hleaf.2
      | _ => cases hleaf.1

/-! ## The walk -/

/-- The pairs are dealt with one after the other, those of the arguments of nodes at once. -/
inductive Sees : List (Term × Term) → Instance → List (Nat × Sighting) → Instance → Prop where
  | nil {i : Instance} : Sees [] i [] i
  | step {source goal : Term} {rest : List (Term × Term)} {seen later : List (Nat × Sighting)}
      {m : Matched} {i i₁ i' : Instance} (head : Deals source goal i seen m i₁)
      (tail : Sees (m.left ++ rest) i₁ later i') :
      Sees ((source, goal) :: rest) i (seen ++ later) i'

/-- What has been sighted in two stretches, put together. -/
theorem Sees.append {seen later : List (Nat × Sighting)} (h : Sees pairs i seen i₁)
    (h' : Sees rest i₁ later i₂) : Sees (pairs ++ rest) i (seen ++ later) i₂ := by
  induction h with
  | nil => exact h'
  | step head _ ih =>
    have htail := ih h'
    rw [List.append_assoc] at htail ⊢
    exact .step head htail

/-- A walk goes on with a copy as it does with any other pair. -/
theorem sees_of_resumeMatch {whole : Term}
    (hwalk : ∀ {q : Term × Term} {frames : List MatchFrame} {supply : Supply},
      matchIn fuel q frames supply i = .ok ((.ok whole, supply'), i') →
        ∃ seen, Sees (q :: frames.flatMap MatchFrame.todo) i seen i') :
    ∀ {frames : List MatchFrame} {copied : Term} {supply : Supply},
      resumeMatch fuel copied frames supply i = .ok ((.ok whole, supply'), i') →
        ∃ seen, Sees (frames.flatMap MatchFrame.todo) i seen i'
  | [], _, _, h => by
    cases h
    exact ⟨[], .nil⟩
  | { functor, done, todo := next :: todo } :: outer, copied, supply, h => by
    rw [resumeMatch_todo] at h
    exact hwalk h
  | { functor, done, todo := [] } :: outer, copied, supply, h => by
    rw [resumeMatch_close] at h
    show ∃ seen, Sees (outer.flatMap MatchFrame.todo) i seen i'
    exact sees_of_resumeMatch hwalk h

/-- **The fused walk** sights the variables of all sources that it comes by. -/
theorem sees_of_matchIn : ∀ {fuel : Nat} {q : Term × Term} {frames : List MatchFrame}
    {supply : Supply} {i : Instance} {whole : Term},
      matchIn fuel q frames supply i = .ok ((.ok whole, supply'), i') →
        ∃ seen, Sees (q :: frames.flatMap MatchFrame.todo) i seen i'
  | 0, _, _, _, _, _, h => nomatch h
  | fuel + 1, (source, goal), frames, supply, i, whole, h => by
    rw [matchIn] at h
    obtain ⟨m, supply₁, i₁, hstep, hrest⟩ := Instantiation.ok_of_bind h
    obtain ⟨seen, hdeals⟩ := deals_of_matchStep hstep
    -- what the frames have left comes after the arguments of the pair
    have htail : ∃ later, Sees (m.left ++ frames.flatMap MatchFrame.todo) i₁ later i' := by
      cases m with
      | done copied => exact sees_of_resumeMatch (fun h => sees_of_matchIn h) hrest
      | descend functor first rest => exact sees_of_matchIn hrest
    obtain ⟨later, htail⟩ := htail
    exact ⟨_, .step hdeals htail⟩

/-- **Matching that succeeds** sees all pairs. -/
theorem sees_of_matchAll : ∀ {pairs : List (Term × Term)} {supply : Supply} {i : Instance},
    Clause.matchAll fuel pairs supply i = .ok ((.ok (), supply'), i') →
      ∃ seen, Sees pairs i seen i'
  | [], _, _, h => by
    cases h
    exact ⟨[], .nil⟩
  | (source, goal) :: rest, supply, i, h => by
    obtain ⟨_, supply₁, i₁, hdiscard, hrest⟩ := Instantiation.ok_of_bind h
    obtain ⟨copied, supply₂, i₂, hfirst, hpure⟩ := Instantiation.ok_of_bind hdiscard
    cases hpure
    obtain ⟨seen, hhead⟩ := sees_of_matchIn hfirst
    obtain ⟨later, htail⟩ := sees_of_matchAll hrest
    exact ⟨_, hhead.append htail⟩

/-! ## What is sighted -/

/-- The sightings in a copy are the occurrences in its source. -/
theorem Term.map_fst_sightings (t : Term) : t.sightings.map Prod.fst = t.occurrences := by
  simp [sightings, Function.comp_def]

theorem Term.occurrencesAll_append (ts us : List Term) :
    occurrencesAll (ts ++ us) = occurrencesAll ts ++ occurrencesAll us := by
  induction ts with
  | nil => rfl
  | cons t ts ih => rw [List.cons_append, occurrencesAll, occurrencesAll, ih, List.append_assoc]

/-- The sources of the pairs. -/
abbrev sources (pairs : List (Term × Term)) : List Term := pairs.map Prod.fst

/-- What a step sights and what it leaves to be sighted are the occurrences in its source. -/
theorem Deals.occurrences {seen : List (Nat × Sighting)} (h : Deals source goal i seen m i') :
    seen.map Prod.fst ++ Term.occurrencesAll (sources m.left) = source.occurrences := by
  cases h with
  | first | known => rfl
  | bind => rw [Term.map_fst_sightings]; exact List.append_nil _
  | leaf _ hagree => cases source <;> first | rfl | cases hagree
  | @node j k f g x y _ xs ys _ _ _ hlength =>
    have hsources : sources ((x, y) :: xs.zip ys) = x :: xs :=
      congrArg (x :: ·) (List.map_fst_zip (Nat.le_of_eq hlength))
    rw [Term.occurrences_of_compound, ← hsources]
    rfl

/-- **All occurrences** in the sources are sighted, from left to right. -/
theorem Sees.occurrences {seen : List (Nat × Sighting)} (h : Sees pairs i seen i') :
    seen.map Prod.fst = Term.occurrencesAll (sources pairs) := by
  induction h with
  | nil => rfl
  | @step source goal rest seen later m _ _ _ head tail ih =>
    have hsources : sources (m.left ++ rest) = sources m.left ++ sources rest := List.map_append
    rw [List.map_append, ih, hsources, Term.occurrencesAll_append, ← List.append_assoc,
      head.occurrences]
    rfl

/-! ## What memo and store tell -/

/-- What memo and store tell of the source variables that the memo did not know. The first sighting
of a variable decides what it stands for, and the cells that have been allocated are those of the
variables that were first sighted in a copy, one for each. -/
structure Instance.Accounts (i : Instance) (seen : List (Nat × Sighting)) (i' : Instance) :
    Prop where
  le : i.store.cells.size ≤ i'.store.cells.size
  known : ∀ v t, i.memo.find? v = some t → i'.memo.find? v = some t
  unseen : ∀ v, i.memo.find? v = none → seen.lookup v = none → i'.memo.find? v = none
  aliased : ∀ v part, i.memo.find? v = none → seen.lookup v = some (.beside part) →
    i'.memo.find? v = some part
  allocated : ∀ v, i.memo.find? v = none → seen.lookup v = some .inCopy →
    ∃ w, i'.memo.find? v = some (.var w) ∧ i.store.cells.size ≤ w ∧ w < i'.store.cells.size
  inj : ∀ u v w, i.memo.find? u = none → i.memo.find? v = none → seen.lookup u = some .inCopy →
    seen.lookup v = some .inCopy → i'.memo.find? u = some (.var w) →
      i'.memo.find? v = some (.var w) → u = v
  onto : ∀ w, i.store.cells.size ≤ w → w < i'.store.cells.size →
    ∃ v, i.memo.find? v = none ∧ seen.lookup v = some .inCopy ∧ i'.memo.find? v = some (.var w)

namespace Instance.Accounts

variable {seen later : List (Nat × Sighting)}

/-- No variable is sighted that was not known, and none is allocated. -/
theorem of_store {s' : Store} (hsize : s'.cells.size = i.store.cells.size)
    (hseen : ∀ v, i.memo.find? v = none → seen.lookup v = none) :
    i.Accounts seen { i with store := s' } := by
  have hnone : ∀ {v x}, i.memo.find? v = none → seen.lookup v ≠ some x := by
    intro v x hv hsome
    rw [hseen v hv] at hsome
    cases hsome
  constructor
  case le => exact Nat.le_of_eq hsize.symm
  case known => exact fun _ _ h => h
  case unseen => exact fun _ h _ => h
  case aliased => exact fun _ _ hv h => absurd h (hnone hv)
  case allocated => exact fun _ hv h => absurd h (hnone hv)
  case inj => exact fun _ _ _ hu _ h => absurd h (hnone hu)
  case onto => exact fun w hle hlt => absurd (hsize ▸ hlt) (Nat.not_lt.mpr hle)

theorem of_store_nil {s' : Store} (hsize : s'.cells.size = i.store.cells.size) :
    i.Accounts [] { i with store := s' } := of_store hsize fun _ _ => rfl

/-- A variable is entered as the part of the goal beside it. -/
theorem of_remember {goal : Term} (hv : i.memo.find? v = none) :
    i.Accounts [(v, .beside goal)] { i with memo := i.memo.insert v goal } := by
  have hself : [(v, Sighting.beside goal)].lookup v = some (.beside goal) := by simp
  have hother : ∀ {u}, u ≠ v → [(v, Sighting.beside goal)].lookup u = none := by
    intro u hu
    simp [List.lookup_cons, beq_false_of_ne hu]
  -- nothing is sighted in a copy here
  have hcopy : ∀ {u}, [(v, Sighting.beside goal)].lookup u ≠ some .inCopy := by
    intro u hu
    by_cases huv : u = v
    · subst huv
      rw [hself] at hu
      cases hu
    · rw [hother huv] at hu
      cases hu
  constructor
  case le => exact Nat.le_refl _
  case known => exact fun u t hu => (VarTable.find?_insert_iff hv).mpr (.inr hu)
  case unseen =>
    intro u hu hlookup
    by_cases huv : u = v
    · subst huv
      rw [hself] at hlookup
      cases hlookup
    · exact (VarTable.find?_insert_of_ne hv huv).trans hu
  case aliased =>
    intro u part hu hlookup
    by_cases huv : u = v
    · subst huv
      rw [hself] at hlookup
      cases hlookup
      exact VarTable.find?_insert_self hv
    · rw [hother huv] at hlookup
      cases hlookup
  case allocated => exact fun _ _ h => absurd h hcopy
  case inj => exact fun _ _ _ _ _ h => absurd h hcopy
  case onto => exact fun w hle hlt => absurd hlt (Nat.not_lt.mpr hle)

/-- What is unknown has not been sighted. -/
theorem unsighted (h : i.Accounts seen i₁) (hv : i₁.memo.find? v = none) :
    i.memo.find? v = none ∧ seen.lookup v = none := by
  have hnone : i.memo.find? v = none := by
    cases hold : i.memo.find? v with
    | none => rfl
    | some t =>
      rw [h.known v t hold] at hv
      cases hv
  refine ⟨hnone, ?_⟩
  cases hlookup : seen.lookup v with
  | none => rfl
  | some x =>
    cases x with
    | beside part =>
      rw [h.aliased v part hnone hlookup] at hv
      cases hv
    | inCopy =>
      obtain ⟨w, hw, -⟩ := h.allocated v hnone hlookup
      rw [hw] at hv
      cases hv

/-- **Later sightings** of a variable change nothing. -/
theorem trans (h : i.Accounts seen i₁) (h' : i₁.Accounts later i₂) :
    i.Accounts (seen ++ later) i₂ := by
  -- a variable is first sighted in the first part, or unknown after it and sighted in the second
  have hcases : ∀ {v x}, i.memo.find? v = none → (seen ++ later).lookup v = some x →
      seen.lookup v = some x ∨ i₁.memo.find? v = none ∧ later.lookup v = some x := by
    intro v x hv hsome
    rw [List.lookup_append] at hsome
    cases hfirst : seen.lookup v with
    | some y => exact .inl (by rwa [hfirst, Option.some_or] at hsome)
    | none => exact .inr ⟨h.unseen v hv hfirst, by rwa [hfirst, Option.none_or] at hsome⟩
  have hfirst : ∀ {v w}, i.memo.find? v = none → seen.lookup v = some .inCopy →
      i₂.memo.find? v = some (.var w) →
        i₁.memo.find? v = some (.var w) ∧ w < i₁.store.cells.size := by
    intro v w hv hsome hw
    obtain ⟨w', hw', -, hlt⟩ := h.allocated v hv hsome
    cases (h'.known v _ hw').symm.trans hw
    exact ⟨hw', hlt⟩
  have hlater : ∀ {v w}, i₁.memo.find? v = none → later.lookup v = some .inCopy →
      i₂.memo.find? v = some (.var w) → i₁.store.cells.size ≤ w := by
    intro v w hv hsome hw
    obtain ⟨w', hw', hle, -⟩ := h'.allocated v hv hsome
    cases hw'.symm.trans hw
    exact hle
  constructor
  case le => exact Nat.le_trans h.le h'.le
  case known => exact fun v t hv => h'.known v t (h.known v t hv)
  case unseen =>
    intro v hv hnone
    rw [List.lookup_append, Option.or_eq_none_iff] at hnone
    exact h'.unseen v (h.unseen v hv hnone.1) hnone.2
  case aliased =>
    intro v part hv hsome
    rcases hcases hv hsome with hsome | ⟨hv, hsome⟩
    · exact h'.known v part (h.aliased v part hv hsome)
    · exact h'.aliased v part hv hsome
  case allocated =>
    intro v hv hsome
    rcases hcases hv hsome with hsome | ⟨hv, hsome⟩
    · obtain ⟨w, hw, hle, hlt⟩ := h.allocated v hv hsome
      exact ⟨w, h'.known v _ hw, hle, Nat.lt_of_lt_of_le hlt h'.le⟩
    · obtain ⟨w, hw, hle, hlt⟩ := h'.allocated v hv hsome
      exact ⟨w, hw, Nat.le_trans h.le hle, hlt⟩
  case inj =>
    intro u v w hu hv husome hvsome huw hvw
    rcases hcases hu husome with husome | ⟨hu', husome⟩ <;>
      rcases hcases hv hvsome with hvsome | ⟨hv', hvsome⟩
    · exact h.inj u v w hu hv husome hvsome (hfirst hu husome huw).1 (hfirst hv hvsome hvw).1
    · exact absurd (hfirst hu husome huw).2 (Nat.not_lt.mpr (hlater hv' hvsome hvw))
    · exact absurd (hfirst hv hvsome hvw).2 (Nat.not_lt.mpr (hlater hu' husome huw))
    · exact h'.inj u v w hu' hv' husome hvsome huw hvw
  case onto =>
    intro w hle hlt
    by_cases hw : w < i₁.store.cells.size
    · obtain ⟨v, hv, hsome, hvw⟩ := h.onto w hle hw
      exact ⟨v, hv, by simp [List.lookup_append, hsome], h'.known v _ hvw⟩
    · obtain ⟨v, hv, hsome, hvw⟩ := h'.onto w (Nat.le_of_not_lt hw) hlt
      obtain ⟨hnone, hunseen⟩ := h.unsighted hv
      exact ⟨v, hnone, by simp [List.lookup_append, hunseen, hsome], hvw⟩

end Instance.Accounts

/-- A variable of a term that is copied is sighted in the copy. -/
theorem Term.lookup_sightings {t : Term} {x : Sighting} :
    t.sightings.lookup v = some x ↔ x = .inCopy ∧ Within (.var v) t := by
  have hlookup : ∀ vs : List Nat, (vs.map fun v => (v, Sighting.inCopy)).lookup v = some x ↔
      x = .inCopy ∧ v ∈ vs := by
    intro vs
    induction vs with
    | nil => simp
    | cons w vs ih =>
      by_cases hvw : v = w
      · subst hvw
        simp [eq_comm]
      · rw [List.map_cons, List.lookup_cons, beq_false_of_ne hvw]
        simp [ih, hvw]
  rw [sightings, hlookup, mem_occurrences]

/-- **A copy** accounts for all variables of its source. -/
theorem Instance.Enters.accounts {t : Term} (h : i.Enters i')
    (hknown : ∀ v, (i'.memo.find? v).isSome ↔ (i.memo.find? v).isSome ∨ Term.Within (.var v) t) :
    i.Accounts t.sightings i' := by
  constructor
  case le => exact h.extended.le
  case known => exact h.known
  case unseen =>
    intro v hv hnone
    by_contra hsome
    rcases (hknown v).mp (Option.isSome_iff_ne_none.mpr hsome) with hold | hwithin
    · rw [hv] at hold
      cases hold
    · rw [Term.lookup_sightings.mpr ⟨rfl, hwithin⟩] at hnone
      cases hnone
  case aliased => exact fun v part _ hsome => nomatch (Term.lookup_sightings.mp hsome).1
  case allocated =>
    intro v hv hsome
    obtain ⟨u, hu⟩ := Option.isSome_iff_exists.mp
      ((hknown v).mpr (.inr (Term.lookup_sightings.mp hsome).2))
    obtain ⟨w, rfl, hle, hlt⟩ := h.fresh v u hv hu
    exact ⟨w, hu, hle, hlt⟩
  case inj => exact fun u v w hu hv _ _ huw hvw => h.inj u v _ hu hv huw hvw
  case onto =>
    intro w hle hlt
    obtain ⟨v, hv, hvw⟩ := h.onto w hle hlt
    have hwithin := ((hknown v).mp (by rw [hvw]; rfl)).resolve_left (by rw [hv]; exact nofun)
    exact ⟨v, hv, Term.lookup_sightings.mpr ⟨rfl, hwithin⟩, hvw⟩

/-- What a step leaves accounts for what it sights. -/
theorem Deals.accounts {seen : List (Nat × Sighting)} (h : Deals source goal i seen m i') :
    i.Accounts seen i' := by
  have hderef : ∀ {root : Term} {s₁ : Store}, deref goal i.store = .ok (root, s₁) →
      i.Accounts [] { i with store := s₁ } :=
    fun hrun => .of_store_nil (root_of_deref hrun).2.compressed.size
  cases h with
  | first hv => exact .of_remember hv
  | @known _ v _ t _ _ hv hunify =>
    refine .of_store (size_of_unify hunify) fun u hu => ?_
    have huv : u ≠ v := by
      rintro rfl
      rw [hv] at hu
      cases hu
    simp [List.lookup_cons, beq_false_of_ne huv]
  | @bind w _ _ _ _ i₁ s₁ supply _ hsource hrun hcopy =>
    obtain ⟨_, hcopy', henters, hknown⟩ := copy_run source supply { i with store := s₁ }
    cases hcopy'.symm.trans hcopy
    -- dereferencing and binding allocate nothing, so the copy alone accounts for its cells
    have hbound : ∀ t, i.Accounts source.sightings { i₁ with store := i₁.store.bound w t } := by
      intro t
      have hwrite : i₁.Accounts [] { i₁ with store := i₁.store.bound w t } :=
        .of_store_nil Store.size_bound
      have haccounts := ((hderef hrun).trans (henters.accounts hknown)).trans hwrite
      rwa [List.nil_append, List.append_nil] at haccounts
    exact hbound _
  | leaf hrun _ | node hrun _ => exact hderef hrun

/-- **What a walk leaves accounts for what it has sighted.** -/
theorem Sees.accounts {seen : List (Nat × Sighting)} (h : Sees pairs i seen i') :
    i.Accounts seen i' := by
  induction h with
  | nil => exact .of_store_nil rfl
  | step head _ ih => exact head.accounts.trans ih

end Horn
