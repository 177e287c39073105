import Horn.Proofs.Growth
import Horn.Proofs.Resolution
import Horn.Proofs.Rounds
import Horn.Proofs.StandardOrder
import Horn.Proofs.Values

/-!
# The engine on well-formed stores

On a well-formed store, and called with terms over it, no program of the engine meets a variable
without a cell or a chain without an end. The store grows write by write, and what is returned is
over the store that is left. The one thing that can go wrong is that a loop makes as many rounds as
it is allowed and is not done, as the terms of a well-formed store may be cyclic.

- `unify_grows`, `value_shortens`, `copy_grows`, `copyAndUnify_makes`, `Clause.call_grows`: what the
  programs make of a well-formed store.
-/

namespace Horn

/-! ## Searching, comparing and unifying -/

variable {s : Store} {t : Term} {v : Nat}

/-- The search for a variable shortens chains. -/
theorem searchVar_shortens : ∀ (fuel : Nat) {s : Store} {ts : List Term}, s.cells.WellFormed →
    (∀ t ∈ ts, t.Below s.cells.size) →
      Ends (fun r => s.Shortened r.2) (∃ s', VisitPasses (· ≠ .var v) fuel ts s s')
        (searchVar v fuel ts s)
  | 0, s, [], _, _ => .of_ok rfl .refl
  | _ + 1, s, [], _, _ => .of_ok rfl .refl
  | 0, s, _ :: _, _, _ => ⟨rfl, s, .start⟩
  | fuel + 1, s, t :: rest, hs, hts => by
    obtain ⟨r, s₁, hrun, -, hshort, hs₁, hbelow⟩ := hs.deref (hts t List.mem_cons_self)
    -- whatever the root is, the search goes on with what is waiting, and with the arguments
    have hgo : ∀ more : List Term, r ≠ .var v → more.Perm r.arguments →
        Ends (fun r => s.Shortened r.2)
          (∃ s', VisitPasses (· ≠ .var v) (fuel + 1) (t :: rest) s s')
          (searchVar v fuel (more ++ rest) s₁) := by
      intro more hr hmore
      have hall : ∀ u ∈ more ++ rest, u.Below s₁.cells.size := by
        intro u hu
        rcases List.mem_append.mp hu with hu | hu
        · exact hbelow.arg (hmore.mem_iff.mp hu)
        · exact hshort.grows.term_below (hts u (List.mem_cons_of_mem t hu))
      exact (searchVar_shortens fuel hs₁ hall).imp (fun r hr => hshort.trans hr)
        (Exists.imp fun s' hlater => .visit hrun hr hmore hlater)
    rw [searchVar, Run.bind_ok hrun]
    cases r with
    | var w =>
      dsimp only
      split
      · exact .of_ok rfl hshort
      · rename_i hw
        exact hgo [] (fun h => hw (by simpa using h)) .nil
    | compound i f x xs => exact hgo _ (by simp) (List.reverse_perm _)
    | _ => exact hgo [] (by simp) .nil

/-- The comparison of pairs shortens chains. -/
theorem comparePairs_shortens : ∀ (fuel : Nat) {s : Store} {pairs : List (Term × Term)},
    s.cells.WellFormed → PairsBelow s.cells.size pairs →
      Ends (fun r => s.Shortened r.2) (∃ s', ComparePasses fuel pairs s s')
        (comparePairs fuel pairs s)
  | 0, s, [], _, _ => .of_ok rfl .refl
  | _ + 1, s, [], _, _ => .of_ok rfl .refl
  | 0, s, _ :: _, _, _ => ⟨rfl, s, .start⟩
  | fuel + 1, s, (a, b) :: rest, hs, hpairs => by
    obtain ⟨ha, hb⟩ := hpairs (a, b) List.mem_cons_self
    obtain ⟨ra, hra, hra_below⟩ := hs.root ha
    obtain ⟨rb, hrb, hrb_below⟩ := hs.root hb
    obtain ⟨s₁, s₂, hderef_a, hderef_b, hshort⟩ := deref_pair hra hrb
    rw [comparePairs_step hderef_a hderef_b]
    split
    · rename_i heq
      -- the pairs of the arguments are put before those that wait
      have hmore : PairsBelow s.cells.size (argumentPairs ra rb ++ rest) :=
        pairsEvery_append.mpr ⟨(sameSymbol_of_eq heq).pairsEvery hra_below hrb_below,
          fun q hq => hpairs q (List.mem_cons_of_mem _ hq)⟩
      exact (comparePairs_shortens fuel (hshort.compressed.wellFormed hs)
        (hshort.compressed.size ▸ hmore)).imp (fun r hr => hshort.trans hr)
        (Exists.imp fun s' hlater => .round hderef_a hderef_b heq hlater)
    · exact .of_ok rfl hshort

/-- An unbound variable is bound to another end, with or without a search for it. -/
theorem bindVar_grows (fuel : Nat) (occursCheck : Bool) (hs : s.cells.WellFormed)
    (hv : s.cells.Unbound v) (ht : s.cells.IsEnd t) (hbelow : t.Below s.cells.size)
    (hne : t ≠ .var v) :
    Ends (fun r => s.Grows r.2)
      (occursCheck = true ∧ ∃ s', VisitPasses (· ≠ .var v) fuel [t] s s')
      (bindVar fuel occursCheck v t s) := by
  cases occursCheck with
  | false => exact .of_ok (bindVar_unchecked fuel hv) (.bind .refl hv ht hbelow hne)
  | true =>
    have hterm : ∀ u ∈ [t], u.Below s.cells.size := by simpa using hbelow
    -- the search only shortens chains, so the variable is unbound after it as well
    have hbind : ∀ s', s.Shortened s' → Ends (fun r => s.Grows r.2)
        (true = true ∧ ∃ s', VisitPasses (· ≠ .var v) fuel [t] s s')
        ((liftM (Store.bind v t) : Attempt Unit) s') := by
      intro s' hshort
      have hcomp := hshort.compressed
      have hv' := hcomp.unbound.mpr hv
      exact .of_ok (Attempt.lift_run (Store.bind_run t hv'.lt))
        (.bind hshort.grows hv' (fun w hw => hcomp.unbound.mpr (ht w hw)) (hcomp.size ▸ hbelow) hne)
    refine Ends.lift_bind ((searchVar_shortens fuel hs hterm).imp_right (⟨rfl, ·⟩)) ?_
    rintro (_ | _) s' hshort
    · exact hbind s' hshort
    · exact .of_ok rfl hshort.grows

/-- What a step leaves to be done is over the store that it leaves. -/
theorem unifyStep_grows (fuel : Nat) (occursCheck : Bool) {a b : Term} (hs : s.cells.WellFormed)
    (ha : a.Below s.cells.size) (hb : b.Below s.cells.size) :
    Ends (fun r => s.Grows r.2 ∧ ∀ more, r.1 = .ok more → PairsBelow r.2.cells.size more)
      (∀ rest, ∃ s', UnifyPasses occursCheck (fuel + 1) ((a, b) :: rest) s s')
      (unifyStep fuel occursCheck a b s) := by
  obtain ⟨ra, hra, hra_below⟩ := hs.root ha
  obtain ⟨rb, hrb, hrb_below⟩ := hs.root hb
  obtain ⟨s₁, s₂, hderef_a, hderef_b, hshort⟩ := deref_pair hra hrb
  have hcomp := hshort.compressed
  have hmade := Move.made_ofRoots ra rb
  rw [unifyStep_run hderef_a hderef_b]
  cases hm : Move.ofRoots ra rb with
  | pairs more =>
    refine .of_ok rfl ⟨hshort.grows, ?_⟩
    rintro _ ⟨⟩
    exact hcomp.size ▸ (hm ▸ hmade).pairsEvery hra_below hrb_below
  | fail e => exact .of_ok rfl ⟨hshort.grows, fun _ h => nomatch h⟩
  | bind v t =>
    obtain ⟨hcases, hne⟩ := (hm ▸ hmade).bind_cases
    have hend : ∀ {c rc : Term}, s.cells.Root c rc → s₂.cells.IsEnd rc :=
      fun hc => (hcomp.root.mpr hc).isEnd
    -- one root is the variable and the other one is what it is bound to
    have hbind : s₂.cells.Unbound v ∧ s₂.cells.IsEnd t ∧ t.Below s₂.cells.size := by
      rw [hcomp.size]
      rcases hcases with ⟨hv, rfl⟩ | ⟨hv, rfl⟩
      · exact ⟨hend hra v hv, hend hrb, hrb_below⟩
      · exact ⟨hend hrb v hv, hend hra, hra_below⟩
    obtain ⟨hv, ht, hbelow⟩ := hbind
    have hsearch : (occursCheck = true ∧ ∃ s', VisitPasses (· ≠ .var v) fuel [t] s₂ s') →
        ∀ rest, ∃ s', UnifyPasses occursCheck (fuel + 1) ((a, b) :: rest) s s' :=
      fun h _ => h.2.imp fun s' hvisits => .search h.1 hderef_a hderef_b hcases hvisits
    have hgrows := bindVar_grows fuel occursCheck (hcomp.wellFormed hs) hv ht hbelow hne
    refine Ends.attempt (hgrows.imp_right hsearch) ?_ ?_
    · intro _ s' hgrows
      refine .of_ok rfl ⟨hshort.grows.trans hgrows, ?_⟩
      rintro _ ⟨⟩
      exact fun q hq => nomatch hq
    · exact fun e s' hgrows => ⟨hshort.grows.trans hgrows, fun _ h => nomatch h⟩

theorem PairsBelow.mono {m n : Nat} {pairs : List (Term × Term)} (h : PairsBelow m pairs)
    (hmn : m ≤ n) : PairsBelow n pairs :=
  fun q hq => ⟨(h q hq).1.mono hmn, (h q hq).2.mono hmn⟩

/-- **Each round of the loop** grows the store, and leaves pairs over it. -/
theorem unifyPairs_grows (occursCheck : Bool) : ∀ (fuel : Nat) {s : Store}
    {pairs : List (Term × Term)}, s.cells.WellFormed → PairsBelow s.cells.size pairs →
      Ends (fun r => s.Grows r.2) (∃ s', UnifyPasses occursCheck fuel pairs s s')
        (unifyPairs occursCheck fuel pairs s)
  | 0, s, [], _, _ => .of_ok rfl .refl
  | _ + 1, s, [], _, _ => .of_ok rfl .refl
  | 0, s, _ :: _, _, _ => ⟨rfl, s, .start⟩
  | fuel + 1, s, (a, b) :: rest, hs, hpairs => by
    obtain ⟨ha, hb⟩ := hpairs (a, b) List.mem_cons_self
    have hstep := (unifyStep_grows fuel occursCheck hs ha hb).imp_right (· rest)
    rw [unifyPairs]
    refine Ends.attempt hstep.seen ?_ ?_
    · rintro more s' ⟨hrun, hgrows, hmore⟩
      have hrest : PairsBelow s.cells.size rest := fun q hq => hpairs q (List.mem_cons_of_mem _ hq)
      have hall : PairsBelow s'.cells.size (more ++ rest) :=
        pairsEvery_append.mpr ⟨hmore more rfl, hrest.mono hgrows.size_le⟩
      exact (unifyPairs_grows occursCheck fuel (hgrows.wellFormed hs) hall).imp
        (fun r hr => hgrows.trans hr) (Exists.imp fun s' hlater => .round hrun hlater)
    · exact fun e s' h => h.2.1

/-- **Unification**, with the occurs check or without. -/
theorem unify_grows (fuel : Nat) (occursCheck : Bool) {a b : Term} (hs : s.cells.WellFormed)
    (ha : a.Below s.cells.size) (hb : b.Below s.cells.size) :
    Ends (fun r => s.Grows r.2) (∃ s', UnifyPasses occursCheck fuel [(a, b)] s s')
      (unify fuel occursCheck a b s) := by
  exact unifyPairs_grows occursCheck fuel hs (pairsBelow_single ha hb)

/-! ## Values -/

/-- The terms that a walk holds on to are over `n` variables. -/
def FramesBelow (n : Nat) (frames : List Frame) : Prop :=
  ∀ f ∈ frames, f.node.term.Below n ∧ (∀ t ∈ f.done, t.Below n) ∧ ∀ t ∈ f.todo, t.Below n

section Values

variable {n : Nat} {supply : Supply}

/-- A node that is rebuilt from terms over the store is over it. -/
theorem Node.rebuilt_below {node : Node} {results : List Term} (share : Bool)
    (hnode : node.term.Below n) (hresults : ∀ t ∈ results, t.Below n) (supply : Supply) :
    (node.rebuilt share results supply).1.Below n := by
  cases results with
  | nil => exact hnode
  | cons x xs =>
    rcases node.rebuilt_cases share x xs supply with ⟨-, heq⟩ | heq
    · exact heq ▸ hnode
    · exact heq ▸ .intro trivial hresults

/-- The walk goes on with the result of a term as it would with any other term. -/
theorem resume_shortens {fuel : Nat}
    (hwalk : ∀ (t : Term) (frames : List Frame) (supply : Supply), t.Below s.cells.size →
      FramesBelow s.cells.size frames →
        Ends (fun r => s.Shortened r.2 ∧ r.1.1.Below s.cells.size)
          (∃ s', VisitPasses (fun _ => True) fuel (t :: frames.flatMap Frame.todo) s s')
          (rebuildIn true visitValue fuel t frames supply s)) :
    ∀ {frames : List Frame} {result : Term} {supply : Supply}, result.Below s.cells.size →
      FramesBelow s.cells.size frames →
        Ends (fun r => s.Shortened r.2 ∧ r.1.1.Below s.cells.size)
          (∃ s', VisitPasses (fun _ => True) fuel (frames.flatMap Frame.todo) s s')
          (resume true visitValue fuel result frames supply s)
  | [], result, supply, hresult, _ => .of_ok resume_nil ⟨.refl, hresult⟩
  | { node, done, todo := next :: todo } :: outer, result, supply, hresult, hframes => by
    obtain ⟨⟨hnode, hdone, htodo⟩, houter⟩ := List.forall_mem_cons.mp hframes
    obtain ⟨hnext, htodo⟩ := List.forall_mem_cons.mp htodo
    rw [resume_todo]
    exact hwalk _ _ _ hnext (List.forall_mem_cons.mpr
      ⟨⟨hnode, List.forall_mem_cons.mpr ⟨hresult, hdone⟩, htodo⟩, houter⟩)
  -- the frame is complete: the node is made, and is the result for the frame around it
  | { node, done, todo := [] } :: outer, result, supply, hresult, hframes => by
    obtain ⟨⟨hnode, hdone, -⟩, houter⟩ := List.forall_mem_cons.mp hframes
    have hresults : ∀ t ∈ done.reverse ++ [result], t.Below s.cells.size := by
      intro t ht
      rcases List.mem_append.mp ht with ht | ht
      · exact hdone t (List.mem_reverse.mp ht)
      · exact List.mem_singleton.mp ht ▸ hresult
    rw [resume_close]
    exact resume_shortens hwalk (Node.rebuilt_below true hnode hresults supply) houter

/-- Each round of a walk shortens a chain, and the frames hold on to terms over the store. -/
theorem rebuildIn_shortens : ∀ (fuel : Nat) {s : Store} {t : Term} {frames : List Frame}
    {supply : Supply}, s.cells.WellFormed → t.Below s.cells.size →
      FramesBelow s.cells.size frames →
        Ends (fun r => s.Shortened r.2 ∧ r.1.1.Below s.cells.size)
          (∃ s', VisitPasses (fun _ => True) fuel (t :: frames.flatMap Frame.todo) s s')
          (rebuildIn true visitValue fuel t frames supply s)
  | 0, s, _, _, _, _, _, _ => ⟨rfl, s, .start⟩
  | fuel + 1, s, t, frames, supply, hs, ht, hframes => by
    obtain ⟨r, s₁, hderef, -, hshort, hs₁, hbelow⟩ := hs.deref ht
    have hvisit := visitValue_run hderef
    have hsize := hshort.compressed.size
    have hwalk : ∀ (u : Term) (frames : List Frame) (supply : Supply), u.Below s₁.cells.size →
        FramesBelow s₁.cells.size frames →
          Ends (fun r => s₁.Shortened r.2 ∧ r.1.1.Below s₁.cells.size)
            (∃ s', VisitPasses (fun _ => True) fuel (u :: frames.flatMap Frame.todo) s₁ s')
            (rebuildIn true visitValue fuel u frames supply s₁) :=
      fun u frames supply => rebuildIn_shortens fuel hs₁
    rw [← hsize] at hframes
    -- the arguments of the root come before what the frames have left
    have hrun : Ends (fun r => s₁.Shortened r.2 ∧ r.1.1.Below s₁.cells.size)
        (∃ s', VisitPasses (fun _ => True) fuel (r.arguments ++ frames.flatMap Frame.todo) s₁ s')
        (rebuildIn true visitValue (fuel + 1) t frames supply s) := by
      cases r with
      | compound i f x xs =>
        have hargs := fun y hy => hbelow.arg (x := y) hy
        rw [rebuildIn_enter hvisit]
        refine hwalk _ _ _ (hargs x List.mem_cons_self) (List.forall_mem_cons.mpr ⟨?_, hframes⟩)
        exact ⟨hbelow, fun _ h => (nomatch h), fun y hy => hargs y (List.mem_cons_of_mem _ hy)⟩
      | _ =>
        rw [rebuildIn_leaf hvisit]
        exact resume_shortens hwalk hbelow hframes
    exact hrun.imp (fun r hr => ⟨hshort.trans hr.1, hsize ▸ hr.2⟩)
      (Exists.imp fun s' hlater => .visit hderef trivial (.refl _) hlater)

/-- **Building a value.** -/
theorem value_shortens (fuel : Nat) (hs : s.cells.WellFormed) (ht : t.Below s.cells.size)
    (supply : Supply) :
    Ends (fun r => s.Shortened r.2 ∧ r.1.1.Below s.cells.size)
      (∃ s', VisitPasses (fun _ => True) fuel [t] s s') (value fuel t supply s) :=
  rebuildIn_shortens fuel hs ht fun _ h => nomatch h

end Values

/-! ## Instances -/

/-- A well-formed store, and a memo of terms over it. -/
structure Instance.WellFormed (i : Instance) : Prop where
  cells : i.store.cells.WellFormed
  memo : ∀ v t, i.memo.find? v = some t → t.Below i.store.cells.size

/-- An empty memo. -/
theorem Instance.WellFormed.empty (hs : s.cells.WellFormed) :
    Instance.WellFormed { store := s, memo := {} } := ⟨hs, fun _ _ hv => nomatch hv⟩

/-- What making an instance can lead to. -/
structure Instance.Grows (i i' : Instance) : Prop where
  store : i.store.Grows i'.store
  wellFormed : i'.WellFormed

variable {i i' : Instance} {source goal : Term}

theorem Instance.Grows.trans {i₁ i₂ : Instance} (h : i.Grows i₁) (h' : i₁.Grows i₂) :
    i.Grows i₂ := ⟨h.store.trans h'.store, h'.wellFormed⟩

/-- The store of an instance has grown, and the memo is the same. -/
theorem Instance.WellFormed.grows (hi : i.WellFormed) {s' : Store} (h : i.store.Grows s') :
    i.Grows { i with store := s' } :=
  ⟨h, h.wellFormed hi.cells, fun v t hv => h.term_below (hi.memo v t hv)⟩

/-- **Copying** allocates variables, and makes a term over them and what the memo has. A source that
is no variable has a copy that is none. -/
theorem copy_grows (source : Term) (supply : Supply) (hi : i.WellFormed) :
    ∃ copied supply' i', copy source supply i = .ok ((copied, supply'), i') ∧ i.Grows i' ∧
      i.store.Allocates i'.store ∧ copied.Below i'.store.cells.size ∧
        (source.kind ≠ .var → copied.kind ≠ .var) := by
  obtain ⟨i', hrun, henters, hknown⟩ := copy_run source supply i
  have hgrows := henters.allocates.grows
  -- an entry is an old one or a new cell
  have hmemo : ∀ v t, i'.memo.find? v = some t → t.Below i'.store.cells.size := by
    intro v t hv
    cases hold : i.memo.find? v with
    | some u =>
      cases (henters.known v u hold).symm.trans hv
      exact hgrows.term_below (hi.memo v t hold)
    | none =>
      obtain ⟨w, rfl, -, hlt⟩ := henters.fresh v t hold hv
      exact Term.below_var.mpr hlt
  refine ⟨_, _, i', hrun, ⟨hgrows, hgrows.wellFormed hi.cells, hmemo⟩, henters.allocates, ?_,
    fun h => Term.copied_kind h ▸ h⟩
  refine Term.copied_below fun v hv => ?_
  obtain ⟨t, ht⟩ := Option.isSome_iff_exists.mp ((hknown v).mpr (.inr hv))
  exact Memo.image_of_find? ht ▸ hmemo v t ht

/-- The terms of the goal that a step leaves are over `n` variables. -/
def Matched.Below (n : Nat) : Matched → Prop
  | done copied => copied.Below n
  | descend _ first rest => ∀ q ∈ first :: rest, q.2.Below n

/-- What a step makes of an instance, and what it returns if it does not fail. -/
def Instance.Steps (i : Instance) (r : (Except UnifyError Matched × Supply) × Instance) : Prop :=
  i.Grows r.2 ∧ ∀ m, r.1.1 = .ok m → m.Below r.2.store.cells.size

theorem Instance.Grows.done {supply : Supply} {copied : Term} (h : i.Grows i')
    (hcopied : copied.Below i'.store.cells.size) : i.Steps ((.ok (.done copied), supply), i') := by
  refine ⟨h, ?_⟩
  rintro _ ⟨⟩
  exact hcopied

/-- A step may fail after it has changed the store. -/
theorem Instance.Grows.failed {supply : Supply} {e : UnifyError} (h : i.Grows i') :
    i.Steps ((.error e, supply), i') := ⟨h, fun _ hm => nomatch hm⟩

/-- A variable of the source stands for the goal, or for what it stood for before. -/
theorem matchStep_var (fuel : Nat) (v : Nat) (supply : Supply) (hi : i.WellFormed)
    (hgoal : goal.Below i.store.cells.size) :
    Ends i.Steps (∀ rest, ∃ s', MatchPasses (fuel + 1) ((.var v, goal) :: rest) i s')
      (matchStep fuel (.var v) goal supply i) := by
  cases hv : i.memo.find? v with
  | some known =>
    have hknown := hi.memo v known hv
    -- the only loop of this step is the unification
    have hunify : (∃ s', UnifyPasses false fuel [(known, goal)] i.store s') →
        ∀ rest, ∃ s', MatchPasses (fuel + 1) ((.var v, goal) :: rest) i s' :=
      fun h _ => h.imp fun s' hpasses => .unify hv hpasses
    rw [matchStep_known fuel hv]
    refine Ends.onStore_bind ((unify_grows fuel false hi.cells hknown hgoal).imp_right hunify) ?_
    rintro (e | u) s' hgrows
    · exact .of_ok rfl (hi.grows hgrows).failed
    · exact .of_ok rfl ((hi.grows hgrows).done (hgrows.term_below hknown))
  | none =>
    refine .of_ok (matchStep_new fuel hv)
      (Instance.Grows.done ⟨.refl, hi.cells, fun u t hu => ?_⟩ hgoal)
    rcases (VarTable.find?_insert_iff hv).mp hu with ⟨-, rfl⟩ | hold
    · exact hgoal
    · exact hi.memo u t hold

/-- A source that is no variable meets the root of the goal. That takes no steps to be counted. -/
theorem matchRoot_steps {root : Term} (hsource : source.kind ≠ .var) (supply : Supply)
    (hi : i.WellFormed) (hroot : i.store.cells.IsEnd root)
    (hbelow : root.Below i.store.cells.size) :
    Ends i.Steps False (matchRoot source root supply i) := by
  by_cases hkind : root.kind = .var
  · cases root with
    | var w =>
      obtain ⟨copied, supply', i', hcopy, hgrows, hallocates, hcopied, hcopied_kind⟩ :=
        copy_grows source supply hi
      -- the variable is still unbound when the copy has been made, and the copy is no variable
      have hw := hallocates.extended.unbound (hroot w rfl)
      have hnone := hcopied_kind hsource
      have hbound : i'.store.Grows (i'.store.bound w copied) :=
        .bind .refl hw (Cells.isEnd_of_kind hnone) hcopied fun h => hnone (congrArg Term.kind h)
      rw [matchRoot_var, Instantiation.build_bind hcopy,
        Instantiation.run_bind (onStore_run (Store.bind_run copied hw.lt))]
      exact .of_ok rfl ((hgrows.trans (hgrows.wellFormed.grows hbound)).done
        (hbound.term_below hcopied))
    | _ => cases hkind
  by_cases hleaf : source.kind ≠ .compound ∨ root.kind ≠ .compound
  · rw [matchRoot_leaves hsource hkind hleaf]
    split
    · rename_i hagree
      refine .of_ok rfl ((hi.grows .refl).done (.of_leaf ?_ ?_))
      · cases source <;> trivial
      · cases source <;> first | rfl | cases hagree
    · exact .of_ok rfl (hi.grows .refl).failed
  · simp only [ne_eq, not_or, Decidable.not_not] at hleaf
    cases source with
    | compound j f x xs =>
      cases root with
      | compound k g y ys =>
        rw [matchRoot]
        split
        · refine .of_ok rfl ⟨hi.grows .refl, ?_⟩
          rintro _ ⟨⟩ q (hq : q ∈ (x :: xs).zip (y :: ys))
          exact hbelow.of_mem_zip hq
        · exact .of_ok rfl (hi.grows .refl).failed
      | _ => cases hleaf.2
    | _ => cases hleaf.1

/-- **A step of the fused walk.** -/
theorem matchStep_steps (fuel : Nat) (source : Term) (supply : Supply) (hi : i.WellFormed)
    (hgoal : goal.Below i.store.cells.size) :
    Ends i.Steps (∀ rest, ∃ s', MatchPasses (fuel + 1) ((source, goal) :: rest) i s')
      (matchStep fuel source goal supply i) := by
  by_cases hsource : source.kind = .var
  · cases source with
    | var v => exact matchStep_var fuel v supply hi hgoal
    | _ => cases hsource
  obtain ⟨root, s', hrun, hroot, hshort, -, hbelow⟩ := hi.cells.deref hgoal
  have hgrows := hi.grows hshort.grows
  have hend := (hshort.compressed.root.mpr hroot).isEnd
  rw [Walks.matchStep_run hsource fuel hrun]
  exact (matchRoot_steps hsource supply hgrows.wellFormed hend hbelow).imp
    (fun r hr => ⟨hgrows.trans hr.1, hr.2⟩) False.elim

/-! ## Calling clauses -/

/-- The copies and the parts of the goal that a walk holds on to are over `n` variables. -/
def MatchFramesBelow (n : Nat) (frames : List MatchFrame) : Prop :=
  ∀ f ∈ frames, (∀ t ∈ f.done, t.Below n) ∧ ∀ q ∈ f.todo, q.2.Below n

theorem MatchFramesBelow.mono {m n : Nat} {frames : List MatchFrame}
    (h : MatchFramesBelow m frames) (hmn : m ≤ n) : MatchFramesBelow n frames :=
  fun f hf => ⟨fun t ht => ((h f hf).1 t ht).mono hmn, fun q hq => ((h f hf).2 q hq).mono hmn⟩

/-- What making a term of an instance can lead to. -/
def Instance.Makes (i : Instance) (r : (Except UnifyError Term × Supply) × Instance) : Prop :=
  i.Grows r.2 ∧ ∀ t, r.1.1 = .ok t → t.Below r.2.store.cells.size

/-- A node over terms of a store is over the store. -/
theorem Term.apply_below {n : Nat} {functor : Atom} {args : List Term} (h : ∀ t ∈ args, t.Below n)
    (supply : Supply) : (Term.apply functor args supply).1.Below n := by
  cases args with
  | nil => exact .of_leaf trivial rfl
  | cons x xs => exact .intro trivial h

/-- The walk goes on with a copy as it would with any other pair. -/
theorem resumeMatch_makes {fuel : Nat} (hi : i.WellFormed)
    (hwalk : ∀ (q : Term × Term) (frames : List MatchFrame) (supply : Supply),
      q.2.Below i.store.cells.size → MatchFramesBelow i.store.cells.size frames →
        Ends i.Makes (∃ s', MatchPasses fuel (q :: frames.flatMap MatchFrame.todo) i s')
          (matchIn fuel q frames supply i)) :
    ∀ {frames : List MatchFrame} {copied : Term} {supply : Supply},
      copied.Below i.store.cells.size → MatchFramesBelow i.store.cells.size frames →
        Ends i.Makes (∃ s', MatchPasses fuel (frames.flatMap MatchFrame.todo) i s')
          (resumeMatch fuel copied frames supply i)
  | [], copied, supply, hcopied, _ => by
    refine .of_ok rfl ⟨hi.grows .refl, ?_⟩
    rintro _ ⟨⟩
    exact hcopied
  | { functor, done, todo := next :: todo } :: outer, copied, supply, hcopied, hframes => by
    obtain ⟨⟨hdone, htodo⟩, houter⟩ := List.forall_mem_cons.mp hframes
    obtain ⟨hnext, htodo⟩ := List.forall_mem_cons.mp htodo
    rw [resumeMatch_todo]
    exact hwalk _ _ _ hnext (List.forall_mem_cons.mpr
      ⟨⟨List.forall_mem_cons.mpr ⟨hcopied, hdone⟩, htodo⟩, houter⟩)
  -- the frame is complete: the copy of the node goes to the frame around it
  | { functor, done, todo := [] } :: outer, copied, supply, hcopied, hframes => by
    obtain ⟨⟨hdone, -⟩, houter⟩ := List.forall_mem_cons.mp hframes
    have hargs : ∀ t ∈ done.reverse ++ [copied], t.Below i.store.cells.size := by
      intro t ht
      rcases List.mem_append.mp ht with ht | ht
      · exact hdone t (List.mem_reverse.mp ht)
      · exact List.mem_singleton.mp ht ▸ hcopied
    rw [resumeMatch_close]
    exact resumeMatch_makes hi hwalk (Term.apply_below hargs supply) houter

/-- **The fused walk.** -/
theorem matchIn_makes : ∀ (fuel : Nat) {i : Instance} {source goal : Term}
    {frames : List MatchFrame} {supply : Supply}, i.WellFormed → goal.Below i.store.cells.size →
      MatchFramesBelow i.store.cells.size frames →
        Ends i.Makes
          (∃ s', MatchPasses fuel ((source, goal) :: frames.flatMap MatchFrame.todo) i s')
          (matchIn fuel (source, goal) frames supply i)
  | 0, i, _, _, _, _, _, _, _ => ⟨rfl, i.store, .start⟩
  | fuel + 1, i, source, goal, frames, supply, hi, hgoal, hframes => by
    have hmakes : ∀ {i' : Instance} {r}, i.Grows i' → i'.Makes r → i.Makes r :=
      fun h hr => ⟨h.trans hr.1, hr.2⟩
    have hstep := (matchStep_steps fuel source supply hi hgoal).imp_right
      (· (frames.flatMap MatchFrame.todo))
    rw [matchIn]
    refine Ends.instantiation hstep.seen ?_ ?_
    · rintro (copied | ⟨functor, first, rest⟩) supply' i' ⟨hrun, hgrows, hleft⟩
      · -- the pair is done with
        have hframes' := hframes.mono hgrows.store.size_le
        exact (resumeMatch_makes hgrows.wellFormed
          (fun q frames supply hq hf => matchIn_makes fuel hgrows.wellFormed hq hf)
          (hleft _ rfl) hframes').imp (fun r => hmakes hgrows)
          (Exists.imp fun s' hlater => .round hrun hlater)
      · -- the pair is replaced by those of the arguments, in a frame of their own
        obtain ⟨hfirst, hrest⟩ := List.forall_mem_cons.mp (hleft _ rfl)
        exact (matchIn_makes fuel hgrows.wellFormed hfirst (List.forall_mem_cons.mpr
          ⟨⟨fun _ h => (by cases h), hrest⟩, hframes.mono hgrows.store.size_le⟩)).imp
          (fun r => hmakes hgrows) (Exists.imp fun s' hlater => .round hrun hlater)
    · exact fun e supply' i' h => ⟨h.2.1, fun _ ht => by cases ht⟩

/-- Copying a source while unifying it with a goal. -/
theorem copyAndUnify_makes (fuel : Nat) (source : Term) (supply : Supply) (hi : i.WellFormed)
    (hgoal : goal.Below i.store.cells.size) :
    Ends i.Makes (∃ s', MatchPasses fuel [(source, goal)] i s')
      (copyAndUnify fuel source goal supply i) :=
  matchIn_makes fuel hi hgoal fun _ h => nomatch h

namespace Clause

/-- Arguments are matched one after the other, and each of them makes the instance grow. -/
theorem matchAll_grows (fuel : Nat) : ∀ (supply : Supply) {i : Instance}
    {pairs : List (Term × Term)}, i.WellFormed → (∀ q ∈ pairs, q.2.Below i.store.cells.size) →
      Ends (fun r => i.Grows r.2) (∃ s', CallPasses fuel pairs i s') (matchAll fuel pairs supply i)
  | supply, i, [], hi, _ => .of_ok rfl (hi.grows .refl)
  | supply, i, (source, goal) :: rest, hi, hpairs => by
    obtain ⟨hgoal, hrest⟩ := List.forall_mem_cons.mp hpairs
    have hwithin : (∃ s', MatchPasses fuel [(source, goal)] i s') →
        ∃ s', CallPasses fuel ((source, goal) :: rest) i s' := Exists.imp fun s' => .within
    have hcopy := (copyAndUnify_makes fuel source supply hi hgoal).imp_right hwithin
    -- the copy is not used any more, but the bounds of what follows are those that it ran in
    have hfirst : Ends (fun r => i.Grows r.2 ∧ (r.1.1 = .ok () → ∃ copied,
          copyAndUnify fuel source goal supply i = .ok ((.ok copied, r.1.2), r.2)))
        (∃ s', CallPasses fuel ((source, goal) :: rest) i s')
        ((discard (copyAndUnify fuel source goal) : Instantiation Unit) supply i) :=
      Ends.instantiation (f := fun _ => pure ()) hcopy.seen
        (fun copied supply' i' h => .of_ok rfl ⟨h.2.1, fun _ => ⟨copied, h.1⟩⟩)
        fun e supply' i' h => ⟨h.2.1, nofun⟩
    refine Ends.instantiation hfirst ?_ fun e supply' i' h => h.1
    rintro _ supply' i' ⟨hgrows, hcopied⟩
    obtain ⟨copied, hrun⟩ := hcopied rfl
    exact (matchAll_grows fuel supply' hgrows.wellFormed fun q hq => (hrest q hq).mono
      hgrows.store.size_le).imp (fun r hr => hgrows.trans hr)
      (Exists.imp fun s' hlater => .next hrun hlater)

/-- **An instance of a clause** for a goal. -/
theorem instantiate_grows (fuel : Nat) (c : Clause) (supply : Supply) (hi : i.WellFormed)
    (hgoal : goal.Below i.store.cells.size) :
    Ends (fun r => i.Grows r.2 ∧ ∀ body, r.1.1 = .ok (some body) → body.Below r.2.store.cells.size)
      (∃ s', CallPasses fuel (c.head.arguments.zip goal.arguments) i s')
      (c.instantiate fuel goal supply i) := by
  have hargs : ∀ q ∈ c.head.arguments.zip goal.arguments, q.2.Below i.store.cells.size :=
    fun q hq => hgoal.of_mem_zip hq
  unfold instantiate
  refine Ends.instantiation (matchAll_grows fuel supply hi hargs) ?_ ?_
  · intro _ supply' i' hgrows
    -- the body is copied with the memo that matching the head has left
    cases c.body with
    | none => exact .of_ok rfl ⟨hgrows, fun _ h => by cases h⟩
    | some body =>
      obtain ⟨copied, supply'', i'', hcopy, hgrows', -, hcopied, -⟩ :=
        copy_grows body supply' hgrows.wellFormed
      refine .of_ok (Instantiation.build_bind (f := fun t => pure (some t)) hcopy)
        ⟨hgrows.trans hgrows', ?_⟩
      rintro _ ⟨⟩
      exact hcopied
  · exact fun e supply' i' hgrows => ⟨hgrows, fun _ h => by cases h⟩

/-- **A resolution step** with a goal of the arity of the head. -/
theorem call_grows (fuel : Nat) (c : Clause) (supply : Supply) {root : Term}
    (hs : s.cells.WellFormed) (hgoal : goal.Below s.cells.size) (hroot : s.cells.Root goal root)
    (harity : c.head.arity = root.arity) :
    Ends (fun r => s.Grows r.2 ∧ ∀ body, r.1.1 = .ok (some body) → body.Below r.2.cells.size)
      (∃ s₁ s', deref goal s = .ok (root, s₁) ∧
        CallPasses fuel (c.head.arguments.zip root.arguments) { store := s₁, memo := {} } s')
      (c.call fuel goal supply s) := by
  obtain ⟨_, s₁, hrun, hroot', hshort, hs₁, hbelow⟩ := hs.deref hgoal
  cases hroot'.unique hroot
  rw [call_run hrun, if_pos harity]
  exact (Ends.withNewMemo (instantiate_grows fuel c supply (.empty hs₁) hbelow)).imp
    (fun r ⟨memo, hgrows, hbody⟩ => ⟨hshort.grows.trans hgrows.store, hbody⟩)
    fun h => ⟨s₁, h.imp fun s' hpasses => ⟨hrun, hpasses⟩⟩

/-- The test by hashes shortens chains, and always ends. -/
theorem hashesAllow_shortens : ∀ {s : Store} {pairs : List (Int64 × Term)}, s.cells.WellFormed →
    (∀ q ∈ pairs, q.2.Below s.cells.size) →
      ∃ b s', hashesAllow pairs s = .ok (b, s') ∧ s.Shortened s'
  | s, [], _, _ => ⟨true, s, rfl, .refl⟩
  | s, (hash, arg) :: rest, hs, hpairs => by
    obtain ⟨harg, hrest⟩ := List.forall_mem_cons.mp hpairs
    obtain ⟨r, s₁, hrun, -, hshort, hs₁, -⟩ := hs.deref harg
    rw [hashesAllow, Run.bind_ok hrun]
    split
    · obtain ⟨b, s', hlater, hshort'⟩ :=
        hashesAllow_shortens hs₁ fun q hq => hshort.grows.term_below (hrest q hq)
      exact ⟨b, s', hlater, hshort.trans hshort'⟩
    · exact ⟨false, s₁, rfl, hshort⟩

/-- **The test by hashes** dereferences the arguments of the goal. -/
theorem mayUnify_shortens (c : Clause) (hs : s.cells.WellFormed)
    (hgoal : goal.Below s.cells.size) :
    ∃ b s', c.mayUnify goal s = .ok (b, s') ∧ s.Shortened s' := by
  obtain ⟨root, s₁, hrun, -, hshort, hs₁, hbelow⟩ := hs.deref hgoal
  obtain ⟨b, s', hlater, hshort'⟩ :=
    hashesAllow_shortens hs₁ fun q (hq : q ∈ c.argHashes.zip root.arguments) =>
      hbelow.of_mem_zip hq
  exact ⟨b, s', (Run.bind_ok hrun).trans hlater, hshort.trans hshort'⟩

end Clause

end Horn
