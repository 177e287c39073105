import Horn.Proofs.ArgumentPositions

/-!
# Rebuilding from the leaves up

The walk that rebuilds a term is a recursion from its leaves up. What a visitor is shown on the way
depends on the visitor only: a term, and then the arguments of the node that it enters for the term,
each of them with what is below it. As long as the nodes that are entered form a finite tree, the
walk comes to its end.

- `Visits`: what a visitor is shown, the nodes that it enters forming a finite tree.
- `recording`: a visitor that keeps a list of what it is shown.
- `ShowsVisits`: the recursion has shown the visitor these terms.
- `Node.Becomes`: what becomes of a node that is entered.
- `RebuildsBottomUp`, `rebuild_bottomUp`: the walk is the recursion, and shows the visitor the same
  terms.
-/

namespace Horn

variable {σ : Type}

/-- The visitor is shown the terms of the first list, one after the other, each of them followed by
the arguments of the node that it enters for it, if it enters one. The terms of the second list are
those that it has been shown in the end. -/
inductive Visits (visit : Term → Run σ Visit) : List Term → σ → List Term → σ → Prop where
  | nil {s : σ} : Visits visit [] s [] s
  | leaf {t result : Term} {ts shown : List Term} {s s₁ s' : σ}
      (answer : visit t s = .ok (.leaf result, s₁)) (rest : Visits visit ts s₁ shown s') :
      Visits visit (t :: ts) s (t :: shown) s'
  | enter {t : Term} {node : Node} {ts inside shown : List Term} {s s₁ s₂ s' : σ}
      (answer : visit t s = .ok (.enter node, s₁))
      (arguments : Visits visit node.arguments s₁ inside s₂) (rest : Visits visit ts s₂ shown s') :
      Visits visit (t :: ts) s (t :: inside ++ shown) s'

/-- Terms that are the same objects, one by one. -/
abbrev SameTerms (ts us : List Term) : Prop := List.Forall₂ (fun t u => t.same u = true) ts us

/-- What becomes of a node that is entered when its arguments have been rebuilt: the node itself if
nodes are shared and its arguments are the same objects as before, otherwise a new node with its
functor and as many arguments. -/
inductive Node.Becomes (share : Bool) (n : Node) (results : List Term) (supply : Supply) :
    Term → Supply → Prop where
  | kept (shared : share = true) (same : SameTerms results n.arguments) :
      Becomes share n results supply n.term supply
  | made {x : Term} {xs : List Term} (changed : ¬(share = true ∧ SameTerms results n.arguments))
      (arguments : results = x :: xs) (arity : xs.length = n.args.length) :
      Becomes share n results supply (.compound supply.next n.functor x xs) ⟨supply.next + 1⟩

/-- The visitor, which also puts each term that it is shown at the end of a list. -/
def recording (visit : Term → Run σ Visit) (t : Term) : Run (σ × List Term) Visit :=
  fun (s, shown) =>
    match visit t s with
    | .ok (answer, s') => .ok (answer, (s', shown ++ [t]))
    | .error f => .error f

variable {share : Bool} {visit : Term → Run σ Visit} {fuel : Nat} {t result : Term}
  {ts results : List Term} {node : Node} {supply supply' : Supply} {s s' : σ}

/-! ## What the visitor is shown -/

/-- A program that records its terms does what the program does, and adds one term to the record. -/
theorem recording_eq_ok {answer : Visit} {before shown : List Term} :
    recording visit t (s, before) = .ok (answer, (s', shown)) ↔
      visit t s = .ok (answer, s') ∧ shown = before ++ [t] := by
  rw [recording]
  cases visit t s with
  | error f => simp
  | ok r => simp [Prod.ext_iff, and_assoc, eq_comm]

/-- While terms are rebuilt in so many steps, what is recorded is what the visitor is to be shown,
and to record it makes no difference. -/
def ShowsVisits (share : Bool) (visit : Term → Run σ Visit) (fuel : Nat) (ts : List Term) : Prop :=
  ∀ ⦃supply s before results supply' s' after⦄,
    rebuildEach share (recording visit) fuel ts supply (s, before) =
        .ok ((results, supply'), (s', after)) →
      ∃ shown, after = before ++ shown ∧ Visits visit ts s shown s' ∧
        rebuildEach share visit fuel ts supply s = .ok ((results, supply'), s')

/-- While a term is rebuilt the visitor is shown the term and what is inside the node that it
enters. -/
theorem ShowsVisits.inside (h : ∀ ts, ShowsVisits share visit fuel ts)
    {before after : List Term}
    (hrun : rebuildTerm share (recording visit) (fuel + 1) t supply (s, before) =
      .ok ((result, supply'), (s', after))) :
    ∃ inside, after = before ++ t :: inside ∧
      (∀ ts shown s'', Visits visit ts s' shown s'' →
        Visits visit (t :: ts) s (t :: inside ++ shown) s'') ∧
      rebuildTerm share visit (fuel + 1) t supply s = .ok ((result, supply'), s') := by
  rcases rebuildTerm_eq_ok.mp hrun with
    ⟨leaf, ⟨s₁, shown⟩, hrecorded, heq⟩ | ⟨node, ⟨s₁, shown⟩, results, supply₁, ⟨s₂, _⟩,
      hrecorded, heach, heq⟩
  · obtain ⟨hvisit, rfl⟩ := recording_eq_ok.mp hrecorded
    cases heq
    exact ⟨[], rfl, fun _ _ _ => .leaf hvisit, rebuildTerm_leaf hvisit⟩
  · obtain ⟨hvisit, rfl⟩ := recording_eq_ok.mp hrecorded
    obtain ⟨inside, rfl, hinside, hargs⟩ := h _ heach
    obtain ⟨hnode, hstate⟩ := Prod.mk.inj heq
    cases hstate
    have hterm := rebuildTerm_enter hvisit hargs
    rw [← hnode] at hterm
    exact ⟨inside, by simp, fun _ _ _ => .enter hvisit hinside, hterm⟩

/-- By induction on the fuel, every walk shows the terms that it visits in order. -/
theorem showsVisits (share : Bool) (visit : Term → Run σ Visit) (fuel : Nat) (ts : List Term) :
    ShowsVisits share visit fuel ts := by
  have hnil (fuel : Nat) : ShowsVisits share visit fuel [] := by
    intro supply s before results supply' s' after h
    cases h
    exact ⟨[], by simp, .nil, rfl⟩
  induction fuel generalizing ts with
  | zero =>
    cases ts with
    | nil => exact hnil 0
    | cons t ts => exact fun _ _ _ _ _ _ _ h => nomatch h
  | succ fuel ih =>
    induction ts with
    | nil => exact hnil (fuel + 1)
    | cons t ts ihrest =>
      intro supply s before _ _ _ _ h
      obtain ⟨result, supply₁, ⟨s₁, _⟩, results, supply', ⟨s', _⟩, hterm, heach, heq⟩ :=
        rebuildEach_cons_eq_ok.mp h
      cases heq
      -- the inner induction is on the list, for the terms that are rebuilt with the same fuel
      obtain ⟨inside, rfl, hvisits, hfirst⟩ := ShowsVisits.inside ih hterm
      obtain ⟨shown, rfl, hrest, hplain⟩ := ihrest heach
      exact ⟨t :: inside ++ shown, by simp, hvisits _ _ _ hrest, rebuildEach_cons hfirst hplain⟩

/-- As long as the nodes that are entered form a finite tree, the recursion returns, and the terms
that have been recorded are those that the visitor is to be shown. -/
theorem Visits.exists_rebuildEach {ts shown : List Term} (h : Visits visit ts s shown s')
    (share : Bool) (supply : Supply) (before : List Term) :
    ∃ fuel results supply', rebuildEach share (recording visit) fuel ts supply (s, before) =
      .ok ((results, supply'), (s', before ++ shown)) := by
  induction h generalizing supply before with
  | nil => exact ⟨0, [], supply, by rw [List.append_nil]; rfl⟩
  | @leaf t result ts shown s s₁ s' answer _ ih =>
    obtain ⟨n, results, supply', hrest⟩ := ih supply (before ++ [t])
    have hrecorded := recording_eq_ok.mpr ⟨answer, Eq.refl (before ++ [t])⟩
    have hrest' := rebuildEach_outlasts (Nat.le_succ n) ts supply _ _ hrest
    refine ⟨n + 1, result :: results, supply', ?_⟩
    rw [List.append_cons]
    exact rebuildEach_cons (rebuildTerm_leaf hrecorded) hrest'
  | @enter t node ts inside shown s s₁ s₂ s' answer _ _ ihargs ih =>
    obtain ⟨n, inner, supply₁, hargs⟩ := ihargs supply (before ++ [t])
    obtain ⟨m, results, supply', hrest⟩ :=
      ih (node.rebuilt share inner supply₁).2 (before ++ [t] ++ inside)
    have hrecorded := recording_eq_ok.mpr ⟨answer, Eq.refl (before ++ [t])⟩
    have hargs' := rebuildEach_outlasts (Nat.le_max_left n m) node.arguments supply _ _ hargs
    have hrest' := rebuildEach_outlasts (by omega : m ≤ max n m + 1) ts _ _ _ hrest
    -- inside and beside the node the fuel may differ, and the greater will do for both
    refine ⟨max n m + 1, (node.rebuilt share inner supply₁).1 :: results, supply', ?_⟩
    rw [List.cons_append, List.append_cons, ← List.append_assoc]
    exact rebuildEach_cons (rebuildTerm_enter hrecorded hargs') hrest'

/-- With a result for each argument, the node becomes what the walk makes of it: comparing the
results with the arguments as far as both go compares all of them. -/
theorem Node.becomes_rebuilt (share : Bool) (n : Node)
    (hlength : results.length = n.arguments.length) (supply : Supply) :
    n.Becomes share results supply (n.rebuilt share results supply).1
      (n.rebuilt share results supply).2 := by
  cases results with
  | nil => cases hlength
  | cons x xs =>
    rw [rebuilt]
    split
    · rename_i hback
      obtain ⟨hshare, hall⟩ := Bool.and_eq_true_iff.mp hback
      refine .kept hshare (List.forall₂_iff_zip.mpr ⟨hlength, fun hq => ?_⟩)
      exact List.all_eq_true.mp hall _ hq
    · rename_i hback
      refine .made (fun h => hback ?_) rfl (Nat.succ.inj hlength)
      refine Bool.and_eq_true_iff.mpr ⟨h.1, List.all_eq_true.mpr fun q hq => ?_⟩
      exact List.forall₂_zip h.2 hq

/-- What it is for the walk that rebuilds a term to be the recursion from the leaves up. -/
structure RebuildsBottomUp (share : Bool) (visit : Term → Run σ Visit) (t : Term)
    (supply : Supply) (s : σ) : Prop where
  /-- Compound terms are those that have arguments. -/
  hasArguments : ∀ u : Term, u.kind = .compound ↔ u.arguments ≠ []
  /-- The walk never reads an argument that is not there. -/
  inPlace : ∀ fuel, rebuildByPosition share visit fuel t [] = rebuild share visit fuel t
  /-- The walk returns what the recursion returns. -/
  returns : ∀ result supply' s',
    (∃ fuel, rebuild share visit fuel t supply s = .ok ((result, supply'), s')) ↔
      ∃ fuel, rebuildTerm share visit fuel t supply s = .ok ((result, supply'), s')
  /-- It does so whenever the nodes that the visitor enters form a finite tree. Then it has shown
  the visitor the same terms as the recursion in the same order. -/
  shows : ∀ shown s', Visits visit [t] s shown s' ↔ ∃ result supply',
    (∃ fuel, rebuild share visit fuel t supply s = .ok ((result, supply'), s')) ∧
    (∃ fuel, rebuild share (recording visit) fuel t supply (s, []) =
      .ok ((result, supply'), (s', shown))) ∧
    ∃ fuel, rebuildTerm share (recording visit) fuel t supply (s, []) =
      .ok ((result, supply'), (s', shown))
  /-- The node that is entered for the term becomes what is described for the results of its
  arguments. -/
  becomes : ∀ node s₁, visit t s = .ok (.enter node, s₁) → ∀ result supply' s',
    (∃ fuel, rebuild share visit fuel t supply s = .ok ((result, supply'), s')) →
      ∃ fuel results supply₁,
        rebuildEach share visit fuel node.arguments supply s₁ = .ok ((results, supply₁), s') ∧
        node.Becomes share results supply₁ result supply'

/-- **Rebuilding a term is the recursion from the leaves up.** Compound terms are those that have
arguments, and the walk never reads an argument that is not there. It returns what the recursion
returns. It does so whenever the nodes that the visitor enters form a finite tree, and then it has
shown the visitor the same terms as the recursion in the same order: a term, and then from left to
right the arguments of the node that is entered for it. That node is returned itself if and only if
nodes are shared and its arguments have come back; otherwise a new node is made in its place. -/
theorem rebuild_bottomUp (share : Bool) (visit : Term → Run σ Visit) (t : Term) (supply : Supply)
    (s : σ) : RebuildsBottomUp share visit t supply s where
  hasArguments u := by
    cases u <;> simp [Term.kind, Term.arguments]
  inPlace fuel := rebuildByPosition_eq fuel t (List.forall_mem_nil Frame.InPlace)
  returns _ _ _ := rebuild_iff
  shows shown s' := by
    constructor
    · intro h
      obtain ⟨fuel, results, supply', hrun⟩ := h.exists_rebuildEach share supply []
      obtain ⟨-, -, -, hplain⟩ := showsVisits share visit fuel [t] hrun
      obtain ⟨result, rfl, hterm⟩ := rebuildEach_single_eq_ok.mp hrun
      obtain ⟨_, heq, hterm'⟩ := rebuildEach_single_eq_ok.mp hplain
      cases heq
      exact ⟨result, supply', rebuild_iff.mpr ⟨fuel, hterm'⟩, rebuild_iff.mpr ⟨fuel, hterm⟩,
        fuel, hterm⟩
    · rintro ⟨result, supply', -, -, fuel, hterm⟩
      have hrun := rebuildEach_single_eq_ok.mpr ⟨result, rfl, hterm⟩
      obtain ⟨_, rfl, hvisits, -⟩ := showsVisits share visit fuel [t] hrun
      exact hvisits
  becomes node s₁ hvisit result supply' s' hrun := by
    obtain ⟨fuel, hterm⟩ := rebuild_iff.mp hrun
    obtain ⟨results, supply₁, heach, heq⟩ := exists_of_rebuildTerm_enter hvisit hterm
    have hbecomes := node.becomes_rebuilt share (length_of_rebuildEach heach) supply₁
    rw [← heq] at hbecomes
    exact ⟨fuel, results, supply₁, heach, hbecomes⟩

/-- Let `X0` be bound to a node `g(b)`. For the value of `f(X0, a)` that node is entered in the
place of `X0` and kept, and a new node is made for `f`. -/
theorem rebuild_bottomUp_value :
    let b : Term := .atom ⟨"b", .interned 2⟩
    let g : Term := .compound 1 ⟨"g", .interned 1⟩ b []
    let a : Term := .atom ⟨"a", .interned 3⟩
    let t : Term := .compound 0 ⟨"f", .interned 0⟩ (.var 0) [a]
    let result : Term := .compound 2 ⟨"f", .interned 0⟩ g [a]
    let s : Store := { cells := #[some g] }
    Visits visitValue [t] s [t, .var 0, b, a] s ∧
      ∃ fuel, rebuildTerm true (recording visitValue) fuel t ⟨2⟩ (s, []) =
        .ok ((result, ⟨3⟩), (s, [t, .var 0, b, a])) := by
  intro b g a t result s
  have hvalue : rebuild true visitValue 4 t ⟨2⟩ s = .ok ((result, ⟨3⟩), s) := rfl
  have hwalk : rebuild true (recording visitValue) 4 t ⟨2⟩ (s, []) =
      .ok ((result, ⟨3⟩), (s, [t, .var 0, b, a])) := rfl
  have hterm := ((rebuild_bottomUp true (recording visitValue) t ⟨2⟩ (s, [])).returns _ _ _).mp
    ⟨4, hwalk⟩
  have hvisits := ((rebuild_bottomUp true visitValue t ⟨2⟩ s).shows _ _).mpr
    ⟨result, ⟨3⟩, ⟨4, hvalue⟩, ⟨4, hwalk⟩, hterm⟩
  exact ⟨hvisits, hterm⟩

end Horn
