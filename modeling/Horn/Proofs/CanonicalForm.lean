import Horn.Proofs.Renumbering

/-!
# Clauses in canonical form

A clause is stored with its variables numbered by their places in head and body. So its variables
are dense and in the order of their first occurrences, and two clauses are stored alike if and only
if they differ in the names of their variables only. A clause that is made of the parts of a clause
is that clause.

- `Term.maxVar_eq`, `Term.mentions_iff`: what is read off a term.
- `Term.unifyHash_of_under_eq`, `Term.mentions_of_under_eq`: what does not depend on names.
- `Clause.Canonical`: what is true of the clause of a head and a body.
- `Clause.Variant`: a head and a body that are others with their variables renamed.
- `Clause.make_canonical`: making a clause gives the canonical form.
-/

namespace Horn

variable {ρ : Nat → Nat} {t u : Term} {ts us : List Term}

/-! ## What is read off a term -/

theorem max?_append (vs ws : List Nat) : (vs ++ ws).max? = max vs.max? ws.max? := by
  induction vs with
  | nil => simp
  | cons v vs ih =>
    rw [List.cons_append, List.max?_cons, List.max?_cons, ih]
    cases vs.max? <;> cases ws.max? <;> simp

/-- The greatest variable of some terms is the greatest of their occurrences. -/
theorem Term.maxVarAll_eq (h : ∀ t ∈ ts, t.maxVar = t.occurrences.max?) :
    maxVarAll ts = (occurrencesAll ts).max? := by
  induction ts with
  | nil => rfl
  | cons t ts ih =>
    rw [maxVarAll, occurrencesAll, max?_append, h t List.mem_cons_self,
      ih fun u hu => h u (List.mem_cons_of_mem _ hu)]

/-- The highest variable is the greatest of those that occur. -/
theorem Term.maxVar_eq (t : Term) : t.maxVar = t.occurrences.max? := by
  induction t using induction_arguments with
  | h t ih =>
    cases t with
    | compound i f x xs =>
      rw [occurrences_of_compound]
      exact maxVarAll_eq ih
    | _ => rfl

theorem Term.mentionsAny_eq (name : String) (ts : List Term) :
    mentionsAny name ts = ts.any (mentions name) := by
  induction ts with
  | nil => rfl
  | cons t ts ih => rw [mentionsAny, List.any_cons, ih]

/-- A node mentions a name if one of its arguments does. Its own functor does not count. -/
theorem Term.mentions_compound {name : String} {i : Nat} {f : Atom} {x : Term} {xs : List Term} :
    (compound i f x xs).mentions name = (x :: xs).any (mentions name) := by
  rw [mentions, mentionsAny_eq, List.any_cons]

/-- A name is mentioned if an atom of this name is a subterm. -/
theorem Term.mentions_iff {name : String} :
    t.mentions name = true ↔ ∃ a : Atom, a.name = name ∧ Within (.atom a) t := by
  induction t using induction_arguments with
  | h t ih =>
    cases t with
    | atom a =>
      rw [mentions, beq_iff_eq]
      constructor
      · exact fun h => ⟨a, h, .here⟩
      · rintro ⟨b, hb, hwithin⟩
        cases hwithin.eq_of_arguments_nil rfl
        exact hb
    | compound i f x xs =>
      rw [mentions_compound, List.any_eq_true]
      constructor
      · rintro ⟨y, hy, hmentions⟩
        obtain ⟨a, ha, hwithin⟩ := (ih y hy).mp hmentions
        exact ⟨a, ha, .arg hy hwithin⟩
      · rintro ⟨a, ha, hwithin⟩
        cases hwithin with
        | @arg _ y hy hwithin => exact ⟨y, hy, (ih y hy).mpr ⟨a, ha, hwithin⟩⟩
    | _ =>
      constructor
      · intro h
        cases h
      · rintro ⟨a, -, hwithin⟩
        cases hwithin.eq_of_arguments_nil rfl

theorem Term.isCallable_eq (t : Term) : t.isCallable = t.signature?.isSome := by
  cases t <;> rfl

/-! ## What does not depend on names -/

/-- The hash of a term does not depend on the names of its variables. -/
theorem Term.unifyHash_of_under_eq
    (h : u.under .exact .var = t.under .exact fun v => .var (ρ v)) :
    u.unifyHash = t.unifyHash := by
  have hlengths := congrArg List.length (arguments_of_under_eq h)
  cases u <;> cases t <;> simp only [under, Tree.leaf.injEq, reduceCtorEq] at h
  case var.var => rfl
  case atom.atom a b => rw [unifyHash, unifyHash, Leaf.atom.inj h]
  case int.int m n => rw [Leaf.int.inj h]
  case float.float x y =>
    have hxy : x = y := Leaf.float.inj h
    rw [hxy]
  case box.box b c => rw [unifyHash, unifyHash, Leaf.box.inj h]
  case compound.compound i f x xs j g y ys =>
    have hlength : xs.length = ys.length := by simpa [arguments] using hlengths
    rw [unifyHash, unifyHash, (Tree.node.inj h).2.1, hlength]

theorem Term.mentions_of_under_eq {name : String}
    (h : u.under .exact .var = t.under .exact fun v => .var (ρ v)) :
    u.mentions name = t.mentions name := by
  induction t using induction_arguments generalizing u with
  | h t ih =>
    have hargs := arguments_of_under_eq h
    cases u <;> cases t <;> simp only [under, Tree.leaf.injEq, reduceCtorEq] at h <;> try rfl
    case atom.atom a b => rw [mentions, mentions, Leaf.atom.inj h]
    case compound.compound i f x xs j g y ys =>
      have hmap : (x :: xs).map (mentions name) = (y :: ys).map (mentions name) :=
        map_eq_of_under_eq (fun z hz w => ih z hz) hargs
      have hany : ∀ ts : List Term, ts.any (mentions name) = (ts.map (mentions name)).any id := by
        simp
      rw [mentions_compound, mentions_compound, hany, hany, hmap]

/-! ## Places in two lists of terms -/

section Variants

/-- The terms of a list with their places as variables. -/
def placed (ts : List Term) : List (Tree Unit) :=
  ts.map (Term.under .exact fun v => .var (place (Term.occurrencesAll ts) v))

/-- Places that are equal tell of variables that correspond. -/
theorem mem_of_mem_map_place {vs ws : List Nat} (h : vs.map (place vs) = ws.map (place ws))
    {v : Nat} (hv : v ∈ vs) : ∃ w ∈ ws, place ws w = place vs v := by
  have hmem : place vs v ∈ ws.map (place ws) := h ▸ List.mem_map_of_mem hv
  exact List.mem_map.mp hmem

/-- Renaming the variables by a bijection does not change their places. -/
theorem placed_of_renamed (hρ : Set.InjOn ρ {v | v ∈ Term.occurrencesAll ts})
    (h : us.map (Term.under .exact .var) = ts.map (Term.under .exact fun v => .var (ρ v))) :
    placed us = placed ts := by
  have hvars := Term.occurrencesAll_of_under_eq h
  have hplaced : placed us = (us.map (Term.under .exact .var)).map
      (Tree.subst fun v => .var (place (Term.occurrencesAll us) v)) := by
    rw [List.map_map]
    refine List.map_congr_left fun u _ => ?_
    show _ = (u.under .exact .var).subst _
    rw [Term.under_subst]
    rfl
  rw [hplaced, h, List.map_map]
  refine List.map_congr_left fun t ht => ?_
  show (t.under .exact fun v => .var (ρ v)).subst _ = _
  rw [Term.under_subst]
  refine Term.under_congr fun v hv => ?_
  have hmem : v ∈ Term.occurrencesAll ts :=
    Term.mem_occurrencesAll.mpr ⟨t, ht, Term.mem_occurrences.mpr hv⟩
  rw [Tree.subst_var, hvars, place_map hρ hmem]

/-- Terms with the same places are renamed by a bijection: a variable is renamed to the one that has
its place in the other list. -/
theorem renamed_of_placed (h : placed ts = placed us) :
    ∃ ρ, Set.BijOn ρ {v | v ∈ Term.occurrencesAll ts} {w | w ∈ Term.occurrencesAll us} ∧
      us.map (Term.under .exact .var) = ts.map (Term.under .exact fun v => .var (ρ v)) := by
  let vs := Term.occurrencesAll ts
  let ws := Term.occurrencesAll us
  let named (n : Nat) : Nat := ws.eraseDups.getD n 0
  have hplaces : vs.map (place vs) = ws.map (place ws) := by
    have hoccur := congrArg Tree.occurrencesAll h
    rw [placed, placed, Term.occurrencesAll_under fun t _ => Term.occurrences_under t,
      Term.occurrencesAll_under fun t _ => Term.occurrences_under t] at hoccur
    exact hoccur
  -- a place of the second list is the place of exactly one of its variables
  have hnamed : ∀ w ∈ ws, named (place ws w) = w := by
    intro w hw
    have hget : ws.eraseDups[place ws w]? = some w := getElem?_place hw
    simp [named, List.getD, hget]
  have himage : ∀ v ∈ vs, named (place vs v) ∈ ws ∧ place ws (named (place vs v)) = place vs v := by
    intro v hv
    obtain ⟨w, hw, hplace⟩ := mem_of_mem_map_place hplaces hv
    rw [← hplace, hnamed w hw]
    exact ⟨hw, rfl⟩
  refine ⟨fun v => named (place vs v), ⟨fun v hv => (himage v hv).1, ?_, ?_⟩, ?_⟩
  · intro v hv v' hv' heq
    refine injOn_place vs hv hv' ?_
    rw [← (himage v hv).2, ← (himage v' hv').2]
    exact congrArg (place ws) heq
  · intro w hw
    obtain ⟨v, hv, hplace⟩ := mem_of_mem_map_place hplaces.symm hw
    refine ⟨v, hv, ?_⟩
    show named (place vs v) = w
    rw [hplace, hnamed w hw]
  · -- places are named again
    have hback := congrArg (List.map (Tree.subst fun n => Tree.var (named n))) h
    rw [placed, placed, List.map_map, List.map_map] at hback
    refine Eq.trans ?_ (hback.symm.trans ?_)
    · refine List.map_congr_left fun u hu => ?_
      show _ = (u.under .exact _).subst _
      rw [Term.under_subst]
      refine Term.under_congr fun w hw => ?_
      have hmem : w ∈ ws := Term.mem_occurrencesAll.mpr ⟨u, hu, Term.mem_occurrences.mpr hw⟩
      rw [Tree.subst_var, hnamed w hmem]
    · refine List.map_congr_left fun t _ => ?_
      show (t.under .exact _).subst _ = _
      rw [Term.under_subst]
      rfl

end Variants

namespace Clause

variable {c c₂ : Clause} {head head₂ : Term} {body body₂ : Option Term}
  {supply supply' supply₂ supply₂' : Supply}

/-- What is true of the clause of a head and a body. -/
structure Canonical (head : Term) (body : Option Term) (c : Clause) : Prop where
  /-- The variables are the numbers below `varCount`, in order of their first occurrences. -/
  ordered : (Term.occurrencesAll (parts c.head c.body)).eraseDups = List.range c.varCount
  /-- The variables of both parts are renamed together. -/
  renamed : ∃ ρ, Set.InjOn ρ {v | v ∈ Term.occurrencesAll (parts head body)} ∧
    c.head.under .exact .var = head.under .exact (fun v => .var (ρ v)) ∧
      c.body.map (Term.under .exact .var) = body.map (Term.under .exact fun v => .var (ρ v))
  ground : c.varCount = 0 ↔ ∀ t ∈ parts head body, ∀ v, ¬Term.Within (.var v) t
  varCount : c.varCount = ((max c.head.maxVar (c.body.bind Term.maxVar)).map (· + 1)).getD 0
  argHashes : c.argHashes = head.arguments.map Term.unifyHash
  hasCut : c.hasCut = true ↔
    ∃ b ∈ body, ∃ a : Atom, a.name = cutName ∧ Term.Within (.atom a) b
  /-- The parts of the clause make the clause, of the very same nodes. -/
  again : ∀ supply, make c.head c.body supply = .ok (.ok c, supply)

/-- One bijection between the variables renames one head and body to another. -/
def Variant (head : Term) (body : Option Term) (head₂ : Term) (body₂ : Option Term) : Prop :=
  ∃ ρ, Set.BijOn ρ {v | v ∈ Term.occurrencesAll (parts head body)}
      {v | v ∈ Term.occurrencesAll (parts head₂ body₂)} ∧
    head₂.under .exact .var = head.under .exact (fun v => .var (ρ v)) ∧
      body₂.map (Term.under .exact .var) = body.map (Term.under .exact fun v => .var (ρ v))

/-- Two clauses agree in what is made of their parts if their heads do and their bodies do. -/
theorem map_parts_eq_iff {β : Type} {f g : Term → β} :
    (parts head body).map f = (parts head₂ body₂).map g ↔
      f head = g head₂ ∧ body.map f = body₂.map g := by
  cases body <;> cases body₂ <;> simp [parts]

/-- The identities of the nodes have been given out. -/
def Dated (head : Term) (body : Option Term) (supply : Supply) : Prop :=
  ∀ t ∈ parts head body, t.Older supply.next

namespace Made

variable (h : Made head body supply c supply')
include h

/-- The parts of the clause have their places as variables. -/
theorem tree (hdated : Dated head body supply) :
    (parts c.head c.body).map (Term.under .exact .var) = placed (parts head body) :=
  h.numbered.tree hdated

/-- The clause has its occurrences where the source has them, numbered by first occurrence. -/
theorem occurrences (hdated : Dated head body supply) :
    Term.occurrencesAll (parts c.head c.body) = (Term.occurrencesAll (parts head body)).map
      (place (Term.occurrencesAll (parts head body))) :=
  Term.occurrencesAll_of_under_eq (h.tree hdated)

/-- So its variables are the numbers below `varCount`, in the order of their first occurrences. -/
theorem ordered (hdated : Dated head body supply) :
    (Term.occurrencesAll (parts c.head c.body)).eraseDups = List.range c.varCount := by
  rw [h.occurrences hdated, eraseDups_map_place, h.varCount]

/-- The variables that occur are those below their number. -/
theorem mem_occurrences (hdated : Dated head body supply) {v : Nat} :
    v ∈ Term.occurrencesAll (parts c.head c.body) ↔ v < c.varCount := by
  rw [← List.mem_eraseDups, h.ordered hdated, List.mem_range]

theorem below (hdated : Dated head body supply) :
    ∀ t ∈ parts c.head c.body, t.Below c.varCount := fun t ht =>
  Term.below_of_forall fun _ hv => (h.mem_occurrences hdated).mp
    (Term.mem_occurrencesAll.mpr ⟨t, ht, Term.mem_occurrences.mpr hv⟩)

/-- The number of variables is one more than the greatest of them. -/
theorem maxVar (hdated : Dated head body supply) :
    c.varCount = ((max c.head.maxVar (c.body.bind Term.maxVar)).map (· + 1)).getD 0 := by
  have hparts : max c.head.maxVar (c.body.bind Term.maxVar) =
      (Term.occurrencesAll (parts c.head c.body)).max? := by
    cases hbody : c.body <;>
      simp [parts, Term.occurrencesAll, max?_append, Term.maxVar_eq]
  -- the variables are exactly the numbers below the count
  have hmem : ∀ v, v ∈ Term.occurrencesAll (parts c.head c.body) ↔ v < c.varCount := fun v =>
    h.mem_occurrences hdated
  rw [hparts]
  cases hmax : (Term.occurrencesAll (parts c.head c.body)).max? with
  | none =>
    rw [List.max?_eq_none_iff] at hmax
    by_contra hne
    have hzero := (hmem 0).mpr (Nat.pos_of_ne_zero hne)
    rw [hmax] at hzero
    cases hzero
  | some n =>
    obtain ⟨hn, hle⟩ := List.max?_eq_some_iff.mp hmax
    have hlt := (hmem n).mp hn
    have hlast := hle (c.varCount - 1) ((hmem _).mpr (by omega))
    show c.varCount = n + 1
    omega

theorem ground : c.varCount = 0 ↔ ∀ t ∈ parts head body, ∀ v, ¬Term.Within (.var v) t := by
  have hnil : c.varCount = 0 ↔ ∀ v, v ∉ Term.occurrencesAll (parts head body) := by
    rw [h.varCount, List.length_eq_zero_iff, List.eq_nil_iff_forall_not_mem]
    simp only [List.mem_eraseDups]
  rw [hnil]
  constructor
  · intro hnone t ht v hv
    exact hnone v (Term.mem_occurrencesAll.mpr ⟨t, ht, Term.mem_occurrences.mpr hv⟩)
  · intro hnone v hv
    obtain ⟨t, ht, hv⟩ := Term.mem_occurrencesAll.mp hv
    exact hnone t ht v (Term.mem_occurrences.mp hv)

/-- Two clauses are stored alike if and only if their parts have the same places. -/
theorem stored_alike (h₂ : Made head₂ body₂ supply₂ c₂ supply₂')
    (hdated : Dated head body supply) (hdated₂ : Dated head₂ body₂ supply₂) :
    (c.head.under .exact .var = c₂.head.under .exact .var ∧
        c.body.map (Term.under .exact .var) = c₂.body.map (Term.under .exact .var)) ↔
      Variant head body head₂ body₂ := by
  rw [← map_parts_eq_iff, h.tree hdated, h₂.tree hdated₂]
  constructor
  · intro hplaced
    obtain ⟨ρ, hρ, hrenamed⟩ := renamed_of_placed hplaced
    exact ⟨ρ, hρ, map_parts_eq_iff.mp hrenamed⟩
  · rintro ⟨ρ, hρ, hrenamed⟩
    exact (placed_of_renamed hρ.injOn (map_parts_eq_iff.mpr hrenamed)).symm

/-- The parts of a clause are numbered already. -/
theorem again (hhead : head.isCallable = true) (hbody : ∀ b ∈ body, b.isCallable = true)
    (hdated : Dated head body supply) (supply₂ : Supply) :
    make c.head c.body supply₂ = .ok (.ok c, supply₂) := by
  have hhead' : c.head.isCallable = true := by
    rw [Term.isCallable_eq, h.signature_head, ← Term.isCallable_eq, hhead]
  have hbody' : ∀ b ∈ c.body, b.isCallable = true := by
    intro b hb
    have hmap := h.signature_body
    rw [Option.mem_def.mp hb] at hmap
    cases body with
    | none => cases hmap
    | some b' =>
      rw [Term.isCallable_eq, Option.some.inj hmap, ← Term.isCallable_eq, hbody b' rfl]
  obtain ⟨c', supply', hrun, hmade⟩ := make_made hhead' hbody' supply₂
  -- in dense parts each variable already has the number that it is given
  obtain ⟨hparts, rfl⟩ := hmade.numbered.kept fun v hv =>
    place_of_range (h.ordered hdated) hv
  obtain ⟨hhead', hbody'⟩ := (map_parts_eq_iff (f := id) (g := id)).mp
    (by simpa only [List.map_id] using hparts)
  have hsignature : c'.signature = c.signature := by
    have hsome := hmade.signature
    rw [h.signature_head, h.signature] at hsome
    exact (Option.some.inj hsome).symm
  have hcount : c'.varCount = c.varCount := by
    rw [hmade.varCount, h.ordered hdated, List.length_range]
  -- what is left are the fields, each of which is computed from the parts
  have heq : c' = c := by
    obtain ⟨head', body', count', signature', hashes', cut'⟩ := c'
    obtain ⟨head₁, body₁, count₁, signature₁, hashes₁, cut₁⟩ := c
    have hhashes := hmade.argHashes
    have hhashes₁ := h.argHashes
    have hcut := hmade.hasCut
    have hcut₁ := h.hasCut
    simp only [Option.map_id, id_eq] at *
    subst hhead' hbody' hsignature hcount
    rw [hhashes, hhashes₁, hcut, hcut₁]
  rw [hrun, heq]

/-- **Stored clauses are canonical.** -/
theorem canonical (hhead : head.isCallable = true) (hbody : ∀ b ∈ body, b.isCallable = true)
    (hdated : Dated head body supply) : Canonical head body c := by
  obtain ⟨htree, htree'⟩ := map_parts_eq_iff.mp (h.tree hdated)
  constructor
  case ordered => exact h.ordered hdated
  case renamed => exact ⟨_, injOn_place _, htree, htree'⟩
  case ground => exact h.ground
  case varCount => exact h.maxVar hdated
  case argHashes =>
    rw [h.argHashes]
    exact Term.map_eq_of_under_eq (fun _ _ _ => Term.unifyHash_of_under_eq)
      (Term.arguments_of_under_eq htree)
  case hasCut =>
    rw [h.hasCut]
    cases hc : c.body <;> cases body <;> simp only [hc, Option.map_none, Option.map_some,
      reduceCtorEq, Option.some.injEq] at htree'
    case none.none => simp
    case some.some b b' =>
      rw [Option.any_some, Term.mentions_of_under_eq htree', Term.mentions_iff]
      simp
  case again => exact h.again hhead hbody hdated

end Made

/-- **Clauses are in canonical form.** A callable head and body make a clause, whose variables are
dense and in the order of their first occurrences, and whose parts make the same clause again. Two
clauses are stored alike, node identities aside, if and only if one is the other with its variables
renamed by a bijection. -/
theorem make_canonical (hhead : head.isCallable = true) (hbody : ∀ b ∈ body, b.isCallable = true)
    (hdated : Dated head body supply) :
    ∃ c supply', make head body supply = .ok (.ok c, supply') ∧ Canonical head body c ∧
      ∀ head₂ body₂ supply₂, head₂.isCallable = true → (∀ b ∈ body₂, b.isCallable = true) →
        Dated head₂ body₂ supply₂ →
          ∃ c₂ supply₂', make head₂ body₂ supply₂ = .ok (.ok c₂, supply₂') ∧
            ((c.head.under .exact .var = c₂.head.under .exact .var ∧
                c.body.map (Term.under .exact .var) = c₂.body.map (Term.under .exact .var)) ↔
              Variant head body head₂ body₂) := by
  obtain ⟨c, supply', hrun, hmade⟩ := make_made hhead hbody supply
  refine ⟨c, supply', hrun, hmade.canonical hhead hbody hdated, ?_⟩
  intro head₂ body₂ supply₂ hhead₂ hbody₂ hdated₂
  obtain ⟨c₂, supply₂', hrun₂, hmade₂⟩ := make_made hhead₂ hbody₂ supply₂
  exact ⟨c₂, supply₂', hrun₂, hmade.stored_alike hmade₂ hdated hdated₂⟩

/-- The rule `p(X1, X0) :- q(X0, X5, !)`, whose variables are swapped by numbering, is stored like
its variant `p(X4, X8) :- q(X8, X2, !)`. -/
theorem make_canonical_swapped :
    let rule := fun u v w : Nat =>
      (Term.compound 0 ⟨"p", .interned 0⟩ (.var u) [.var v],
        Term.compound 1 ⟨"q", .interned 1⟩ (.var v) [.var w, .atom ⟨"!", .interned 2⟩])
    ∃ c c₂ supply supply₂, make (rule 1 0 5).1 (some (rule 1 0 5).2) ⟨2⟩ = .ok (.ok c, supply) ∧
      make (rule 4 8 2).1 (some (rule 4 8 2).2) ⟨2⟩ = .ok (.ok c₂, supply₂) ∧
        Canonical (rule 1 0 5).1 (some (rule 1 0 5).2) c ∧ c.varCount = 3 ∧ c.hasCut = true ∧
          c.head.under .exact .var = c₂.head.under .exact .var ∧
            c.body.map (Term.under .exact .var) = c₂.body.map (Term.under .exact .var) := by
  intro rule
  have hcallable : ∀ u v w, ∀ b ∈ some (rule u v w).2, b.isCallable = true := by
    intro u v w b hb
    cases hb
    rfl
  have hdated : ∀ u v w, Dated (rule u v w).1 (some (rule u v w).2) ⟨2⟩ := by
    intro u v w
    simp [Dated, parts, rule, Term.Dated]
  obtain ⟨c, supply, hrun, hcanonical, halike⟩ :=
    make_canonical rfl (hcallable 1 0 5) (hdated 1 0 5)
  obtain ⟨c₂, supply₂, hrun₂, hiff⟩ := halike _ _ _ rfl (hcallable 4 8 2) (hdated 4 8 2)
  let ρ : Nat → Nat := fun v => if v = 1 then 4 else if v = 0 then 8 else 2
  have hbij : Set.BijOn ρ {v | v ∈ [1, 0, 0, 5]} {w | w ∈ [4, 8, 8, 2]} := by
    have hmaps : ∀ v ∈ [1, 0, 0, 5], ρ v ∈ [4, 8, 8, 2] := by decide
    have hinj : ∀ v ∈ [1, 0, 0, 5], ∀ w ∈ [1, 0, 0, 5], ρ v = ρ w → v = w := by decide
    have hsurj : ∀ w ∈ [4, 8, 8, 2], ∃ v ∈ [1, 0, 0, 5], ρ v = w := by decide
    exact ⟨hmaps, fun v hv w hw => hinj v hv w hw, hsurj⟩
  have hvariant : Variant (rule 1 0 5).1 (some (rule 1 0 5).2) (rule 4 8 2).1
      (some (rule 4 8 2).2) := ⟨ρ, hbij, rfl, rfl⟩
  have hcount : c.varCount = 3 := by
    cases hrun
    rfl
  have hcut : c.hasCut = true := hcanonical.hasCut.mpr
    ⟨_, rfl, ⟨"!", .interned 2⟩, rfl, .arg (by simp [rule, Term.arguments]) .here⟩
  obtain ⟨hhead, hbody⟩ := hiff.mpr hvariant
  exact ⟨c, c₂, supply, supply₂, hrun, hrun₂, hcanonical, hcount, hcut, hhead, hbody⟩

end Clause

end Horn
