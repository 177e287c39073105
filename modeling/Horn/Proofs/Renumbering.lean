import Horn.Clause
import Horn.Proofs.DenseNumbering

/-!
# Numbering variables

Numbering goes through a term from left to right and gives every variable its place among those seen
so far. The outermost symbol of the term stays, and what is numbered already is kept, down to its
nodes. Head and body of a clause are numbered one after the other, like the terms of any list.

- `Numbers`: a numbering that gives the variables seen so far their places.
- `Numbered`, `NumberedAll`: what a term and the terms of a list become when they are numbered.
- `numbered_replaced`: the term in which variables are replaced by their places, by induction on it.
- `renumber_run`: numbering ends with that term, whatever has been numbered before.
- `Clause.parts`, `Clause.Made`: the terms of a clause, and the clause that is made of them.
- `Clause.make_made`: the parts of a clause are numbered when it is made.
-/

namespace Horn

variable {vs : List Nat} {t t' : Term} {ts ts' : List Term} {supply supply' supply₁ : Supply}
  {numbering : Numbering}

/-! ## Numberings by place -/

/-- The numbering after the variables of a list have been seen: each has its place. -/
def Numbers (vs : List Nat) (numbering : Numbering) : Prop :=
  numbering.entries = vs.eraseDups.zipIdx

/-- Such a numbering is what numbering leaves that begins with none. -/
theorem numbers_iff : Numbers vs numbering ↔ numbering = Numbering.after 0 ⟨[]⟩ vs := by
  have hunseen : VarTable.unseen (⟨[]⟩ : Numbering) vs = vs.eraseDups := by
    simp [VarTable.unseen, VarTable.find?]
  have hentries : (Numbering.after 0 ⟨[]⟩ vs).entries = vs.eraseDups.zipIdx := by
    simp [Numbering.after, VarTable.enrolled, VarTable.size, hunseen]
  rw [Numbers, ← hentries]
  exact ⟨congrArg VarTable.mk, congrArg VarTable.entries⟩

/-- As many variables are numbered as there are different ones. -/
theorem Numbers.size (h : Numbers vs numbering) : numbering.size = vs.eraseDups.length := by
  rw [VarTable.size, show numbering.entries = _ from h, List.length_zipIdx]

/-- The variables of a term are seen after those before it. -/
theorem Numbers.after (h : Numbers vs numbering) (ws : List Nat) :
    Numbers (vs ++ ws) (numbering.after 0 ws) := by
  rw [numbers_iff] at h ⊢
  rw [h, Numbering.after_append]

/-- A variable is given its place. -/
theorem Numbers.number (h : Numbers vs numbering) {v : Nat} (hv : v ∈ vs) :
    numbering.number v = place vs v := by
  refine Numbering.number_of_find? ?_
  show numbering.entries.lookup v = _
  rw [show numbering.entries = vs.eraseDups.zipIdx 0 from h, lookup_zipIdx,
    if_pos (List.mem_eraseDups.mpr hv), Nat.zero_add]
  rfl

/-! ## Numbering a term -/

/-- What a term becomes when it is numbered after the variables `vs`. -/
structure Numbered (vs : List Nat) (t : Term) (supply : Supply) (t' : Term) (supply' : Supply) :
    Prop where
  le : supply.next ≤ supply'.next
  signature : t'.signature? = t.signature?
  /-- Every variable stands for its place. -/
  tree : t.Older supply.next →
    t'.under .exact .var = t.under .exact fun v => .var (place (vs ++ t.occurrences) v)
  /-- No new node is taken for the old one. -/
  same : t.Older supply.next → t'.same t = true → t' = t
  /-- A term whose variables have their places as names stays. -/
  kept : (∀ v ∈ t.occurrences, place (vs ++ t.occurrences) v = v) → t' = t ∧ supply' = supply
  nanFree : t.NaNFree → t'.NaNFree

/-- What the terms of a list become when they are numbered one after the other. -/
structure NumberedAll (vs : List Nat) (ts : List Term) (supply : Supply) (ts' : List Term)
    (supply' : Supply) : Prop where
  le : supply.next ≤ supply'.next
  signatures : ts'.map Term.signature? = ts.map Term.signature?
  tree : (∀ t ∈ ts, t.Older supply.next) → ts'.map (Term.under .exact .var) =
    ts.map (Term.under .exact fun v => .var (place (vs ++ Term.occurrencesAll ts) v))
  same : (∀ t ∈ ts, t.Older supply.next) →
    ((ts'.zip ts).all fun (new, old) => new.same old) = true → ts' = ts
  kept : (∀ v ∈ Term.occurrencesAll ts, place (vs ++ Term.occurrencesAll ts) v = v) →
    ts' = ts ∧ supply' = supply
  nanFree : (∀ t ∈ ts, t.NaNFree) → ∀ t ∈ ts', t.NaNFree

namespace NumberedAll

theorem nil : NumberedAll vs [] supply [] supply where
  le := Nat.le_refl _
  signatures := rfl
  tree _ := rfl
  same _ _ := rfl
  kept _ := ⟨rfl, rfl⟩
  nanFree _ _ ht := nomatch ht

/-- The variables that follow do not change the places of those of the first term. -/
theorem cons (h : Numbered vs t supply t' supply₁)
    (hrest : NumberedAll (vs ++ t.occurrences) ts supply₁ ts' supply') :
    NumberedAll vs (t :: ts) supply (t' :: ts') supply' := by
  have hplace : ∀ v ∈ t.occurrences, place (vs ++ Term.occurrencesAll (t :: ts)) v =
      place (vs ++ t.occurrences) v := by
    intro v hv
    rw [Term.occurrencesAll, ← List.append_assoc]
    exact place_append (List.mem_append_right _ hv)
  -- for the terms that follow, the variables of the first one come before their own
  have hlater : ∀ v, place (vs ++ t.occurrences ++ Term.occurrencesAll ts) v =
      place (vs ++ Term.occurrencesAll (t :: ts)) v := by
    intro v
    rw [Term.occurrencesAll, List.append_assoc]
  constructor
  case le => exact Nat.le_trans h.le hrest.le
  case signatures => exact congrArg₂ List.cons h.signature hrest.signatures
  case tree =>
    intro hold
    obtain ⟨ht, hts⟩ := List.forall_mem_cons.mp hold
    rw [List.map_cons, List.map_cons, h.tree ht, hrest.tree fun u hu => (hts u hu).mono h.le]
    simp only [hlater]
    congr 1
    exact Term.under_congr fun v hv => by rw [hplace v (Term.mem_occurrences.mpr hv)]
  case same =>
    intro hold hsame
    obtain ⟨ht, hts⟩ := List.forall_mem_cons.mp hold
    rw [List.zip_cons_cons, List.all_cons, Bool.and_eq_true] at hsame
    rw [h.same ht hsame.1, hrest.same (fun u hu => (hts u hu).mono h.le) hsame.2]
  case kept =>
    intro hfixed
    obtain ⟨rfl, rfl⟩ := h.kept fun v hv => by
      rw [← hplace v hv]
      exact hfixed v (List.mem_append_left _ hv)
    obtain ⟨rfl, rfl⟩ := hrest.kept fun v hv => by
      rw [hlater]
      exact hfixed v (List.mem_append_right _ hv)
    exact ⟨rfl, rfl⟩
  case nanFree =>
    intro hnan
    obtain ⟨ht, hts⟩ := List.forall_mem_cons.mp hnan
    exact List.forall_mem_cons.mpr ⟨h.nanFree ht, hrest.nanFree hts⟩

theorem length (h : NumberedAll vs ts supply ts' supply') : ts'.length = ts.length := by
  simpa using congrArg List.length h.signatures

end NumberedAll

/-- The node over numbered arguments. -/
theorem Numbered.node {j : Nat} {f : Atom} {x : Term} {xs results : List Term}
    (h : NumberedAll vs (x :: xs) supply results supply₁) :
    Numbered vs (.compound j f x xs) supply
      (Node.rebuilt true ⟨j, f, x, xs⟩ results supply₁).1
      (Node.rebuilt true ⟨j, f, x, xs⟩ results supply₁).2 := by
  obtain ⟨y, ys, rfl⟩ : ∃ y ys, results = y :: ys := by
    cases results with
    | nil => cases h.length
    | cons y ys => exact ⟨y, ys, rfl⟩
  have hlength : ys.length = xs.length := Nat.succ.inj h.length
  have hargs : ∀ {n : Nat}, (Term.compound j f x xs).Older n → ∀ z ∈ x :: xs, z.Older n :=
    fun hold z hz => hold.arg hz
  have hkept : (∀ v ∈ (Term.compound j f x xs).occurrences,
      place (vs ++ (Term.compound j f x xs).occurrences) v = v) →
        y :: ys = x :: xs ∧ supply₁ = supply := by
    intro hfixed
    rw [Term.occurrences_of_compound] at hfixed
    exact h.kept hfixed
  have htree : (Term.compound j f x xs).Older supply.next → (y :: ys).map (Term.under .exact .var) =
      (x :: xs).map (Term.under .exact fun v =>
        .var (place (vs ++ (Term.compound j f x xs).occurrences) v)) := by
    intro hold
    rw [Term.occurrences_of_compound]
    exact h.tree (hargs hold)
  rcases Node.rebuilt_cases true ⟨j, f, x, xs⟩ y ys supply₁ with ⟨hsame, heq⟩ | heq
  · rw [heq]
    constructor
    case le => exact h.le
    case signature => rfl
    case tree =>
      intro hold
      have hnode := htree hold
      rw [h.same (hargs hold) hsame] at hnode
      rw [Node.term, Term.under_compound, Term.under_compound, hnode]
    case same => exact fun _ _ => rfl
    case kept => exact fun hfixed => ⟨rfl, (hkept hfixed).2⟩
    case nanFree => exact id
  · rw [heq]
    constructor
    case le => exact Nat.le_succ_of_le h.le
    case signature => simp [Term.signature?, hlength]
    case tree =>
      intro hold
      rw [Term.under_compound, Term.under_compound, htree hold]
    case same =>
      intro hold hsame
      -- the identity is a new one
      have hj : j < supply.next := hold.here
      have hle := h.le
      have hid : supply₁.next = j := beq_iff_eq.mp hsame
      omega
    case kept =>
      intro hfixed
      obtain ⟨hargs, rfl⟩ := hkept hfixed
      have hself := Node.rebuilt_self ⟨j, f, x, xs⟩ supply₁
      rw [Node.arguments, ← hargs, heq] at hself
      exact ⟨congrArg Prod.fst hself, congrArg Prod.snd hself⟩
    case nanFree => exact fun ht => .intro trivial (h.nanFree fun z hz => ht.arg hz)

/-- A leaf that is no variable stays. -/
theorem Numbered.leaf (hvar : t.kind ≠ .var) (hnode : t.kind ≠ .compound) :
    Numbered vs t supply t supply where
  le := Nat.le_refl _
  signature := rfl
  tree _ := by
    cases t with
    | var v => exact absurd rfl hvar
    | compound => exact absurd rfl hnode
    | _ => rfl
  same _ _ := rfl
  kept _ := ⟨rfl, rfl⟩
  nanFree := id

/-- A variable becomes its place. -/
theorem Numbered.var (v : Nat) :
    Numbered vs (.var v) supply (.var (place (vs ++ [v]) v)) supply where
  le := Nat.le_refl _
  signature := rfl
  tree _ := rfl
  same _ hsame := congrArg Term.var (beq_iff_eq.mp hsame)
  kept hfixed := ⟨congrArg Term.var (hfixed v List.mem_cons_self), rfl⟩
  nanFree _ := Term.every_var.mpr trivial

/-- The term with its variables replaced by their places is numbered. -/
def NumberedByPlace (t : Term) : Prop :=
  ∀ (vs : List Nat) (supply : Supply), Numbered vs t supply
    (t.replaced true (fun v => .var (place (vs ++ t.occurrences) v)) supply).1
    (t.replaced true (fun v => .var (place (vs ++ t.occurrences) v)) supply).2

/-- Terms are renumbered from left to right, each with the places that those before it have given
out. -/
theorem numberedAll_replaced (hts : ∀ t ∈ ts, NumberedByPlace t) (vs : List Nat)
    (supply : Supply) : NumberedAll vs ts supply
      (Term.replacedAll true (fun v => .var (place (vs ++ Term.occurrencesAll ts) v)) supply ts).1
      (Term.replacedAll true (fun v => .var (place (vs ++ Term.occurrencesAll ts) v))
        supply ts).2 := by
  induction ts generalizing vs supply with
  | nil => exact .nil
  | cons t ts ih =>
    obtain ⟨ht, hts⟩ := List.forall_mem_cons.mp hts
    -- the variables that follow do not change the places of those of the first term
    have hplace : ∀ v ∈ t.occurrences,
        place (vs ++ t.occurrences ++ Term.occurrencesAll ts) v = place (vs ++ t.occurrences) v :=
      fun v hv => place_append (List.mem_append_right vs hv)
    have hhead := ht vs supply
    rw [← Term.replaced_congr t fun v hv => congrArg Term.var (hplace v hv)] at hhead
    have hrest := ih hts (vs ++ t.occurrences) (t.replaced true
      (fun v => .var (place (vs ++ t.occurrences ++ Term.occurrencesAll ts) v)) supply).2
    rw [Term.occurrencesAll, ← List.append_assoc]
    exact .cons hhead hrest

/-- **Every term is numbered by place.** -/
theorem numbered_replaced (t : Term) : NumberedByPlace t := by
  induction t using Term.induction_arguments with
  | h t ih =>
    intro vs supply
    cases t with
    | var v => exact .var v
    | compound j f x xs =>
      rw [Term.replaced_compound, Term.occurrences_of_compound]
      exact .node (numberedAll_replaced ih vs supply)
    | _ =>
      rw [Term.replaced_leaf Kind.noConfusion rfl]
      exact .leaf Kind.noConfusion Kind.noConfusion

/-- **Numbering ends**, and gives every variable of the term its place. -/
theorem renumber_run (h : Numbers vs numbering) (t : Term) (supply : Supply) :
    ∃ t' supply' numbering', renumber 0 t supply numbering = .ok ((t', supply'), numbering') ∧
      Numbers (vs ++ t.occurrences) numbering' ∧ Numbered vs t supply t' supply' := by
  have hnumbers := h.after t.occurrences
  have hnumber : ∀ v ∈ t.occurrences, Term.var ((numbering.after 0 t.occurrences).number v) =
      .var (place (vs ++ t.occurrences) v) :=
    fun v hv => congrArg Term.var (hnumbers.number (List.mem_append_right vs hv))
  have hnumbered := numbered_replaced t vs supply
  rw [← Term.replaced_congr t hnumber] at hnumbered
  exact ⟨_, _, _, renumber_eq 0 t supply numbering, hnumbers, hnumbered⟩

namespace Clause

/-! ## Making a clause -/

variable {c : Clause} {head : Term} {body : Option Term}

/-- The head and the body, if there is one. -/
def parts (head : Term) (body : Option Term) : List Term := head :: body.toList

/-- What is true of the clause that is made of a head and a body. -/
structure Made (head : Term) (body : Option Term) (supply : Supply) (c : Clause)
    (supply' : Supply) : Prop where
  numbered : NumberedAll [] (parts head body) supply (parts c.head c.body) supply'
  varCount : c.varCount = (Term.occurrencesAll (parts head body)).eraseDups.length
  signature : head.signature? = some c.signature
  argHashes : c.argHashes = c.head.arguments.map Term.unifyHash
  hasCut : c.hasCut = c.body.any (Term.mentions cutName)

theorem Made.signature_head {supply : Supply} (h : Made head body supply c supply') :
    c.head.signature? = head.signature? := (List.cons.inj h.numbered.signatures).1

/-- There is a body if one is given. -/
theorem Made.signature_body {supply : Supply} (h : Made head body supply c supply') :
    c.body.map Term.signature? = body.map Term.signature? := by
  have hparts : c.body.toList.map Term.signature? = body.toList.map Term.signature? :=
    (List.cons.inj h.numbered.signatures).2
  cases hc : c.body <;> cases body <;> simp_all

theorem exists_signature {t : Term} (h : t.isCallable = true) :
    ∃ signature, t.signature? = some signature ∧ t.callable = .ok signature := by
  cases t with
  | atom a => exact ⟨_, rfl, rfl⟩
  | compound i f x xs => exact ⟨_, rfl, rfl⟩
  | _ => cases h

/-- A clause of callable parts is not refused. -/
theorem checkParts_run (hhead : head.isCallable = true) (hbody : ∀ b ∈ body, b.isCallable = true) :
    ∃ signature, head.signature? = some signature ∧ checkParts head body = .ok signature := by
  obtain ⟨signature, hsignature, hcallable⟩ := exists_signature hhead
  refine ⟨signature, hsignature, ?_⟩
  rw [checkParts, hcallable]
  cases body with
  | none => rfl
  | some b =>
    obtain ⟨_, -, hcallable'⟩ := exists_signature (hbody b rfl)
    show (discard b.callable >>= fun _ => pure signature : Except TermError Signature) = _
    rw [hcallable']
    rfl

/-- Head and body are numbered as the terms of a list are. -/
theorem numbered_run (head : Term) (body : Option Term) (supply : Supply) :
    ∃ head' body' numbering supply',
      Clause.numbered head body supply = .ok (((head', body'), numbering), supply') ∧
        Numbers (Term.occurrencesAll (parts head body)) numbering ∧
          NumberedAll [] (parts head body) supply (parts head' body') supply' := by
  have hempty : Numbers [] {} := rfl
  obtain ⟨head', supply₁, numbering₁, hhead, hnumbers₁, hnumbered₁⟩ :=
    renumber_run hempty head supply
  -- the body goes on with the numbering that the head has left
  cases body with
  | none =>
    refine ⟨head', none, numbering₁, supply₁, ?_, ?_, .cons hnumbered₁ .nil⟩
    · rw [Clause.numbered, renumberBoth, Build.bind_ok hhead]
      rfl
    · simpa [parts, Term.occurrencesAll] using hnumbers₁
  | some body =>
    obtain ⟨body', supply₂, numbering₂, hbody, hnumbers₂, hnumbered₂⟩ :=
      renumber_run hnumbers₁ body supply₁
    refine ⟨head', some body', numbering₂, supply₂, ?_, ?_,
      .cons hnumbered₁ (.cons hnumbered₂ .nil)⟩
    · rw [Clause.numbered, renumberBoth, Build.bind_ok hhead]
      dsimp only
      rw [Build.bind_ok hbody]
      rfl
    · simpa [parts, Term.occurrencesAll] using hnumbers₂

/-- **Callable parts make a clause**, in which they are numbered. -/
theorem make_made (hhead : head.isCallable = true) (hbody : ∀ b ∈ body, b.isCallable = true)
    (supply : Supply) :
    ∃ c supply', make head body supply = .ok (.ok c, supply') ∧
      Made head body supply c supply' := by
  obtain ⟨signature, hsignature, hparts⟩ := checkParts_run hhead hbody
  obtain ⟨head', body', numbering, supply', hrun, hnumbers, hnumbered⟩ :=
    numbered_run head body supply
  let c : Clause := {
    head := head'
    body := body'
    varCount := numbering.size
    signature
    argHashes := head'.arguments.map Term.unifyHash
    hasCut := body'.any (Term.mentions cutName) }
  -- numbering cannot fail, so its result is passed on as it is
  have hlift :
      (StateT.map Except.ok (Clause.numbered head body) : Run Supply (Except TermError _)) supply =
        .ok (.ok ((head', body'), numbering), supply') := by
    rw [StateT.map, hrun]
    rfl
  refine ⟨c, supply', ?_, hnumbered, hnumbers.size, hsignature, rfl, rfl⟩
  rw [make, hparts]
  exact Run.bind_ok hlift

theorem isCallable_of_callable {t : Term} {signature : Signature}
    (h : t.callable = .ok signature) : t.isCallable = true := by
  cases t with
  | atom | compound => rfl
  | _ => cases h

/-- Only callable parts pass the check. -/
theorem isCallable_of_checkParts {signature : Signature}
    (h : checkParts head body = .ok signature) :
    head.isCallable = true ∧ ∀ b ∈ body, b.isCallable = true := by
  unfold checkParts at h
  cases hhead : head.callable with
  | error e =>
    rw [hhead] at h
    cases h
  | ok s =>
    refine ⟨isCallable_of_callable hhead, ?_⟩
    rintro b ⟨⟩
    rw [hhead] at h
    cases hbody : b.callable with
    | error e =>
      have hfail : (discard b.callable >>= fun _ => pure s : Except TermError Signature) =
          .ok signature := h
      rw [hbody] at hfail
      cases hfail
    | ok s' => exact isCallable_of_callable hbody

/-- **Every clause is made in this way** of callable parts. -/
theorem made_of_make {supply supply' : Supply}
    (h : make head body supply = .ok (.ok c, supply')) : Made head body supply c supply' := by
  have hparts : head.isCallable = true ∧ ∀ b ∈ body, b.isCallable = true := by
    cases hcheck : checkParts head body with
    | error e =>
      rw [make, hcheck] at h
      cases h
    | ok signature => exact isCallable_of_checkParts hcheck
  obtain ⟨c', supply₁, hrun, hmade⟩ := make_made hparts.1 hparts.2 supply
  cases hrun.symm.trans h
  exact hmade

end Clause

end Horn
