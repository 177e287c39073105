import Horn.Proofs.Handles
import Horn.Proofs.Occurrences
import Horn.Term.Build

/-!
# What an atom table gives out

An atom table only grows at its end, and lists each name that it was asked for once, in the order of
first use. The atom of a name is the same object at all times; an atom made outside the table is the
same object as no other one.

- `AtomTable.Extends`, `AtomTable.Lists`, `AtomTable.Entry`: what stays when a table grows, which
  names it lists, and which atoms are its entries.
- `AtomRequest`, `AtomSession.serve`, `AtomSession.serveAll`: what a table is asked for.
- `AtomSession.served`: what one request does; `AtomSession.serveAll_getElem?`: the requests of a
  run.
- `AtomSession.UniqueHandles`, `AtomSession.atoms_of_run`: what a run of requests comes to.
-/

namespace Horn

namespace AtomTable

variable {t t' t'' : AtomTable} {a b : Atom} {l names : List String} {name : String}

/-! ## A table that grows -/

/-- All entries stay where they are, and no atom made outside the table is forgotten. -/
structure Extends (t t' : AtomTable) : Prop where
  names : t.names.toList <+: t'.names.toList
  looseCount : t.looseCount ≤ t'.looseCount

theorem Extends.refl (t : AtomTable) : t.Extends t := ⟨List.prefix_refl _, Nat.le_refl _⟩

theorem Extends.trans (h : t.Extends t') (h' : t'.Extends t'') : t.Extends t'' :=
  ⟨h.names.trans h'.names, h.looseCount.trans h'.looseCount⟩

/-- The table lists the names of a list, each one where it comes first. -/
def Lists (t : AtomTable) (l : List String) : Prop := t.names.toList = l.eraseDups

/-- The atom is the entry of its name. -/
def Entry (t : AtomTable) (a : Atom) : Prop :=
  ∃ i, a.handle = .interned i ∧ t.names.toList[i]? = some a.name

/-- An entry of a table stays one: later names are appended. -/
theorem Entry.mono (h : t.Entry a) (hext : t.Extends t') : t'.Entry a := by
  obtain ⟨i, hi, hname⟩ := h
  obtain ⟨rest, hrest⟩ := hext.names
  obtain ⟨hlt, -⟩ := List.getElem?_eq_some_iff.mp hname
  exact ⟨i, hi, by rw [← hrest, List.getElem?_append_left hlt, hname]⟩

/-- A table without repetitions has one entry for a name. -/
theorem Entry.same_iff (ha : t.Entry a) (hb : t.Entry b) (h : t.names.toList.Nodup) :
    a.same b = true ↔ a.name = b.name := by
  obtain ⟨i, hi, hname⟩ := ha
  obtain ⟨j, hj, hname'⟩ := hb
  have hsame : a.same b = true ↔ i = j := by simp [Atom.same, hi, hj]
  obtain ⟨hlt, -⟩ := List.getElem?_eq_some_iff.mp hname
  rw [hsame, ← List.getElem?_inj hlt h, hname, hname', Option.some_inj]

/-- No atom made outside the table is an entry. -/
theorem Entry.not_same_loose {k : Nat} (ha : t.Entry a) (hb : b.handle = .loose k) :
    a.same b = false ∧ b.same a = false := by
  obtain ⟨i, hi, -⟩ := ha
  simp [Atom.same, hi, hb]

/-- A table has no name twice. -/
theorem Lists.nodup (h : t.Lists l) : t.names.toList.Nodup := by
  rw [show t.names.toList = _ from h]
  exact nodup_eraseDups l

theorem Lists.mem_iff (h : t.Lists l) : name ∈ t.names.toList ↔ name ∈ l := by
  rw [show t.names.toList = _ from h, List.mem_eraseDups]

/-- One more name is listed at the end, unless it is listed already. -/
theorem eraseDups_concat (l : List String) (name : String) : (l ++ [name]).eraseDups =
    if name ∈ l then l.eraseDups else l.eraseDups ++ [name] := by
  rw [List.eraseDups_append]
  split
  · rename_i h
    simp [List.removeAll, h]
  · rename_i h
    simp [List.removeAll, h, List.eraseDups_cons]

/-! ## Looking up and entering -/

theorem lookup?_isSome : (t.lookup? name).isSome = true ↔ name ∈ t.names.toList := by
  rw [lookup?, Option.isSome_map, Option.isSome_iff_ne_none, Ne, Array.idxOf?_eq_none_iff,
    not_not, Array.mem_toList_iff]

theorem entry_of_lookup? (h : t.lookup? name = some a) : t.Entry a ∧ a.name = name := by
  obtain ⟨i, hi, rfl⟩ := Option.map_eq_some_iff.mp h
  have hlist : t.names.toList.toArray = t.names := Array.toArray_toList
  rw [← hlist, List.idxOf?_toArray, List.idxOf?_eq_some_iff] at hi
  obtain ⟨hlt, hname, -⟩ := hi
  exact ⟨⟨i, rfl, List.getElem?_eq_some_iff.mpr ⟨hlt, hname⟩⟩, rfl⟩

/-- A table, the atoms of the names that it was asked for one after the other, and the table
afterwards. -/
structure Interned (t : AtomTable) (names : List String) (atoms : List Atom) (t' : AtomTable) :
    Prop where
  extended : t.Extends t'
  listed : ∀ l, t.Lists l → t'.Lists (l ++ names)
  named : atoms.map Atom.name = names
  entries : ∀ a ∈ atoms, t'.Entry a

theorem Interned.nil (t : AtomTable) : t.Interned [] [] t :=
  ⟨.refl t, fun l h => by rwa [List.append_nil], rfl, List.forall_mem_nil _⟩

/-- Requests that are made one after the other extend the table in that order. -/
theorem Interned.append {names names' : List String} {as bs : List Atom}
    (h : t.Interned names as t') (h' : t'.Interned names' bs t'') :
    t.Interned (names ++ names') (as ++ bs) t'' where
  extended := h.extended.trans h'.extended
  listed l hl := by
    rw [← List.append_assoc]
    exact h'.listed _ (h.listed l hl)
  named := by rw [List.map_append, h.named, h'.named]
  entries a ha := by
    rcases List.mem_append.mp ha with ha | ha
    · exact (h.entries a ha).mono h'.extended
    · exact h'.entries a ha

/-- The atom of a name is the entry that the table has, or becomes its last one. -/
theorem interned_intern (t : AtomTable) (name : String) :
    t.Interned [name] [(t.intern name).1] (t.intern name).2 := by
  cases hfound : t.lookup? name with
  | some a =>
    have hintern : t.intern name = (a, t) := by rw [intern, hfound]
    obtain ⟨hentry, hname⟩ := entry_of_lookup? hfound
    have hmem : name ∈ t.names.toList := lookup?_isSome.mp (by rw [hfound]; rfl)
    rw [hintern]
    refine ⟨.refl t, fun l hl => ?_, by rw [List.map_singleton, hname],
      List.forall_mem_singleton.mpr hentry⟩
    -- a name that is listed already does not make the list longer
    rw [Lists, eraseDups_concat, if_pos (hl.mem_iff.mp hmem)]
    exact hl
  | none =>
    have hintern : t.intern name =
        (⟨name, .interned t.names.size⟩, { t with names := t.names.push name }) := by
      rw [intern, hfound]
    have hmem : name ∉ t.names.toList := by
      rw [← lookup?_isSome, hfound]
      exact Bool.false_ne_true
    rw [hintern]
    refine ⟨⟨?_, Nat.le_refl _⟩, fun l hl => ?_, rfl, List.forall_mem_singleton.mpr ?_⟩
    · rw [Array.toList_push]
      exact List.prefix_append _ _
    · rw [Lists, eraseDups_concat, if_neg (mt hl.mem_iff.mpr hmem), Array.toList_push,
        show t.names.toList = _ from hl]
    · exact ⟨t.names.size, rfl, by simp⟩

end AtomTable

/-! ## Building terms -/

namespace Ingredient

/-- The name of an argument that is given as one. -/
def name? : Ingredient → Option String
  | term _ => none
  | named name => some name

/-- The atom that an argument given as a name becomes. -/
def atom? : Ingredient → Term → Option Atom
  | named _, .atom a => some a
  | _, _ => none

/-- The atoms that the arguments given as names become. -/
def atoms (args : List Ingredient) (ts : List Term) : List Atom :=
  (args.zip ts).filterMap fun (arg, t) => arg.atom? t

/-- The atoms of a list of ingredients are interned from left to right. -/
theorem interned_toTerms (args : List Ingredient) (table : AtomTable) :
    table.Interned (args.filterMap name?) (atoms args (toTerms table args).1)
      (toTerms table args).2 := by
  induction args generalizing table with
  | nil => exact .nil table
  | cons arg args ih =>
    cases arg with
    | term t => exact ih table
    | named name => exact (table.interned_intern name).append (ih (table.intern name).2)

end Ingredient

namespace Term

/-- The atom of an atom, or the functor of a compound term. -/
def symbol? (t : Term) : Option Atom := t.signature?.map Signature.name

theorem symbol?_apply (f : Atom) (args : List Term) (s : Supply) :
    (apply f args s).1.symbol? = some f := by cases args <;> rfl

theorem arguments_apply (f : Atom) (args : List Term) (s : Supply) :
    (apply f args s).1.arguments = args := by cases args <;> rfl

/-- The functor is taken from the table first, and then the arguments that are names. -/
theorem interned_build (functor : String) (args : List Ingredient) (table : AtomTable)
    (s : Supply) :
    table.Interned (functor :: args.filterMap Ingredient.name?)
      ((build functor args table s).1.symbol?.toList ++
        Ingredient.atoms args (build functor args table s).1.arguments)
      (build functor args table s).2.1 := by
  have hfunctor := table.interned_intern functor
  have hargs := Ingredient.interned_toTerms args (table.intern functor).2
  unfold build
  rw [symbol?_apply, arguments_apply]
  exact hfunctor.append hargs

end Term

/-! ## Requests -/

/-- What an atom table can be asked for. -/
inductive AtomRequest where
  /-- The atom of a name. -/
  | atom (name : String)
  /-- A new atom outside the table. -/
  | uninterned (name : String)
  /-- The atom of a name, if the table lists it. -/
  | lookup (name : String)
  /-- A term that is built over a functor and arguments. -/
  | build (functor : String) (args : List Ingredient)

/-- The answer to a request. -/
inductive AtomReply where
  | atom (a : Atom)
  | found (a : Option Atom)
  | term (t : Term)

/-- The table, and the identities that are left for nodes. -/
structure AtomSession where
  table : AtomTable := {}
  supply : Supply := {}

namespace AtomRequest

/-- The names that a request enters into the table, in this order. -/
def names : AtomRequest → List String
  | atom name => [name]
  | build functor args => functor :: args.filterMap Ingredient.name?
  | _ => []

/-- The names of the atoms that a request gives out, if these names were entered before it. -/
def given (entered : List String) : AtomRequest → List String
  | uninterned name => [name]
  | lookup name => if name ∈ entered then [name] else []
  | q => q.names

/-- The atoms that a request makes or takes from the table. -/
def atoms : AtomRequest → AtomReply → List Atom
  | build _ args, .term t => t.symbol?.toList ++ Ingredient.atoms args t.arguments
  | _, .atom a => [a]
  | _, .found a => a.toList
  | _, _ => []

/-- The request makes an atom outside the table. -/
def isUninterned : AtomRequest → Bool
  | uninterned _ => true
  | _ => false

end AtomRequest

namespace AtomSession

/-- Answers a request. -/
def serve (s : AtomSession) : AtomRequest → AtomReply × AtomSession
  | .atom name => let (a, table) := s.table.intern name; (.atom a, { s with table })
  | .uninterned name => let (a, table) := s.table.uninterned name; (.atom a, { s with table })
  | .lookup name => (.found (s.table.lookup? name), s)
  | .build functor args =>
    let (t, table, supply) := Term.build functor args s.table s.supply
    (.term t, { table, supply })

/-- Answers requests one after the other. -/
def serveAll (s : AtomSession) : List AtomRequest → List (AtomRequest × AtomReply) × AtomSession
  | [] => ([], s)
  | q :: qs =>
    let (r, s) := s.serve q
    let (log, s) := serveAll s qs
    ((q, r) :: log, s)

variable {s s' : AtomSession} {q : AtomRequest} {r : AtomReply} {qs : List AtomRequest}
  {a b : Atom} {i j : Nat} {l : List String}

/-- What a request does, in terms of the atoms that it gives out. -/
structure Served (s : AtomSession) (q : AtomRequest) (r : AtomReply) (s' : AtomSession) : Prop where
  extended : s.table.Extends s'.table
  listed : ∀ l, s.table.Lists l → s'.table.Lists (l ++ q.names)
  named : ∀ l, s.table.Lists l → (q.atoms r).map Atom.name = q.given l
  entries : q.isUninterned = false → ∀ a ∈ q.atoms r, s'.table.Entry a
  loose : q.isUninterned = true → s'.table.looseCount = s.table.looseCount + 1 ∧
    ∀ a ∈ q.atoms r, a.handle = .loose s.table.looseCount

/-- **What one request does.** -/
theorem served (s : AtomSession) (q : AtomRequest) : s.Served q (s.serve q).1 (s.serve q).2 := by
  cases q with
  | atom name =>
    have h := s.table.interned_intern name
    exact ⟨h.extended, h.listed, fun _ _ => h.named, fun _ => h.entries, nofun⟩
  | uninterned name =>
    refine ⟨⟨List.prefix_refl _, Nat.le_succ _⟩, fun l hl => ?_, fun _ _ => rfl, nofun,
      fun _ => ⟨rfl, List.forall_mem_singleton.mpr rfl⟩⟩
    show (s.table.uninterned name).2.Lists (l ++ [])
    rw [List.append_nil]
    exact hl
  | lookup name =>
    refine ⟨.refl _, fun l hl => ?_, fun l hl => ?_, fun _ a ha => ?_, nofun⟩
    · show s.table.Lists (l ++ [])
      rwa [List.append_nil]
    · -- a lookup finds exactly the names that have been listed
      have hmem : (s.table.lookup? name).isSome = true ↔ name ∈ l :=
        AtomTable.lookup?_isSome.trans hl.mem_iff
      show (s.table.lookup? name).toList.map Atom.name = if name ∈ l then [name] else []
      rw [← if_congr hmem rfl rfl]
      cases hfound : s.table.lookup? name with
      | none => rfl
      | some a => exact congrArg (fun n => [n]) (AtomTable.entry_of_lookup? hfound).2
    · exact (AtomTable.entry_of_lookup? (Option.mem_toList.mp ha)).1
  | build functor args =>
    have h := Term.interned_build functor args s.table s.supply
    exact ⟨h.extended, h.listed, fun _ _ => h.named, fun _ => h.entries, nofun⟩

/-! ## Runs -/

/-- Later requests are served by the session that the earlier ones have left. -/
theorem serveAll_append (s : AtomSession) (qs rs : List AtomRequest) :
    (s.serveAll (qs ++ rs)).2 = ((s.serveAll qs).2.serveAll rs).2 := by
  induction qs generalizing s with
  | nil => rfl
  | cons q qs ih => exact ih (s.serve q).2

/-- A run only extends the table. -/
theorem serveAll_extends (s : AtomSession) (qs : List AtomRequest) :
    s.table.Extends (s.serveAll qs).2.table := by
  induction qs generalizing s with
  | nil => exact .refl _
  | cons q qs ih => exact (s.served q).extended.trans (ih (s.serve q).2)

/-- A run lists the names that are asked for after those that were listed before. -/
theorem serveAll_lists (h : s.table.Lists l) (qs : List AtomRequest) :
    (s.serveAll qs).2.table.Lists (l ++ qs.flatMap AtomRequest.names) := by
  induction qs generalizing s l with
  | nil => rwa [List.flatMap_nil, List.append_nil]
  | cons q qs ih =>
    rw [List.flatMap_cons, ← List.append_assoc]
    exact ih ((s.served q).listed l h)

/-- The log of a run tells the requests, with the answers at the time. -/
theorem serveAll_getElem? (h : (s.serveAll qs).1[i]? = some (q, r)) :
    qs[i]? = some q ∧ r = ((s.serveAll (qs.take i)).2.serve q).1 := by
  induction qs generalizing s i with
  | nil => cases h
  | cons p qs ih =>
    cases i with
    | zero =>
      cases h
      exact ⟨rfl, rfl⟩
    | succ i => exact ih (s := (s.serve p).2) h

/-- More requests leave a longer table. -/
theorem serveAll_mono {ps : List AtomRequest} (h : ps <+: qs) :
    (s.serveAll ps).2.table.Extends (s.serveAll qs).2.table := by
  obtain ⟨rest, rfl⟩ := h
  rw [serveAll_append]
  exact serveAll_extends _ rest

/-- What a request does that is answered in a run. -/
theorem served_at (h : (s.serveAll qs).1[i]? = some (q, r)) :
    (s.serveAll (qs.take i)).2.Served q r (s.serveAll (qs.take (i + 1))).2 := by
  obtain ⟨hq, rfl⟩ := serveAll_getElem? h
  have htake : (s.serveAll (qs.take (i + 1))).2 = ((s.serveAll (qs.take i)).2.serve q).2 := by
    rw [List.take_add_one, hq, serveAll_append]
    rfl
  rw [htake]
  exact served _ q

/-- After an atom was made outside the table, the next one gets another serial number. -/
theorem looseCount_lt (h : (s.serveAll qs).1[i]? = some (q, r)) (hq : q.isUninterned = true)
    (hij : i < j) : (s.serveAll (qs.take i)).2.table.looseCount <
      (s.serveAll (qs.take j)).2.table.looseCount := by
  have hstep := ((served_at h).loose hq).1
  have hle := (serveAll_mono (s := s)
    (List.take_prefix_take_left (l := qs) (show i + 1 ≤ j from hij))).looseCount
  omega

/-- An entry at the time is one at the end. -/
theorem entry_of_getElem? (h : (s.serveAll qs).1[i]? = some (q, r)) (hq : q.isUninterned = false)
    (ha : a ∈ q.atoms r) : (s.serveAll qs).2.table.Entry a := by
  have hlater : qs.take (i + 1) <+: qs := List.take_prefix _ _
  exact ((served_at h).entries hq a ha).mono (serveAll_mono hlater)

/-- Whenever they are given out, atoms of the table are one object if and only if their names agree,
and an atom outside the table is no other one. -/
theorem same_iff {p q : AtomRequest} {rp rq : AtomReply} (hl : s.table.Lists l)
    (hp : (s.serveAll qs).1[i]? = some (p, rp)) (hq : (s.serveAll qs).1[j]? = some (q, rq))
    (ha : a ∈ p.atoms rp) (hb : b ∈ q.atoms rq) :
    a.same b = true ↔ if p.isUninterned || q.isUninterned then i = j else a.name = b.name := by
  -- a request answers once, so requests of two kinds stand at two places
  have hne : p.isUninterned ≠ q.isUninterned → i ≠ j := by
    rintro hdiff rfl
    cases hp.symm.trans hq
    exact hdiff rfl
  cases hpu : p.isUninterned <;> cases hqu : q.isUninterned
  · exact (entry_of_getElem? hp hpu ha).same_iff (entry_of_getElem? hq hqu hb)
      (serveAll_lists hl qs).nodup
  · have hnot := (entry_of_getElem? hp hpu ha).not_same_loose (((served_at hq).loose hqu).2 b hb)
    have hij : i ≠ j := hne (by rw [hpu, hqu]; decide)
    simp [hnot.1, hij]
  · have hnot := (entry_of_getElem? hq hqu hb).not_same_loose (((served_at hp).loose hpu).2 a ha)
    have hij : i ≠ j := hne (by rw [hpu, hqu]; decide)
    simp [hnot.2, hij]
  · have hai := ((served_at hp).loose hpu).2 a ha
    have hbj := ((served_at hq).loose hqu).2 b hb
    -- of two loose atoms the handles are the counts at their requests, and each request counts
    have hsame : a.same b = true ↔ (s.serveAll (qs.take i)).2.table.looseCount =
        (s.serveAll (qs.take j)).2.table.looseCount := by
      simp [Atom.same, hai, hbj]
    rw [hsame]
    constructor
    · intro heq
      rcases Nat.lt_trichotomy i j with hij | hij | hij
      · exact absurd heq (looseCount_lt hp hpu hij).ne
      · exact hij
      · exact absurd heq.symm (looseCount_lt hq hqu hij).ne
    · rintro rfl
      rfl

theorem map_fst_serveAll (s : AtomSession) (qs : List AtomRequest) :
    (s.serveAll qs).1.map Prod.fst = qs := by
  induction qs generalizing s with
  | nil => rfl
  | cons q qs ih => exact congrArg (q :: ·) (ih (s.serve q).2)

theorem lists_start : (AtomSession.mk {} {}).table.Lists [] := rfl

/-- What a run of requests on an empty table comes to. -/
structure UniqueHandles (requests : List AtomRequest) : Prop where
  /-- The table lists each name that was entered once, in the order of first use. -/
  names : (serveAll {} requests).2.table.names.toList =
    (requests.flatMap AtomRequest.names).eraseDups
  nodup : (serveAll {} requests).2.table.names.toList.Nodup
  /-- Entries stay as they are. -/
  grows : ∀ before, before <+: requests → (serveAll {} before).2.table.names.toList <+:
    (serveAll {} requests).2.table.names.toList
  /-- Every request is answered. -/
  answered : (serveAll {} requests).1.map Prod.fst = requests
  /-- The atoms of an answer have the names asked for. A lookup gives an atom if and only if the
  name was entered before. -/
  named : ∀ (i : Nat) (q : AtomRequest) (r : AtomReply),
    (serveAll {} requests).1[i]? = some (q, r) →
      (q.atoms r).map Atom.name = q.given ((requests.take i).flatMap AtomRequest.names)
  /-- A lookup enters nothing. -/
  lookup : ∀ (i : Nat) (name : String) (r : AtomReply),
    (serveAll {} requests).1[i]? = some (.lookup name, r) →
      (serveAll {} (requests.take (i + 1))).2 = (serveAll {} (requests.take i)).2
  /-- At any two moments, atoms of the table are one object if and only if their names agree; an
  atom made outside the table is the same object as none that another request gave out. -/
  same : ∀ (i j : Nat) (p q : AtomRequest) (rp rq : AtomReply),
    (serveAll {} requests).1[i]? = some (p, rp) → (serveAll {} requests).1[j]? = some (q, rq) →
      ∀ a ∈ p.atoms rp, ∀ b ∈ q.atoms rq,
        (a.same b = true ↔ if p.isUninterned || q.isUninterned then i = j else a.name = b.name)
  /-- Atoms of one name are equal and contribute the same to a hash. -/
  alike : ∀ a b : Atom, a.name = b.name → a.eqv b = true ∧ a.hashBytes = b.hashBytes ∧
    (Term.atom a).byName = (Term.atom b).byName
  /-- Exchanging them in terms and stores changes no comparison, no hash and no outcome of a
  unification. -/
  exchange : ∀ (t t' u u' : Term) (s s' : Store), t.byName = t'.byName → u.byName = u'.byName →
    s.byName = s'.byName →
      t.eqv u = t'.eqv u' ∧ t.unifyHash = t'.unifyHash ∧ ∀ fuel occursCheck,
        (unify fuel occursCheck t u s).map (Prod.map id Store.byName) =
          (unify fuel occursCheck t' u' s').map (Prod.map id Store.byName)

/-- **An atom table is an append-only list of unique handles**, whatever it is asked for, from an
empty table on. It lists each name that was entered once, in the order of first use, and entries
stay as they are. Every request is answered, with atoms of the names asked for: a lookup gives an
atom if and only if the name was entered before, and enters nothing. At any two moments, atoms of
the table are one object if and only if their names agree; an atom made outside the table is the
same object as none that another request gave out. Yet atoms of one name are equal and contribute
the same to a hash, and exchanging them in terms and stores changes no comparison, no hash and no
outcome of a unification. -/
theorem atoms_of_run (requests : List AtomRequest) : UniqueHandles requests := by
  have hlists : ∀ qs, (AtomSession.serveAll {} qs).2.table.Lists (qs.flatMap AtomRequest.names) :=
    serveAll_lists lists_start
  constructor
  case names => exact hlists requests
  case nodup => exact (hlists requests).nodup
  case grows => exact fun before h => (serveAll_mono h).names
  case answered => exact map_fst_serveAll _ _
  case named => exact fun i q r h => (served_at h).named _ (hlists _)
  case lookup =>
    intro i name r h
    obtain ⟨hq, -⟩ := serveAll_getElem? h
    rw [List.take_add_one, hq, serveAll_append]
    rfl
  case same => exact fun i j p q rp rq hp hq a ha b hb => same_iff lists_start hp hq ha hb
  case alike =>
    exact fun a b h =>
      ⟨beq_iff_eq.mpr h, congrArg SipHash.textBytes h, Term.byName_atom_inj.mpr h⟩
  case exchange =>
    refine fun t t' u u' s s' ht hu hs => ⟨?_, ?_, unify_exchange ht hu hs⟩
    · rw [← Term.eqv_byName, ht, hu, Term.eqv_byName]
    · rw [← Term.unifyHash_byName, ht, Term.unifyHash_byName]

/-- Let an atom be taken from the table, made outside it with the same name, and taken from the
table again as an argument. -/
theorem atoms_of_run_mixed :
    let requests : List AtomRequest :=
      [.atom "a", .uninterned "a", .build "f" [.term (.var 0), .named "a"], .lookup "b"]
    let run := AtomSession.serveAll {} requests
    let a : Atom := ⟨"a", .interned 0⟩
    let b : Atom := ⟨"a", .loose 0⟩
    run.2.table.names.toList = ["a", "f"] ∧
    run.1 = [(.atom "a", .atom a), (.uninterned "a", .atom b),
      (.build "f" [.term (.var 0), .named "a"],
        .term (.compound 0 ⟨"f", .interned 1⟩ (.var 0) [.atom a])),
      (.lookup "b", .found none)] ∧
    ¬a.same b = true ∧ a.eqv b = true ∧
    ∀ fuel s, (unify fuel true (.atom a) (.var 0) s).map (Prod.map id Store.byName) =
      (unify fuel true (.atom b) (.var 0) s).map (Prod.map id Store.byName) := by
  intro requests run a b
  have hhandles := atoms_of_run requests
  obtain ⟨heqv, -, hbyName⟩ := hhandles.alike a b rfl
  have hrun : run.1 = [(.atom "a", .atom a), (.uninterned "a", .atom b),
      (.build "f" [.term (.var 0), .named "a"],
        .term (.compound 0 ⟨"f", .interned 1⟩ (.var 0) [.atom a])),
      (.lookup "b", .found none)] := by
    subst run requests a b
    cbv
  have ha : run.1[0]? = some (.atom "a", .atom a) := by rw [hrun]; rfl
  have hb : run.1[1]? = some (.uninterned "a", .atom b) := by rw [hrun]; rfl
  have hdiff : ¬a.same b = true := by
    rw [hhandles.same 0 1 _ _ _ _ ha hb a (List.mem_singleton_self _) b
      (List.mem_singleton_self _)]
    decide
  exact ⟨hhandles.names, hrun, hdiff, heqv,
    fun fuel s => (hhandles.exchange _ _ (.var 0) (.var 0) s s hbyName rfl rfl).2.2 fuel true⟩

end AtomSession

end Horn
