import Horn.Proofs.Rebuilding
import Horn.Proofs.Solutions

/-!
# Bindings as a substitution

The bindings of a proper store are a substitution, once they are followed wherever they lead. The
value of a term is the term with this substitution made in it, and it shares all that can be
shared: a node is made anew only if there is a bound variable below it.

- `Cells.Fixes`: no bound variable occurs in a term.
- `Cells.Value`: the value of a term, node by node.
- `Cells.Value.fixes`, `Cells.Value.same_iff`, `Cells.Value.within`: nothing is left to be
  substituted, and where there was nothing to be substituted the value is the term itself.
- `Cells.Evaluates.of_proper`: the walk from a term to its value, by induction on the resolved term.
-/

namespace Horn

variable {cells : Cells} {k v : Nat} {b r t u : Term} {s s' : Store}

/-! ## Terms without bound variables -/

/-- There is nothing to be substituted in the term: no bound variable occurs in it. -/
def Cells.Fixes (cells : Cells) (t : Term) : Prop := ∀ v, Term.Within (.var v) t → cells.Unbound v

namespace Cells

theorem fixes_var : cells.Fixes (.var v) ↔ cells.Unbound v :=
  ⟨fun h => h v .here, fun h _ hw => Term.within_var.mp hw ▸ h⟩

/-- In a term that is no variable, the variables are those of its arguments. -/
theorem fixes_iff (h : t.kind ≠ .var) : cells.Fixes t ↔ ∀ x ∈ t.arguments, cells.Fixes x := by
  refine ⟨fun ht x hx v hv => ht v (.arg hx hv), fun hargs v hv => ?_⟩
  cases hv with
  | here => exact absurd rfl h
  | arg hx hv => exact hargs _ hx v hv

theorem fixes_leaf (h : t.kind ≠ .var) (hargs : t.arguments = []) : cells.Fixes t :=
  (fixes_iff h).mpr fun x hx => by rw [hargs] at hx; cases hx

/-- As far as all variables are allocated, they are unbound or bound. -/
theorem fixes_iff_not_bound (h : t.Below cells.size) :
    cells.Fixes t ↔ ∀ v b, cells.Bound v b → ¬Term.Within (.var v) t := by
  refine ⟨fun ht v b hb hv => hb.not_unbound (ht v hv), fun hnot v hv => ?_⟩
  exact (bound_or_unbound (h.lt hv)).resolve_left fun ⟨b, hb⟩ => hnot v b hb hv

/-- A bound variable is not left as it is. -/
theorem Bound.not_fixes (h : cells.Bound v t) : ¬cells.Fixes (.var v) :=
  fun hfixes => h.not_unbound (fixes_var.mp hfixes)

end Cells

/-! ## Values -/

/-- The value of a term. Bound variables are replaced by the values of what they are bound to. A
node without bound variables is left as the node that it is, and any other one is made anew over the
values of its arguments, with an identity from `k` on. -/
inductive Cells.Value (cells : Cells) (k : Nat) : Term → Term → Prop where
  | free {v : Nat} (h : cells.Unbound v) : Value cells k (.var v) (.var v)
  | bound {v : Nat} {t r : Term} (h : cells.Bound v t) (ht : Value cells k t r) :
      Value cells k (.var v) r
  | leaf {t : Term} (hvar : t.kind ≠ .var) (hargs : t.arguments = []) : Value cells k t t
  | kept {i : Nat} {f : Atom} {x : Term} {xs : List Term} (h : cells.Fixes (.compound i f x xs)) :
      Value cells k (.compound i f x xs) (.compound i f x xs)
  | rebuilt {i j : Nat} {f : Atom} {x y : Term} {xs ys : List Term}
      (h : ¬cells.Fixes (.compound i f x xs)) (hj : k ≤ j)
      (hlength : (x :: xs).length = (y :: ys).length)
      (hargs : ∀ {a b : Term}, (a, b) ∈ (x :: xs).zip (y :: ys) → Value cells k a b) :
      Value cells k (.compound i f x xs) (.compound j f y ys)

/-- The term occurs in the other one once bindings are followed: in itself, or in what a variable
that occurs in it is bound to. -/
inductive Cells.Shows (cells : Cells) (u : Term) : Term → Prop where
  | within {t : Term} (h : Term.Within u t) : Shows cells u t
  | bound {v : Nat} {t b : Term} (hv : Term.Within (.var v) t) (hbound : cells.Bound v b)
      (h : Shows cells u b) : Shows cells u t

/-- What shows in a term has the properties that the term has and all that is bound. -/
theorem Cells.Shows.every {p : Term → Prop} (h : cells.Shows u t) (hcells : cells.Every p)
    (ht : t.Every p) : u.Every p := by
  induction h with
  | within hu => exact fun w hw => ht w (hw.trans hu)
  | bound _ hbound _ ih => exact ih (hcells _ _ hbound)

/-- Each element of the first of two lists of one length is paired with one of the second. -/
theorem exists_right_of_mem {α β : Type} {xs : List α} {ys : List β}
    (hlength : xs.length = ys.length) {x : α} (hx : x ∈ xs) : ∃ y ∈ ys, (x, y) ∈ xs.zip ys := by
  rw [← List.map_fst_zip (Nat.le_of_eq hlength), List.mem_map] at hx
  obtain ⟨⟨a, b⟩, hq, rfl⟩ := hx
  exact ⟨b, (List.of_mem_zip hq).2, hq⟩

/-- Each element of the second one is paired with one of the first. -/
theorem exists_left_of_mem {α β : Type} {xs : List α} {ys : List β}
    (hlength : xs.length = ys.length) {y : β} (hy : y ∈ ys) : ∃ x ∈ xs, (x, y) ∈ xs.zip ys := by
  rw [← List.map_snd_zip (Nat.le_of_eq hlength.symm), List.mem_map] at hy
  obtain ⟨⟨a, b⟩, hq, rfl⟩ := hy
  exact ⟨a, (List.of_mem_zip hq).1, hq⟩

namespace Cells.Value

/-- Values are values once and for all: no bound variable occurs in them. -/
theorem fixes (h : cells.Value k t r) : cells.Fixes r := by
  induction h with
  | free h => exact fixes_var.mpr h
  | bound _ _ ih => exact ih
  | leaf hvar hargs => exact fixes_leaf hvar hargs
  | kept h => exact h
  | rebuilt _ _ hlength _ ih =>
    refine (fixes_iff Kind.noConfusion).mpr fun y hy => ?_
    obtain ⟨x, -, hxy⟩ := exists_left_of_mem hlength hy
    exact ih hxy

/-- A term without bound variables is its own value. -/
theorem eq_of_fixes (h : cells.Value k t r) (ht : cells.Fixes t) : r = t := by
  cases h with
  | free _ => rfl
  | bound h _ => exact absurd ht h.not_fixes
  | leaf _ _ => rfl
  | kept _ => rfl
  | rebuilt h _ _ _ => exact absurd ht h

/-- The value is the same object if and only if there is nothing to be substituted. -/
theorem same_iff (h : cells.Value k t r) (ht : t.Older k) : r.same t = true ↔ cells.Fixes t := by
  refine ⟨fun hsame => ?_, fun hfixes => h.eq_of_fixes hfixes ▸ r.same_self⟩
  cases h with
  | free h => exact fixes_var.mpr h
  | @bound v b _ hbound hb =>
    cases r with
    | var w =>
      have hwv : w = v := by simpa [Term.same] using hsame
      exact absurd (hwv ▸ hb.fixes) hbound.not_fixes
    | _ => cases hsame
  | leaf hvar hargs => exact fixes_leaf hvar hargs
  | kept h => exact h
  | @rebuilt i j f x y xs ys _ hj _ _ =>
    -- the identity of the new node is none of those that there were before
    have hij : j = i := by simpa [Term.same] using hsame
    exact absurd (hij ▸ ht.here : j < k) (Nat.not_lt.mpr hj)

/-- Whatever is left as it is, wherever bindings lead to it, is found in the value. -/
theorem within (h : cells.Value k t r) (hu : u.kind = .compound) (hfixes : cells.Fixes u)
    (hshows : cells.Shows u t) : Term.Within u r := by
  induction h with
  | free h =>
    cases hshows with
    | within hw => cases hw.eq_of_arguments_nil rfl; cases hu
    | bound hw hbound _ => exact absurd h (Term.within_var.mp hw ▸ hbound.not_unbound)
  | bound h _ ih =>
    cases hshows with
    | within hw => cases hw.eq_of_arguments_nil rfl; cases hu
    | bound hw hbound hshows =>
      cases Term.within_var.mp hw
      cases h.unique hbound
      exact ih hshows
  | leaf hvar hargs =>
    cases hshows with
    | within hw => exact hw
    | bound hw _ _ => exact absurd (congrArg Term.kind (hw.eq_of_arguments_nil hargs)).symm hvar
  | kept h =>
    cases hshows with
    | within hw => exact hw
    | bound hw hbound _ => exact absurd (h _ hw) hbound.not_unbound
  | @rebuilt i j f x y xs ys h _ hlength _ ih =>
    -- a rebuilt node has the values of the arguments as its arguments
    have harg : ∀ a ∈ x :: xs, cells.Shows u a → Term.Within u (.compound j f y ys) := by
      intro a ha hshows
      obtain ⟨b, hb, hab⟩ := exists_right_of_mem hlength ha
      exact .arg hb (ih hab hshows)
    cases hshows with
    | within hw =>
      cases hw with
      | here => exact absurd hfixes h
      | arg ha hw => exact harg _ ha (.within hw)
    | bound hw hbound hshows =>
      cases hw with
      | arg ha hw => exact harg _ ha (.bound hw hbound hshows)

/-- A node rebuilt from the values of its arguments is its value. -/
theorem of_arguments {node : Node} {results : List Term} {supply : Supply}
    (h : List.Forall₂ (cells.Value k) node.arguments results) (hnode : node.term.Older k)
    (hk : k ≤ supply.next) : cells.Value k node.term (node.rebuilt true results supply).1 := by
  have hfixes : cells.Fixes node.term ↔ ∀ x ∈ node.arguments, cells.Fixes x :=
    fixes_iff Kind.noConfusion
  rcases node.rebuilt_shared supply h fun x hx _ hr => hr.same_iff (hnode.arg hx) with
    ⟨hkept, heq⟩ | ⟨hchanged, y, ys, rfl, heq⟩
  · rw [heq]
    exact .kept (hfixes.mpr hkept)
  · rw [heq]
    exact .rebuilt (mt hfixes.mp hchanged) hk (List.Forall₂.length_eq h) (List.forall₂_zip h)

/-- The value of what a term leads to is its value. -/
theorem of_root (hroot : cells.Root t u) (hu : cells.Value k u r) : cells.Value k t r := by
  cases t with
  | var v =>
    obtain ⟨n, hchain⟩ := hroot
    induction hchain with
    | free _ => exact hu
    | found hbound _ => exact .bound hbound hu
    | next hbound _ ih => exact .bound hbound (ih hu)
  | _ => exact (show u = _ from hroot) ▸ hu

end Cells.Value

/-! ## The walk -/

/-- The answer of the visitor for a root. -/
def Visit.ofRoot : Term → Visit
  | .compound id functor arg args => .enter { id, functor, arg, args }
  | t => .leaf t

/-- A visit dereferences its term and looks at the root. -/
theorem visitValue_run (h : deref t s = .ok (r, s')) :
    visitValue t s = .ok (Visit.ofRoot r, s') := by
  cases t with
  | var v =>
    unfold visitValue
    dsimp only
    rw [Run.bind_ok h]
    cases r <;> rfl
  | _ =>
    cases h
    rfl

/-- In every store that differs from the given one in shortened chains only, the walk gets from the
term to a result. It is the value if the nodes that were there before can be told from new ones. -/
def Cells.Evaluates (cells : Cells) (k : Nat) (t : Term) : Prop :=
  ∀ (s : Store) (supply : Supply), cells.Compressed s.cells → ∃ m result supply' s',
    Rebuilds true visitValue m t supply s result supply' s' ∧ s.cells.Compressed s'.cells ∧
      supply.next ≤ supply'.next ∧
      (cells.Every (Term.Dated k) → t.Older k → k ≤ supply.next → cells.Value k t result)

namespace Cells.Evaluates

/-- The values of the arguments of a node are built one after the other. -/
theorem all {ts : List Term} (h : ∀ t ∈ ts, cells.Evaluates k t) :
    ∀ (s : Store) (supply : Supply), cells.Compressed s.cells → ∃ m results supply' s',
      RebuildsAll true visitValue m ts supply s results supply' s' ∧
        s.cells.Compressed s'.cells ∧ supply.next ≤ supply'.next ∧
        (cells.Every (Term.Dated k) → (∀ t ∈ ts, t.Older k) → k ≤ supply.next →
          List.Forall₂ (cells.Value k) ts results) := by
  induction ts with
  | nil =>
    exact fun s supply _ => ⟨0, [], supply, s, .nil, .refl _, Nat.le_refl _, fun _ _ _ => .nil⟩
  | cons t ts ih =>
    intro s supply hcomp
    obtain ⟨ht, hts⟩ := List.forall_mem_cons.mp h
    obtain ⟨n, result, supply₁, s₁, hhead, hcomp₁, hle₁, hvalue⟩ := ht s supply hcomp
    obtain ⟨m, results, supply₂, s₂, htail, hcomp₂, hle₂, hvalues⟩ :=
      ih hts s₁ supply₁ (hcomp.trans hcomp₁)
    refine ⟨n + m, result :: results, supply₂, s₂, .cons hhead htail, hcomp₁.trans hcomp₂,
      Nat.le_trans hle₁ hle₂, fun hdated hold hk => ?_⟩
    obtain ⟨hold, holds⟩ := List.forall_mem_cons.mp hold
    exact .cons (hvalue hdated hold hk) (hvalues hdated holds (Nat.le_trans hk hle₁))

/-- A term that leads to a leaf has been evaluated when it is visited. -/
theorem of_leaf (hroot : cells.Root t u) (hu : u.kind ≠ .compound) : cells.Evaluates k t := by
  intro s supply hcomp
  obtain ⟨s₁, hderef, hshort⟩ := deref_shortens (hcomp.root.mpr hroot)
  have hvisit := visitValue_run hderef
  have hvalue : cells.Value k u u := by
    cases u with
    | var w => exact .free (hroot.isEnd w rfl)
    | compound => exact absurd rfl hu
    | _ => exact .leaf Kind.noConfusion rfl
  refine ⟨1, u, supply, s₁, .leaf ?_, hshort.compressed, Nat.le_refl _,
    fun _ _ _ => .of_root hroot hvalue⟩
  cases u <;> first | exact hvisit | exact absurd rfl hu

/-- A term that leads to a node is evaluated after the arguments of that node. -/
theorem of_node (node : Node) (hroot : cells.Root t node.term)
    (hargs : ∀ x ∈ node.arguments, cells.Evaluates k x) : cells.Evaluates k t := by
  intro s supply hcomp
  obtain ⟨s₁, hderef, hshort⟩ := deref_shortens (hcomp.root.mpr hroot)
  obtain ⟨m, results, supply₁, s₂, hrebuilds, hcomp₂, hle, hvalues⟩ :=
    all hargs s₁ supply (hcomp.trans hshort.compressed)
  refine ⟨m + 1, _, _, s₂, .enter (visitValue_run hderef) hrebuilds,
    hshort.compressed.trans hcomp₂, Nat.le_trans hle (Node.next_le_rebuilt _ _ _ _),
    fun hdated hold hk => ?_⟩
  have hnode : node.term.Older k := hroot.every hdated hold
  have hresults := hvalues hdated (fun x hx => hnode.arg hx) hk
  exact .of_root hroot (.of_arguments hresults hnode (Nat.le_trans hk hle))

/-- **The walk from a term to its value.** The induction is on the resolved term, which gets smaller
when a node is entered and is not changed by following bindings to it. -/
theorem of_proper (hs : cells.Proper) (ht : t.Below cells.size) : cells.Evaluates k t := by
  obtain ⟨τ, hτ⟩ := hs.acyclic.exists_resolves Reading.exact id
  generalize hn : (t.under .exact τ).size = n
  induction n using Nat.strong_induction_on generalizing t with
  | _ n ih =>
    obtain ⟨u, hroot⟩ := hs.rooted.root ht
    cases u with
    | compound i f x xs =>
      refine of_node ⟨i, f, x, xs⟩ hroot fun y hy => ?_
      have hsmaller : (y.under .exact τ).size < n := by
        rw [← hn, hτ.solves.root hroot, Term.under_compound]
        exact Tree.size_lt_of_mem (List.mem_map_of_mem hy)
      exact ih _ hsmaller ((hroot.every hs.closed ht).arg hy) rfl
    | _ => exact of_leaf hroot Kind.noConfusion

end Cells.Evaluates

/-! ## Where there is nothing to be substituted -/

/-- An unbound variable is dereferenced to itself, and nothing is written. -/
theorem deref_unbound (h : s.cells.Unbound v) : deref (.var v) s = .ok (.var v, s) := by
  have hresolve : Store.resolve (.var v) s = .ok (.var v, s) := by
    rw [Store.resolve, Cells.Root.resolve (Cells.root_var.mpr h.leads)]
  have hshorten : shorten (.var v) (s.cells.size + 1) v s = .ok ((), s) := by
    rw [shorten, Run.bind_ok (Store.read_run h)]
    rfl
  show (Store.resolve (.var v) >>= fun result => Store.size >>= fun n =>
    shorten result (n + 1) v >>= fun _ => pure result) s = _
  rw [Run.bind_ok hresolve, Run.bind_ok (show Store.size s = .ok (s.cells.size, s) from rfl),
    Run.bind_ok hshorten, Run.pure_run]

/-- Terms that come back one by one come back together. -/
theorem RebuildsAll.of_forall {supply : Supply} {ts : List Term}
    (h : ∀ t ∈ ts, ∃ m, Rebuilds true visitValue m t supply s t supply s) :
    ∃ m, RebuildsAll true visitValue m ts supply s ts supply s := by
  induction ts with
  | nil => exact ⟨0, .nil⟩
  | cons t ts ih =>
    obtain ⟨⟨n, ht⟩, hts⟩ := List.forall_mem_cons.mp h
    obtain ⟨m, hts⟩ := ih hts
    exact ⟨n + m, .cons ht hts⟩

/-- A term without bound variables is visited and comes back. No node is built, and nothing is
written. -/
theorem Rebuilds.of_fixes (supply : Supply) (h : s.cells.Fixes t) :
    ∃ m, Rebuilds true visitValue m t supply s t supply s := by
  induction t using Term.induction_arguments with
  | h t ih =>
    cases t with
    | var v => exact ⟨1, .leaf (visitValue_run (deref_unbound (Cells.fixes_var.mp h)))⟩
    | compound i f x xs =>
      let node : Node := ⟨i, f, x, xs⟩
      have hfixes := (Cells.fixes_iff (t := node.term) Kind.noConfusion).mp h
      obtain ⟨m, hargs⟩ : ∃ m, RebuildsAll true visitValue m node.arguments supply s
          node.arguments supply s :=
        RebuildsAll.of_forall fun y hy => ih y hy (hfixes y hy)
      have hnode := Rebuilds.enter (t := node.term) rfl hargs
      rw [Node.rebuilt_self] at hnode
      exact ⟨m + 1, hnode⟩
    | _ => exact ⟨1, .leaf rfl⟩

end Horn
