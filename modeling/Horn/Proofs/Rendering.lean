import Horn.Term.Text
import Horn.Proofs.Growth
import Horn.Proofs.Values

/-!
# Printing with bindings

Bindings are followed while a term is printed, or its value is built first and printed as it
stands: the text is the same, at every number of levels. Following a chain uses up no level, and
neither does replacing a variable by its value. Levels are what ends the printing of a cyclic term.

- `Term.textAt`: the printed form with a number of levels, and what it is at each kind of term.
- `Cells.Value.exists_root`: the value of a term is that of the end of its chain.
- `render_value`: the two ways to print; `render_ends`: printing ends in every well-formed store.
- `display_value`: both for the printed form proper.
-/

namespace Horn

variable {cells : Cells} {k n v : Nat} {t u r : Term} {s : Store}

/-! ## Printing a term as it stands -/

namespace Term

/-- The printed form with `n` levels of subterms, of the term as it stands. -/
def textAt (n : Nat) (t : Term) : String := Id.run (t.render pure n)

theorem text_eq (t : Term) : t.text = t.textAt (printedDepth + 1) := rfl

/-- A node is printed as its name and its arguments in parentheses. -/
theorem textAt_compound (n i : Nat) (f : Atom) (x : Term) (xs : List Term) :
    (compound i f x xs).textAt (n + 1) =
      Text.quoted f.name ++ "(" ++ ", ".intercalate ((x :: xs).map (textAt n)) ++ ")" := by
  have hargs : (x :: xs).mapM (m := Id) (render pure n) = (x :: xs).map (textAt n) :=
    List.mapM_pure
  show Id.run (do
    let texts ← (x :: xs).mapM (render pure n)
    pure (Text.quoted f.name ++ "(" ++ ", ".intercalate texts ++ ")")) = _
  rw [hargs]
  rfl

end Term

/-! ## Following bindings while printing -/

/-- A term that leads to a leaf is printed as that. -/
theorem render_leaf (h : cells.resolve t = .ok u) (hu : u.kind ≠ .compound) :
    t.render cells.resolve (n + 1) = .ok (u.textAt (n + 1)) := by
  rw [Term.render, h]
  cases u <;> first | rfl | exact absurd rfl hu

/-- One that leads to a node is printed as that with its arguments, which have a level less. -/
theorem render_node {i : Nat} {f : Atom} {x : Term} {xs : List Term} {texts : List String}
    (h : cells.resolve t = .ok (.compound i f x xs))
    (hargs : (x :: xs).mapM (Term.render cells.resolve n) = .ok texts) :
    t.render cells.resolve (n + 1) =
      .ok (Text.quoted f.name ++ "(" ++ ", ".intercalate texts ++ ")") := by
  rw [Term.render, h]
  show ((x :: xs).mapM (Term.render cells.resolve n) >>= _) = _
  rw [hargs]
  rfl

/-- Where all terms of a list can be printed, the list can. -/
theorem mapM_eq_ok {α β : Type} {f : α → Except Fault β} {xs : List α} {ys : List β}
    (h : List.Forall₂ (fun x y => f x = .ok y) xs ys) : xs.mapM f = .ok ys := by
  induction h with
  | nil => rfl
  | cons h _ ih =>
    rw [List.mapM_cons, h, ih]
    rfl

theorem mapM_ends {α β : Type} {f : α → Except Fault β} {xs : List α}
    (h : ∀ x ∈ xs, ∃ y, f x = .ok y) : ∃ ys, xs.mapM f = .ok ys := by
  induction xs with
  | nil => exact ⟨[], rfl⟩
  | cons x xs ih =>
    obtain ⟨⟨y, hy⟩, hxs⟩ := List.forall_mem_cons.mp h
    obtain ⟨ys, hys⟩ := ih hxs
    exact ⟨y :: ys, by rw [List.mapM_cons, hy, hys]; rfl⟩

/-! ## Printing values -/

namespace Cells.Value

/-- What a chain does not pass through plays no part in the value. -/
theorem exists_root (h : cells.Value k t r) : ∃ u, cells.Root t u ∧ cells.Value k u r := by
  induction h with
  | @free v h => exact ⟨_, root_var.mpr h.leads, .free h⟩
  | @bound v b r hbound hb ih =>
    obtain ⟨u, hroot, hu⟩ := ih
    cases b with
    | var w => exact ⟨u, root_var.mpr (hbound.leads_next hroot), hu⟩
    | _ => exact ⟨_, root_var.mpr (hbound.leads Kind.noConfusion), hb⟩
  | @leaf t hvar hargs => exact ⟨t, (root_of_kind hvar).mpr rfl, .leaf hvar hargs⟩
  | kept h => exact ⟨_, rfl, .kept h⟩
  | rebuilt h hj hlength hargs _ => exact ⟨_, rfl, .rebuilt h hj hlength hargs⟩

/-- A term in which nothing is to be substituted is its own value. -/
theorem of_fixes (h : cells.Fixes t) : cells.Value k t t := by
  cases t with
  | var v => exact .free (fixes_var.mp h)
  | compound => exact .kept h
  | _ => exact .leaf Kind.noConfusion rfl

end Cells.Value

/-- **Printing a term with its bindings is printing its value**, with any number of levels. -/
theorem render_value (h : cells.Value k t r) : t.render cells.resolve n = .ok (r.textAt n) := by
  induction n generalizing t r with
  | zero => rfl
  | succ n ih =>
    obtain ⟨u, hroot, hu⟩ := h.exists_root
    have hresolve : cells.resolve t = .ok u := Cells.Root.resolve (s := ⟨cells, []⟩) hroot
    -- the arguments of a node are printed as those of its value
    have hnode : ∀ {i j f x y xs ys}, u = .compound i f x xs → r = .compound j f y ys →
        List.Forall₂ (cells.Value k) (x :: xs) (y :: ys) →
          t.render cells.resolve (n + 1) = .ok (r.textAt (n + 1)) := by
      rintro i j f x y xs ys rfl rfl hargs
      rw [Term.textAt_compound]
      refine render_node hresolve (mapM_eq_ok ?_)
      exact List.forall₂_map_right_iff.mpr (hargs.imp fun _ _ => ih)
    cases hu with
    | free _ => exact render_leaf hresolve Kind.noConfusion
    | bound hbound _ => exact absurd (hroot.isEnd _ rfl) hbound.not_unbound
    | leaf hvar hargs =>
      refine render_leaf hresolve fun hkind => ?_
      cases r with
      | compound => cases hargs
      | _ => cases hkind
    | kept hfixes =>
      refine hnode rfl rfl (List.forall₂_same.mpr fun x hx => .of_fixes ?_)
      exact (Cells.fixes_iff Kind.noConfusion).mp hfixes x hx
    | rebuilt _ _ hlength hargs => exact hnode rfl rfl (List.forall₂_iff_zip.mpr ⟨hlength, hargs⟩)

/-- **Printing ends** in every well-formed store, also where bindings are cyclic: each level of
nodes uses one up. -/
theorem render_ends (hs : cells.WellFormed) (ht : t.Below cells.size) :
    ∃ text, t.render cells.resolve n = .ok text := by
  induction n generalizing t with
  | zero => exact ⟨_, rfl⟩
  | succ n ih =>
    obtain ⟨u, hroot, hu⟩ := hs.root ht
    have hresolve : cells.resolve t = .ok u := Cells.Root.resolve (s := ⟨cells, []⟩) hroot
    cases u with
    | compound i f x xs =>
      obtain ⟨texts, htexts⟩ := mapM_ends fun y (hy : y ∈ x :: xs) => ih (hu.arg hy)
      exact ⟨_, render_node hresolve htexts⟩
    | _ => exact ⟨_, render_leaf hresolve Kind.noConfusion⟩

/-- **Printing a term with its bindings** ends in every well-formed store, cyclic or not. In a
proper store it gives the text of the value of the term, to the same depth. -/
theorem display_value (hs : s.cells.WellFormed) (ht : t.Below s.cells.size) :
    (∃ text, t.display s.cells = .ok text) ∧
      ∀ supply : Supply, s.cells.Proper → s.cells.Every (Term.Dated supply.next) →
        t.Older supply.next → ∃ result supply' s',
          Settles (fun fuel => value fuel t supply s) ((result, supply'), s') ∧
            t.display s.cells = .ok result.text := by
  refine ⟨render_ends hs ht, fun supply hproper hcells hold => ?_⟩
  obtain ⟨m, result, supply', s', hrebuilds, -, -, hvalue⟩ :=
    Cells.Evaluates.of_proper (k := supply.next) hproper ht s supply (.refl _)
  exact ⟨result, supply', s', ⟨m, fun fuel hfuel => hrebuilds.run hfuel⟩,
    render_value (hvalue hcells hold (Nat.le_refl _))⟩

/-- Let `X1` be bound to `g(X0)` and `X2` to `X1`: `f(X2, X1)` is printed as the value, whose
arguments are one node. Let `X0` be bound to `f(X0)`: it is printed, though it has no value. -/
theorem display_value_chain :
    let g : Term := .compound 1 ⟨"g", .interned 1⟩ (.var 0) []
    let t : Term := .compound 0 ⟨"f", .interned 0⟩ (.var 2) [.var 1]
    let result : Term := .compound 2 ⟨"f", .interned 0⟩ g [g]
    let s : Store := { cells := #[none, some g, some (.var 1)] }
    let cyclic : Store := { cells := #[some (.compound 0 ⟨"f", .interned 0⟩ (.var 0) [])] }
    (∃ supply' s', Settles (fun fuel => value fuel t ⟨2⟩ s) ((result, supply'), s')) ∧
      t.display s.cells = .ok result.text ∧ result.text = "f(g(_0), g(_0))" ∧
      ¬cyclic.cells.Acyclic ∧ ∃ text, (Term.var 0).display cyclic.cells = .ok text := by
  intro g t result s cyclic
  have hbound : ∀ v b, s.cells.Bound v b → v = 1 ∧ b = g ∨ v = 2 ∧ b = .var 1 := fun v b hv => by
    have hlt : v < 3 := hv.lt
    obtain rfl | rfl | rfl : v = 0 ∨ v = 1 ∨ v = 2 := by omega
    · cases hv
    · cases hv
      exact .inl ⟨rfl, rfl⟩
    · cases hv
      exact .inr ⟨rfl, rfl⟩
  have hs : s.cells.Proper := Cells.proper_of_below fun v b hv => by
    obtain ⟨rfl, rfl⟩ | ⟨rfl, rfl⟩ := hbound v b hv <;> simp [g, Term.Bounded]
  let supply : Supply := ⟨2⟩
  have hcells : s.cells.Every (Term.Dated supply.next) := fun v b hv => by
    obtain ⟨-, rfl⟩ | ⟨-, rfl⟩ := hbound v b hv <;> simp [g, supply, Term.Dated]
  have ht : t.Below s.cells.size := by simp [t, s, Term.Bounded]
  have hold : t.Older supply.next := by simp [t, supply, Term.Dated]
  obtain ⟨-, hvalue⟩ := display_value hs.wellFormed ht
  obtain ⟨_, _, _, hsettles, hdisplay⟩ := hvalue supply hs hcells hold
  have hrun : Settles (fun fuel => value fuel t supply s)
      ((result, ⟨3⟩), { cells := #[none, some g, some g], journal := [.bind 2 g] }) :=
    .of_add 10 fun _ => rfl
  cases hsettles.unique hrun
  let f : Term := .compound 0 ⟨"f", .interned 0⟩ (.var 0) []
  have hloop : ∀ v b, cyclic.cells.Bound v b → b = f := fun v b hv => by
    cases Nat.lt_one_iff.mp hv.lt
    cases hv
    rfl
  have huses : cyclic.cells.Uses 0 0 := ⟨f, rfl, .arg List.mem_cons_self .here⟩
  have hcyclic : cyclic.cells.WellFormed := by
    refine ⟨fun v b hv => ?_, fun v hv => ?_⟩
    · rw [hloop v b hv]
      simp [f, cyclic, Term.Bounded]
    · cases Nat.lt_one_iff.mp hv
      exact ⟨f, Cells.Bound.leads (t := f) rfl Kind.noConfusion⟩
  have hzero : (Term.var 0).Below cyclic.cells.size := by simp [cyclic, Term.Bounded]
  obtain ⟨hends, -⟩ := display_value hcyclic hzero
  exact ⟨⟨_, _, hrun⟩, hdisplay, by decide, fun hac => hac.asymmetric _ _ huses huses, hends⟩

end Horn
