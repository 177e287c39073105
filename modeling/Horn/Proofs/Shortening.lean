import Horn.Proofs.Growth

/-!
# Shortening chains

Dereferencing a variable finds the end of its chain as the walk does that only reads. Then it goes
along the chain a second time, reading cells that it writes as it goes, and binds variables to the
end. The variables of a chain are different, so the second walk passes the same ones: it writes a
cell if and only if that holds a variable other than the end.

- `Cells.Passes`: the variables that are passed when the bindings of a term are followed.
- `Cells.detours`: a cell of which the end is not the next stop.
- `shorten_passes`: the cells that are written when a chain is shortened.
- `deref_compresses`: dereferencing and the walk that only reads.
-/

namespace Horn

variable {cells cells' : Cells} {s s' : Store} {q r t : Term} {u v w : Nat} {us vs : List Nat}

/-! ## The variables of a chain -/

namespace Cells

/-- Following the bindings of a term passes the variables of the list, in this order, and ends. -/
inductive Passes (cells : Cells) : Term → List Nat → Term → Prop where
  | other {t : Term} (h : t.kind ≠ .var) : Passes cells t [] t
  | free {v : Nat} (h : cells.Unbound v) : Passes cells (.var v) [v] (.var v)
  | bound {v : Nat} {t r : Term} {vs : List Nat} (h : cells.Bound v t)
      (rest : Passes cells t vs r) : Passes cells (.var v) (v :: vs) r

/-- A chain that ends passes as many variables as it has cells. -/
theorem Chain.exists_passes {n : Nat} (h : cells.Chain n v r) :
    ∃ vs, vs.length = n ∧ cells.Passes (.var v) vs r := by
  induction h with
  | free h => exact ⟨_, rfl, .free h⟩
  | found h hr => exact ⟨_, rfl, .bound h (.other hr)⟩
  | next h _ ih =>
    obtain ⟨vs, hlength, hrest⟩ := ih
    exact ⟨_ :: vs, congrArg Nat.succ hlength, .bound h hrest⟩

/-- The chain of a term passes no more variables than there are. -/
theorem Root.exists_passes (h : cells.Root t r) :
    ∃ vs, vs.length ≤ cells.size ∧ cells.Passes t vs r := by
  by_cases ht : t.kind = .var
  · cases t with
    | var v =>
      obtain ⟨n, hchain⟩ := root_var.mp h
      obtain ⟨vs, hlength, hpasses⟩ := hchain.exists_passes
      exact ⟨vs, hlength ▸ hchain.length_le, hpasses⟩
    | _ => cases ht
  · cases (root_of_kind ht).mp h
    exact ⟨[], Nat.zero_le _, .other ht⟩

namespace Passes

/-- A term has one chain. -/
theorem unique (h : cells.Passes t vs r) (h' : cells.Passes t us q) : vs = us ∧ r = q := by
  induction h generalizing us with
  | other ht =>
    cases h' with
    | other => exact ⟨rfl, rfl⟩
    | free => exact absurd rfl ht
    | bound => exact absurd rfl ht
  | free hfree =>
    cases h' with
    | other ht => exact absurd rfl ht
    | free => exact ⟨rfl, rfl⟩
    | bound hbound => exact absurd hfree hbound.not_unbound
  | bound hbound _ ih =>
    cases h' with
    | other ht => exact absurd rfl ht
    | free hfree => exact absurd hfree hbound.not_unbound
    | bound hbound' rest =>
      cases hbound.unique hbound'
      obtain ⟨rfl, rfl⟩ := ih rest
      exact ⟨rfl, rfl⟩

/-- From each of its variables a chain goes on to its end. -/
theorem of_mem (h : cells.Passes t vs r) (hv : v ∈ vs) :
    ∃ us, us.length ≤ vs.length ∧ cells.Passes (.var v) us r := by
  induction h with
  | other => cases hv
  | free hfree =>
    cases List.mem_singleton.mp hv
    exact ⟨_, Nat.le_refl _, .free hfree⟩
  | bound hbound rest ih =>
    rcases List.mem_cons.mp hv with rfl | hv
    · exact ⟨_, Nat.le_refl _, .bound hbound rest⟩
    · obtain ⟨us, hlength, hpasses⟩ := ih hv
      exact ⟨us, Nat.le_succ_of_le hlength, hpasses⟩

/-- No variable is passed twice: the chain would be shorter from there than it is. -/
theorem nodup (h : cells.Passes t vs r) : vs.Nodup := by
  induction h with
  | other => exact List.nodup_nil
  | free => exact List.nodup_singleton _
  | @bound v t r vs hbound rest ih =>
    refine List.nodup_cons.mpr ⟨fun hv => ?_, ih⟩
    obtain ⟨us, hlength, hpasses⟩ := rest.of_mem hv
    rw [(hpasses.unique (.bound hbound rest)).1, List.length_cons] at hlength
    omega

theorem lt (h : cells.Passes (.var v) vs r) : v < cells.size := by
  cases h with
  | other ht => exact absurd rfl ht
  | free hfree => exact hfree.lt
  | bound hbound _ => exact hbound.lt

theorem isEnd (h : cells.Passes t vs r) : cells.IsEnd r := by
  induction h with
  | other ht => exact isEnd_of_kind ht
  | free hfree => exact isEnd_var hfree
  | bound _ _ ih => exact ih

/-- Only the cells of a chain decide where it goes. -/
theorem congr (h : cells.Passes t vs r) (heq : ∀ u ∈ vs, cells'[u]? = cells[u]?) :
    cells'.Passes t vs r := by
  induction h with
  | other ht => exact .other ht
  | free hfree => exact .free ((heq _ List.mem_cons_self).trans hfree)
  | bound hbound _ ih =>
    exact .bound ((heq _ List.mem_cons_self).trans hbound)
      (ih fun u hu => heq u (List.mem_cons_of_mem _ hu))

end Passes

/-! ## Cells to be written -/

/-- The cell of the variable holds a variable that is not `r`. -/
def detours (cells : Cells) (r : Term) (v : Nat) : Bool :=
  match cells[v]? with
  | some (some (.var w)) => !r.same (.var w)
  | _ => false

/-- No chain is made shorter at its end. -/
theorem detours_unbound (h : cells.Unbound v) : cells.detours r v = false := by
  rw [detours, h]

/-- A variable that is bound to another one makes a detour, unless that is the end. -/
theorem detours_var (h : cells.Bound v (.var w)) : cells.detours r v = !r.same (.var w) := by
  rw [detours, h]

theorem detours_of_kind (h : cells.Bound v t) (ht : t.kind ≠ .var) :
    cells.detours r v = false := by
  rw [detours, h]
  cases t with
  | var => exact absurd rfl ht
  | _ => rfl

/-- A term is the same as a variable only if it is that variable. -/
theorem same_var_iff : r.same (.var w) = true ↔ r = .var w := by
  cases r <;> simp [Term.same]

/-- What is bound to the end goes straight to it. -/
theorem detours_end (h : cells.Bound v r) : cells.detours r v = false := by
  by_cases hr : r.kind = .var
  · cases r with
    | var w => rw [detours_var h, same_var_iff.mpr rfl, Bool.not_true]
    | _ => cases hr
  · exact detours_of_kind h hr

/-- A variable of a chain is bound to its end, unless its cell is a detour. -/
theorem Passes.bound_end (h : cells.Passes t vs r) (hv : v ∈ vs) (hbound : cells.Bound v q)
    (hdirect : cells.detours r v = false) : cells.Bound v r := by
  obtain ⟨us, -, hpasses⟩ := h.of_mem hv
  by_cases hq : q.kind = .var
  · cases q with
    | var w =>
      rw [detours_var hbound, Bool.not_eq_false'] at hdirect
      exact same_var_iff.mp hdirect ▸ hbound
    | _ => cases hq
  · cases (hpasses.unique (.bound hbound (.other hq))).2
    exact hbound

/-- A chain whose first variable is bound to its end has nothing to be written. -/
theorem passes_of_bound_end (h : cells.Bound v r) (hr : cells.IsEnd r) :
    ∃ vs, cells.Passes (.var v) vs r ∧ vs.filter (cells.detours r) = [] := by
  by_cases hkind : r.kind = .var
  · cases r with
    | var w =>
      refine ⟨[v, w], .bound h (.free (hr w rfl)), ?_⟩
      simp [detours_end h, detours_unbound (hr w rfl)]
    | _ => cases hkind
  · exact ⟨[v], .bound h (.other hkind), by simp [detours_end h]⟩

/-- The first cell of a chain that is no detour is the last one that could be. -/
theorem Passes.filter_detours (h : cells.Passes (.var v) vs r)
    (hdirect : cells.detours r v = false) : vs.filter (cells.detours r) = [] := by
  cases h with
  | other ht => exact absurd rfl ht
  | free => simp [hdirect]
  | bound hbound rest =>
    have hpasses : cells.Passes (.var v) _ r := .bound hbound rest
    have hend := hpasses.bound_end List.mem_cons_self hbound hdirect
    obtain ⟨us, hshort, hfilter⟩ := passes_of_bound_end hend rest.isEnd
    rw [(hpasses.unique hshort).1, hfilter]

/-- A chain whose bound variables have come to be bound to its end has nothing to be written. -/
theorem Passes.shortened (h : cells.Passes t vs r)
    (hfree : ∀ v, cells.Unbound v → cells'.Unbound v)
    (hbound : ∀ v ∈ vs, ∀ q, cells.Bound v q → cells'.Bound v r) :
    ∃ us, cells'.Passes t us r ∧ us.filter (cells'.detours r) = [] := by
  cases h with
  | other ht => exact ⟨[], .other ht, rfl⟩
  | free hv => exact ⟨_, .free (hfree _ hv), by simp [detours_unbound (hfree _ hv)]⟩
  | bound hv rest =>
    exact passes_of_bound_end (hbound _ List.mem_cons_self _ hv) fun w hw =>
      hfree w (rest.isEnd w hw)

theorem exists_of_detours (h : cells.detours r v = true) : ∃ w, cells.Bound v (.var w) := by
  unfold detours at h
  split at h
  · exact ⟨_, ‹_›⟩
  · cases h

end Cells

/-! ## Writing along a chain -/

/-- The store after the variables have been bound to the term, one after the other. -/
def Store.boundAll (s : Store) (vs : List Nat) (r : Term) : Store :=
  vs.foldl (fun s v => s.bound v r) s

namespace Store

/-- Bindings that are made one after the other are in the journal one after the other. -/
theorem journal_boundAll (s : Store) (vs : List Nat) (r : Term) :
    (s.boundAll vs r).journal = (vs.map (Event.bind · r)).reverse ++ s.journal := by
  induction vs generalizing s with
  | nil => rfl
  | cons v vs ih =>
    show ((s.bound v r).boundAll vs r).journal = _
    rw [ih, List.map_cons, List.reverse_cons, List.append_assoc]
    rfl

theorem getElem?_bound_of_ne (h : u ≠ v) : (s.bound v r).cells[u]? = s.cells[u]? :=
  Array.getElem?_setIfInBounds_ne (Ne.symm h)

/-- A variable that is written holds the term, all others hold what they held. -/
theorem bound_boundAll (hlt : u < s.cells.size) (h : u ∈ vs ∨ s.cells.Bound u r) :
    (s.boundAll vs r).cells.Bound u r := by
  induction vs generalizing s with
  | nil => exact h.resolve_left List.not_mem_nil
  | cons v vs ih =>
    refine ih (by rwa [size_bound]) ?_
    by_cases huv : u = v
    · subst huv
      exact .inr ((Cells.bound_set hlt).mpr (by rw [if_pos rfl]))
    · refine h.imp (fun hu => (List.mem_cons.mp hu).resolve_left huv) fun hu => ?_
      exact (getElem?_bound_of_ne huv).trans hu

end Store

/-- The second walk ends at a cell that is no detour. -/
theorem shorten_direct (hlt : v < s.cells.size) (h : s.cells.detours r v = false) (fuel : Nat) :
    shorten r fuel v s = .ok ((), s) := by
  cases fuel with
  | zero => rfl
  | succ fuel =>
    rcases Cells.bound_or_unbound hlt with ⟨t, ht⟩ | hfree
    · rw [shorten, Run.bind_ok (Store.read_run ht)]
      cases t with
      | var w =>
        rw [Cells.detours_var ht, Bool.not_eq_false'] at h
        simp [h, Run.pure_run]
      | _ => rfl
    · rw [shorten, Run.bind_ok (Store.read_run hfree)]
      rfl

/-- It writes a detour and goes on to the variable that the cell held. -/
theorem shorten_detour (hbound : s.cells.Bound v (.var w)) (h : s.cells.detours r v = true)
    (fuel : Nat) : shorten r (fuel + 1) v s = shorten r fuel w (s.bound v r) := by
  rw [Cells.detours_var hbound, Bool.not_eq_true'] at h
  rw [shorten, Run.bind_ok (Store.read_run hbound)]
  simp only [h, Bool.false_eq_true, if_false]
  rw [Run.bind_ok (Store.bind_run r hbound.lt)]

/-- **The cells that are written when a chain is shortened** are its detours, in the order of the
chain. The induction is on the variables that are still to be passed: those passed before are
written, and none of them is passed again. -/
theorem shorten_passes {fuel : Nat} (h : s.cells.Passes (.var v) vs r) (hfuel : vs.length ≤ fuel) :
    shorten r fuel v s = .ok ((), s.boundAll (vs.filter (s.cells.detours r)) r) := by
  induction fuel generalizing s v vs with
  | zero =>
    cases List.length_eq_zero_iff.mp (Nat.le_zero.mp hfuel)
    rfl
  | succ fuel ih =>
    -- the walk stops where a variable is bound to the result already
    cases hdetour : s.cells.detours r v with
    | false =>
      rw [shorten_direct h.lt hdetour, h.filter_detours hdetour]
      rfl
    | true =>
      obtain ⟨w, hbound⟩ := Cells.exists_of_detours hdetour
      have hnodup := h.nodup
      cases h with
      | other ht => exact absurd rfl ht
      | free hfree => exact absurd hfree hbound.not_unbound
      | @bound _ _ _ vs hbound' rest =>
        cases hbound.unique hbound'
        -- the write is not seen later, since a chain passes each variable once
        have hother : ∀ x ∈ vs, (s.bound v r).cells[x]? = s.cells[x]? := fun x hx =>
          Store.getElem?_bound_of_ne fun hxv => (List.nodup_cons.mp hnodup).1 (hxv ▸ hx)
        have hfilter : vs.filter ((s.bound v r).cells.detours r) =
            vs.filter (s.cells.detours r) :=
          List.filter_congr fun x hx => by rw [Cells.detours, hother x hx, Cells.detours]
        rw [shorten_detour hbound hdetour,
          ih (rest.congr hother) (Nat.le_of_succ_le_succ hfuel), hfilter,
          List.filter_cons_of_pos hdetour]
        rfl

/-- **What dereferencing returns and writes.** -/
theorem deref_passes (h : s.cells.Passes t vs r) (hroot : s.cells.Root t r) :
    deref t s = .ok (r, s.boundAll (vs.filter (s.cells.detours r)) r) := by
  by_cases ht : t.kind = .var
  · cases t with
    | var v =>
      have hlength : vs.length ≤ s.cells.size := by
        obtain ⟨us, hlength, hpasses⟩ := hroot.exists_passes
        exact (h.unique hpasses).1 ▸ hlength
      have hresolve : Store.resolve (.var v) s = .ok (r, s) := by
        rw [Store.resolve, hroot.resolve]
      have hsize : Store.size s = .ok (s.cells.size, s) := rfl
      show (Store.resolve (.var v) >>= fun result => Store.size >>= fun n =>
        shorten result (n + 1) v >>= fun _ => pure result) s = _
      rw [Run.bind_ok hresolve, Run.bind_ok hsize,
        Run.bind_ok (shorten_passes h (Nat.le_succ_of_le hlength)), Run.pure_run]
    | _ => cases ht
  · obtain ⟨rfl, rfl⟩ := h.unique (.other ht)
    cases r with
    | var => exact absurd rfl ht
    | _ => rfl

/-! ## Dereferencing and resolving -/

/-- **Dereferencing agrees with the walk that does not write.** On a well-formed store it ends and
returns what that walk finds, before and after for all variables alike. The bound variables of the
chain come to be bound to the result itself. They are written in the order of the chain, each of
them once, and only if they were bound to a variable other than the result. So there is nothing
left to be written when the term is dereferenced again. -/
theorem deref_compresses (hs : s.cells.WellFormed) (ht : t.Below s.cells.size) :
    ∃ r s' vs, s.cells.Passes t vs r ∧ vs.Nodup ∧ deref t s = .ok (r, s') ∧
      s.cells.resolve t = .ok r ∧
      (∀ v < s.cells.size, ∃ q, s.cells.resolve (.var v) = .ok q ∧
        s'.cells.resolve (.var v) = .ok q) ∧
      (∀ v ∈ vs, ∀ q, s.cells.Bound v q → s'.cells.Bound v r) ∧
      s'.journal = ((vs.filter (s.cells.detours r)).map (Event.bind · r)).reverse ++ s.journal ∧
      deref t s' = .ok (r, s') := by
  obtain ⟨r, s', hrun, hroot, hshort, -⟩ := hs.deref ht
  obtain ⟨vs, -, hpasses⟩ := hroot.exists_passes
  cases hrun.symm.trans (deref_passes hpasses hroot)
  have hcomp := hshort.compressed
  have hbound : ∀ v ∈ vs, ∀ q, s.cells.Bound v q →
      (s.boundAll (vs.filter (s.cells.detours r)) r).cells.Bound v r := by
    intro v hv q hq
    -- either it was written, or it is bound to the result without a write
    refine Store.bound_boundAll hq.lt ?_
    cases hdetour : s.cells.detours r v with
    | true => exact .inl (List.mem_filter.mpr ⟨hv, hdetour⟩)
    | false => exact .inr (hpasses.bound_end hv hq hdetour)
  refine ⟨r, _, vs, hpasses, hpasses.nodup, hrun, hroot.resolve, fun v hv => ?_, hbound,
    Store.journal_boundAll _ _ _, ?_⟩
  · obtain ⟨q, hq⟩ := hs.rooted v hv
    exact ⟨q, (Cells.root_var.mpr hq).resolve,
      (Cells.root_var.mpr ((hcomp.leads v q).mpr hq)).resolve⟩
  · obtain ⟨us, hus, hfilter⟩ := hpasses.shortened (fun v hv => hcomp.unbound.mpr hv) hbound
    rw [deref_passes hus (hcomp.root.mpr hroot), hfilter]
    rfl

/-- Let `X4` be bound to `X3`, `X3` to `X2`, `X2` to `X1` and `X1` to `X0`. Dereferencing `X4` binds
the first three of them to `X0`, in this order; `X1` is bound to it already. -/
theorem deref_compresses_chain :
    let cells : Cells := #[none, some (.var 0), some (.var 1), some (.var 2), some (.var 3)]
    ∃ s', deref (.var 4) { cells } = .ok (.var 0, s') ∧
      s'.journal = [.bind 2 (.var 0), .bind 3 (.var 0), .bind 4 (.var 0)] ∧
      (∀ v < 5, ∃ q, cells.resolve (.var v) = .ok q ∧ s'.cells.resolve (.var v) = .ok q) ∧
      s'.cells.Bound 3 (.var 0) ∧ deref (.var 4) s' = .ok (.var 0, s') := by
  intro cells
  have hs : cells.WellFormed := Cells.Proper.wellFormed <| Cells.proper_of_below fun v t hv => by
    match v, hv with
    | 0, hv => cases hv
    | 1, hv | 2, hv | 3, hv | 4, hv => cases hv; simp [Term.Bounded]
    | v + 5, hv => cases hv
  have hpasses : cells.Passes (.var 4) [4, 3, 2, 1, 0] (.var 0) :=
    .bound rfl (.bound rfl (.bound rfl (.bound rfl (.free rfl))))
  obtain ⟨r, s', vs, hchain, -, hrun, -, hresolve, hbound, hjournal, hagain⟩ :=
    deref_compresses (s := { cells }) hs (Term.below_var.mpr (show 4 < 5 by decide))
  obtain ⟨rfl, rfl⟩ := hchain.unique hpasses
  exact ⟨s', hrun, hjournal, hresolve, hbound 3 (by decide) _ rfl, hagain⟩

end Horn
