import Mathlib.Data.Set.Function
import Horn.Proofs.Copies

/-!
# Copies as variants

What a copy does to the store depends on the size of the store only: a cell is added for each
variable of the source that the memo does not have, and what the cells hold is neither read nor
changed. With a new memo the copy is the source with its variables renamed apart, and so is a second
copy that is made with the same memo, by one renaming for both.

- `Term.Variants`: terms that are others with their variables renamed, by one renaming for all.
- `Memo.Fresh`: all entries are different new variables; `Memo.Fresh.later`: they stay so.
- `Memo.Fresh.variants`: what such a memo makes of terms is a variant of them.
- `Freshens`, `FreshVariant`: what a copy comes to; `copy_variant`: that it does.
-/

namespace Horn

variable {k n : Nat} {t : Term} {ts us : List Term} {memo : Memo} {supply : Supply}

/-! ## Empty memos -/

theorem VarTable.find?_of_empty {α : Type} {m : VarTable α} {v : Nat} {x : α} (h : m.entries = []) :
    m.find? v ≠ some x := by
  rw [VarTable.find?, h]
  exact Option.some_ne_none x |>.symm

theorem VarTable.unseen_of_empty {α : Type} {m : VarTable α} {vs : List Nat} (h : m.entries = []) :
    m.unseen vs = vs.eraseDups := by
  have hfilter : vs.filter (fun v => (m.find? v).isNone) = vs :=
    List.filter_eq_self.mpr fun v _ => by rw [VarTable.find?, h]; rfl
  rw [VarTable.unseen, hfilter]

/-! ## Variants -/

/-- One bijection between the variables makes the terms of one list those of the other, node
identities aside. -/
def Term.Variants (ts us : List Term) : Prop :=
  ∃ ρ, Set.BijOn ρ {v | v ∈ Term.occurrencesAll ts} {w | w ∈ Term.occurrencesAll us} ∧
    us.map (Term.under .exact .var) = ts.map (Term.under .exact fun v => .var (ρ v))

namespace Memo

/-- All entries are variables from `k` on and below `n`, and no two are the same. -/
structure Fresh (memo : Memo) (k n : Nat) : Prop where
  var : ∀ v t, memo.find? v = some t → ∃ w, t = .var w ∧ k ≤ w ∧ w < n
  injective : ∀ u v t, memo.find? u = some t → memo.find? v = some t → u = v

/-- An empty memo stands for nothing that there was before. -/
theorem fresh_of_empty (h : memo.entries = []) : memo.Fresh k n where
  var _ _ hv := absurd hv (VarTable.find?_of_empty h)
  injective _ _ _ hu := absurd hu (VarTable.find?_of_empty h)

namespace Fresh

/-- Entries for variables that are allocated later are different from those that there are. -/
theorem later {i i' : Instance} (h : i.memo.Fresh k n) (henters : i.Enters i')
    (hk : k ≤ i.store.cells.size) (hn : n ≤ i.store.cells.size) :
    i'.memo.Fresh k i'.store.cells.size := by
  have hle := henters.extended.le
  -- an entry is an old one, or a variable that has been allocated since
  have hcases : ∀ v t, i'.memo.find? v = some t →
      i.memo.find? v = some t ∧ (∃ w, t = .var w ∧ k ≤ w ∧ w < n) ∨
        i.memo.find? v = none ∧
          ∃ w, t = .var w ∧ i.store.cells.size ≤ w ∧ w < i'.store.cells.size := by
    intro v t hv
    cases hold : i.memo.find? v with
    | some u =>
      cases (henters.known v u hold).symm.trans hv
      exact .inl ⟨rfl, h.var v t hold⟩
    | none => exact .inr ⟨rfl, henters.fresh v t hold hv⟩
  constructor
  case var =>
    intro v t hv
    rcases hcases v t hv with ⟨-, w, rfl, hkw, hwn⟩ | ⟨-, w, rfl, hle', hlt⟩
    · exact ⟨w, rfl, hkw, by omega⟩
    · exact ⟨w, rfl, by omega, hlt⟩
  case injective =>
    intro u v t hu hv
    rcases hcases u t hu with ⟨hold, w, rfl, -, hwn⟩ | ⟨hnone, w, rfl, hle', -⟩ <;>
      rcases hcases v _ hv with ⟨hold', w', hw', -, hwn'⟩ | ⟨hnone', w', hw', hle'', -⟩
    · exact h.injective u v _ hold hold'
    · cases hw'
      omega
    · cases hw'
      omega
    · exact henters.inj u v _ hnone hnone' hu hv

/-- Terms all of whose variables have entries become variants of themselves. -/
theorem variants (h : memo.Fresh k n)
    (hknown : ∀ v ∈ Term.occurrencesAll ts, (memo.find? v).isSome)
    (hus : us.map (Term.under .exact .var) =
      ts.map (Term.under .exact fun v => (memo.image v).under .exact .var)) :
    Term.Variants ts us := by
  have hvar : ∀ v ∈ Term.occurrencesAll ts, ∃ w, memo.find? v = some (.var w) := by
    intro v hv
    obtain ⟨t, ht⟩ := Option.isSome_iff_exists.mp (hknown v hv)
    obtain ⟨w, rfl, -⟩ := h.var v t ht
    exact ⟨w, ht⟩
  choose! ρ hρ using hvar
  have hrenamed : us.map (Term.under .exact .var) =
      ts.map (Term.under .exact fun v => .var (ρ v)) := by
    refine hus.trans (List.map_congr_left fun t ht => Term.under_congr fun v hv => ?_)
    have hmem := Term.mem_occurrencesAll.mpr ⟨t, ht, Term.mem_occurrences.mpr hv⟩
    rw [Memo.image_of_find? (hρ v hmem)]
    rfl
  have hinj : Set.InjOn ρ {v | v ∈ Term.occurrencesAll ts} := fun u hu v hv huv =>
    h.injective u v _ (hρ u hu) (huv ▸ hρ v hv)
  have himage : {w | w ∈ Term.occurrencesAll us} = ρ '' {v | v ∈ Term.occurrencesAll ts} := by
    rw [Term.occurrencesAll_of_under_eq hrenamed]
    ext w
    simp
  exact ⟨ρ, himage ▸ hinj.bijOn_image, hrenamed⟩

end Fresh

end Memo

/-! ## What a copy comes to -/

/-- What the copy of a term is, and what becomes of the memo, when the store has `k` cells. -/
structure Freshens (t : Term) (supply : Supply) (k : Nat) (memo : Memo) (result : Term)
    (memo' : Memo) : Prop where
  /-- Every variable is replaced by its entry in the memo that is left. -/
  replaced : result.under .exact .var = t.under .exact fun v => (memo'.image v).under .exact .var
  /-- Old entries stay. -/
  kept : ∀ v u, memo.find? v = some u → memo'.find? v = some u
  /-- The variables of the term get entries, and no others. -/
  entered : ∀ v, (memo'.find? v).isSome ↔ (memo.find? v).isSome ∨ Term.Within (.var v) t
  /-- The new ones stand for the cells that follow, in the order in which they occur first. -/
  ordered : ∀ i v, (memo.unseen t.occurrences)[i]? = some v →
    memo'.find? v = some (.var (k + i))
  /-- Every node is new, unless it comes from an old entry. -/
  anew : ∀ i f x xs, Term.Within (.compound i f x xs) result →
    supply.next ≤ i ∨ ∃ v u, memo.find? v = some u ∧ Term.Within (.compound i f x xs) u

/-- What a copy is that was made with a new memo, which is `memo'` now, when the store had `k`
cells. -/
structure FreshVariant (t : Term) (supply : Supply) (k : Nat) (result : Term) (memo' : Memo) :
    Prop where
  variant : Term.Variants [t] [result]
  /-- No variable is one of those that the store had. -/
  apart : ∀ v, Term.Within (.var v) result → k ≤ v
  /-- No node is one of the source. -/
  unshared : t.Older supply.next → ∀ u, Term.Within u result → u.kind = .compound →
    ∀ w, Term.Within w t → u.same w = false
  /-- With the copy of another term that is made with the same memo this is a variant of the pair,
  whatever has become of the store. -/
  pair : ∀ t₂ supply₂ s₂, k + (t.occurrences.eraseDups).length ≤ s₂.cells.size →
    ∃ result₂ supply₂' i₂, copy t₂ supply₂ ⟨s₂, memo'⟩ = .ok ((result₂, supply₂'), i₂) ∧
      Term.Variants [t, t₂] [result, result₂]

namespace Instance

variable {i i' : Instance}

/-- Nodes of a copy are new, or come from the memo. -/
theorem Enters.anew (h : i.Enters i')
    (hseen : ∀ v, Term.Within (.var v) t → (i'.memo.find? v).isSome) :
    ∀ j f x xs, Term.Within (.compound j f x xs) (t.copied i'.memo.image n).1 →
      n ≤ j ∨ ∃ v u, i.memo.find? v = some u ∧ Term.Within (.compound j f x xs) u := by
  let New (u : Term) : Prop := ∀ j f x xs, u = .compound j f x xs →
    n ≤ j ∨ ∃ v w, i.memo.find? v = some w ∧ Term.Within u w
  have hnew : (t.copied i'.memo.image n).1.Every New := by
    refine Term.copied_every t (fun u hu => ?_) fun j f x xs hj _ => ?_
    · cases u with
      | var v =>
        obtain ⟨u, hv⟩ := Option.isSome_iff_exists.mp (hseen v hu)
        show (i'.memo.image v).Every New
        rw [Memo.image_of_find? hv]
        cases hold : i.memo.find? v with
        | some u' =>
          cases (h.known v u' hold).symm.trans hv
          exact fun w hw _ _ _ _ _ => .inr ⟨v, u, hold, hw⟩
        | none =>
          obtain ⟨w, rfl, -⟩ := h.fresh v u hold hv
          exact .of_leaf (fun _ _ _ _ heq => nomatch heq) rfl
      | compound => trivial
      | _ => exact fun _ _ _ _ heq => nomatch heq
    · intro j' f' x' xs' heq
      cases heq
      exact .inl hj
  exact fun j f x xs hwithin => hnew _ hwithin j f x xs rfl

/-- What known variables stand for does not change later. -/
theorem Enters.copied_under (h : i.Enters i')
    (hseen : ∀ v, Term.Within (.var v) t → (i.memo.find? v).isSome) :
    (t.copied i.memo.image n).1.under .exact .var =
      t.under .exact fun v => (i'.memo.image v).under .exact .var := by
  rw [Term.copied_under]
  exact Term.under_congr fun v hv => by rw [h.image (hseen v hv)]

end Instance

/-- A copy with a new memo renames the variables apart. -/
theorem freshVariant_copied {i i' : Instance} (hempty : i.memo.entries = []) (henters : i.Enters i')
    (hseen : ∀ v, Term.Within (.var v) t → (i'.memo.find? v).isSome)
    (hsize : i'.store.cells.size = i.store.cells.size + t.occurrences.eraseDups.length) :
    FreshVariant t supply i.store.cells.size (t.copied i'.memo.image supply.next).1 i'.memo := by
  have hfresh : i'.memo.Fresh i.store.cells.size i'.store.cells.size :=
    (Memo.fresh_of_empty hempty : i.memo.Fresh _ 0).later henters (Nat.le_refl _) (Nat.zero_le _)
  constructor
  case variant =>
    refine hfresh.variants (fun v hv => ?_) (congrArg (· :: []) (Term.copied_under t))
    obtain ⟨u, hu, hvu⟩ := Term.mem_occurrencesAll.mp hv
    cases List.mem_singleton.mp hu
    exact hseen v (Term.mem_occurrences.mp hvu)
  case apart =>
    -- a variable of the copy is an entry of the memo, and all entries are new cells
    let Above (u : Term) : Prop := ∀ w, u = .var w → i.store.cells.size ≤ w
    have habove : (t.copied i'.memo.image supply.next).1.Every Above := by
      refine Term.copied_every t (fun u hu => ?_) fun _ _ _ _ _ _ w hw => nomatch hw
      cases u with
      | var v =>
        obtain ⟨u, hv⟩ := Option.isSome_iff_exists.mp (hseen v hu)
        obtain ⟨w, rfl, hle, -⟩ := hfresh.var v u hv
        show (i'.memo.image v).Every Above
        rw [Memo.image_of_find? hv]
        refine .of_leaf (fun w' hw' => ?_) rfl
        cases hw'
        exact hle
      | compound => trivial
      | _ => exact fun _ hw => nomatch hw
    exact fun v hv => habove _ hv v rfl
  case unshared =>
    intro hold u hu hkind w hw
    cases u with
    | compound j f x xs =>
      -- a node of the copy is new or comes from the memo, which was empty
      rcases henters.anew hseen j f x xs hu with hj | ⟨v, u, hv, -⟩
      · cases w with
        | compound j' =>
          have hj' : j' < supply.next := hold _ hw
          exact beq_false_of_ne (Nat.ne_of_gt (Nat.lt_of_lt_of_le hj' hj))
        | _ => rfl
      · exact absurd hv (VarTable.find?_of_empty hempty)
    | _ => cases hkind
  case pair =>
    intro t₂ supply₂ s₂ hle
    obtain ⟨i₂, hrun, henters₂, hseen₂⟩ := copy_run t₂ supply₂ ⟨s₂, i'.memo⟩
    refine ⟨_, _, i₂, hrun, ?_⟩
    -- the second copy goes on with the memo of the first one, so the bounds of the first are
    -- widened to the store that it finds
    have hfresh₂ : i₂.memo.Fresh i.store.cells.size i₂.store.cells.size := by
      rw [hsize] at hfresh
      exact Memo.Fresh.later (i := ⟨s₂, i'.memo⟩) hfresh henters₂
        (Nat.le_trans (Nat.le_add_right _ _) hle) hle
    refine hfresh₂.variants (fun v hv => ?_) ?_
    · obtain ⟨u, hu, hvu⟩ := Term.mem_occurrencesAll.mp hv
      rcases List.mem_pair.mp hu with rfl | rfl
      · exact (hseen₂ v).mpr (.inl (hseen v (Term.mem_occurrences.mp hvu)))
      · exact (hseen₂ v).mpr (.inr (Term.mem_occurrences.mp hvu))
    · exact congrArg₂ (fun a b => [a, b]) (henters₂.copied_under hseen) (Term.copied_under t₂)

/-- **A copy is a fresh variant.** For every term, store and memo: copying ends. The result is the
term with its variables replaced by their entries in the memo that is left, which has the old
entries and one for each variable of the term that was new, for the cells that have been added to
the store in the order of first occurrence. No cell that there was is read or written: the result is
the same for all stores of that size. With an empty memo it is a variant of the term apart from the
store and from the term, and so are two copies that are made with the same memo. -/
theorem copy_variant (t : Term) (supply : Supply) (s : Store) (memo : Memo) :
    ∃ result supply' memo',
      (∀ s₂ : Store, s₂.cells.size = s.cells.size → copy t supply ⟨s₂, memo⟩ =
        .ok ((result, supply'), ⟨s₂.widened (memo.unseen t.occurrences).length, memo'⟩)) ∧
      Freshens t supply s.cells.size memo result memo' ∧
      (memo.entries = [] → FreshVariant t supply s.cells.size result memo') := by
  let i' := Instance.after ⟨s, memo⟩ t.occurrences
  have henters : Instance.Enters ⟨s, memo⟩ i' := Instance.enters_after _ t.occurrences
  have hentered : ∀ v, (i'.memo.find? v).isSome ↔
      (memo.find? v).isSome ∨ Term.Within (.var v) t := fun v =>
    Instance.isSome_after.trans (or_congr_right Term.mem_occurrences)
  have hseen : ∀ v, Term.Within (.var v) t → (i'.memo.find? v).isSome :=
    fun v hv => (hentered v).mpr (.inr hv)
  refine ⟨(t.copied i'.memo.image supply.next).1, ⟨(t.copied i'.memo.image supply.next).2⟩, i'.memo,
    fun s₂ hsize => ?_, ?_, fun hempty => ?_⟩
  · have hmemo : (Instance.after ⟨s₂, memo⟩ t.occurrences).memo = i'.memo :=
      congrArg (memo.enrolled .var · t.occurrences) hsize
    rw [copy_eq, hmemo]
    exact congrArg (fun memo' => Except.ok (_, Instance.mk _ memo')) hmemo
  · constructor
    case replaced => exact Term.copied_under t
    case kept => exact henters.known
    case entered => exact hentered
    case ordered => exact fun j v hj => VarTable.find?_enrolled_of_getElem? hj
    case anew => exact henters.anew hseen
  · refine freshVariant_copied hempty henters hseen ?_
    rw [← VarTable.unseen_of_empty hempty]
    exact Store.size_widened

/-- The copy of `f(X7, g(X2, X7))` in a store with one cell: `X7` stands twice for one new variable,
and both nodes are new. -/
theorem copy_variant_repeated :
    let t : Term := .compound 0 ⟨"f", .interned 0⟩ (.var 7)
      [.compound 1 ⟨"g", .interned 1⟩ (.var 2) [.var 7]]
    let result : Term := .compound 3 ⟨"f", .interned 0⟩ (.var 1)
      [.compound 2 ⟨"g", .interned 1⟩ (.var 2) [.var 1]]
    let s : Store := ⟨#[some (.int 5)], []⟩
    let memo' : Memo := ⟨[(7, .var 1), (2, .var 2)]⟩
    t.Older 2 ∧ copy t ⟨2⟩ ⟨s, {}⟩ = .ok ((result, ⟨4⟩), ⟨s.widened 2, memo'⟩) ∧
      Freshens t ⟨2⟩ 1 {} result memo' ∧ FreshVariant t ⟨2⟩ 1 result memo' := by
  intro t result s memo'
  have hold : t.Older 2 := by simp [t, Term.Dated]
  have hrun : copy t ⟨2⟩ ⟨s, {}⟩ = .ok ((result, ⟨4⟩), ⟨s.widened 2, memo'⟩) := rfl
  obtain ⟨_, _, _, hruns, hfreshens, hvariant⟩ := copy_variant t ⟨2⟩ s {}
  cases hrun.symm.trans (hruns s rfl)
  exact ⟨hold, hrun, hfreshens, hvariant rfl⟩

end Horn
