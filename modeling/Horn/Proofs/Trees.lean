import Horn.Proofs.Subterms
import Horn.Proofs.Numbers

/-!
# Trees

What a term denotes once variables are replaced: a finite tree. Trees have plain equality, so what
is to be disregarded when terms are compared is left out of them. How much that is depends on the
`Reading`: node identities are kept or dropped, floats are kept by their bits or up to numeric
equality.

- `Term.under`: the tree of a term under a substitution.
- `Term.under_subst`: substituting in it is substituting under it.
- `Term.eqv_iff_under_eq`: structural equality is equality of numeric trees.
-/

namespace Horn

/-- The trees without branches, variables aside. Atoms are given by name, black boxes by their
serial number. -/
inductive Leaf where
  | atom (name : String)
  | int (value : Int64)
  | float (value : Binary64)
  | box (serial : Nat)
  deriving DecidableEq, Repr

/-- Finite trees over variables, every node of which carries a label beside its name. -/
inductive Tree (ν : Type) where
  | var (v : Nat)
  | leaf (l : Leaf)
  | node (label : ν) (name : String) (args : List (Tree ν))

namespace Tree

variable {ν : Type}

/-- Induction over a tree with a hypothesis for every branch of a node. -/
@[elab_as_elim, induction_eliminator]
theorem induct {motive : Tree ν → Prop} (var : ∀ v, motive (.var v)) (leaf : ∀ l, motive (.leaf l))
    (node : ∀ label name args, (∀ a ∈ args, motive a) → motive (.node label name args)) :
    ∀ t, motive t
  | .var v => var v
  | .leaf l => leaf l
  | .node label name args => node label name args fun a _ => induct var leaf node a
termination_by t => sizeOf t
decreasing_by
  have := List.sizeOf_lt_of_mem ‹a ∈ args›
  simp
  omega

mutual

/-- How many subtrees a tree has, itself included. -/
def size : Tree ν → Nat
  | node _ _ args => sizeAll args + 1
  | _ => 1

/-- How many subtrees the trees of a list have together. -/
def sizeAll : List (Tree ν) → Nat
  | [] => 0
  | t :: ts => size t + sizeAll ts

end

mutual

/-- The tree with its variables replaced. -/
def subst (σ : Nat → Tree ν) : Tree ν → Tree ν
  | var v => σ v
  | leaf l => .leaf l
  | node label name args => .node label name (substAll σ args)

/-- The trees of a list with their variables replaced. -/
def substAll (σ : Nat → Tree ν) : List (Tree ν) → List (Tree ν)
  | [] => []
  | t :: ts => subst σ t :: substAll σ ts

end

/-- A tree with its variables renamed. -/
def rename (ρ : Nat → Nat) (t : Tree ν) : Tree ν := t.subst fun v => .var (ρ v)

/-- The variable stands in the tree. -/
inductive Occurs (v : Nat) : Tree ν → Prop where
  | here : Occurs v (.var v)
  | arg {label : ν} {name : String} {args : List (Tree ν)} {a : Tree ν} (mem : a ∈ args)
      (occurs : Occurs v a) : Occurs v (.node label name args)

variable {σ : Nat → Tree ν} {t : Tree ν} {v w : Nat}

theorem substAll_eq_map (σ : Nat → Tree ν) (ts : List (Tree ν)) :
    substAll σ ts = ts.map (subst σ) := by
  induction ts with
  | nil => rfl
  | cons t ts ih => simp [substAll, ih]

@[simp]
theorem subst_var (σ : Nat → Tree ν) (v : Nat) : (var v).subst σ = σ v := rfl

/-- A substitution goes to the arguments of a node. -/
@[simp]
theorem subst_node (σ : Nat → Tree ν) (label : ν) (name : String) (args : List (Tree ν)) :
    (node label name args).subst σ = node label name (args.map (subst σ)) := by
  rw [subst, substAll_eq_map]

theorem size_pos (t : Tree ν) : 0 < t.size := by
  cases t <;> simp [size]

theorem size_le_sizeAll {a : Tree ν} {args : List (Tree ν)} (h : a ∈ args) :
    a.size ≤ sizeAll args := by
  induction args with
  | nil => cases h
  | cons b args ih =>
    rcases List.mem_cons.mp h with rfl | h
    · exact Nat.le_add_right _ _
    · exact Nat.le_trans (ih h) (Nat.le_add_left _ _)

theorem sizeAll_append (ts us : List (Tree ν)) : sizeAll (ts ++ us) = sizeAll ts + sizeAll us := by
  induction ts with
  | nil => simp [sizeAll]
  | cons t ts ih => simp [sizeAll, ih, Nat.add_assoc]

theorem sizeAll_reverse (ts : List (Tree ν)) : sizeAll ts.reverse = sizeAll ts := by
  induction ts with
  | nil => rfl
  | cons t ts ih => simp [sizeAll, sizeAll_append, ih, Nat.add_comm]

theorem size_lt_of_mem {label : ν} {name : String} {a : Tree ν} {args : List (Tree ν)}
    (h : a ∈ args) : a.size < (node label name args).size :=
  Nat.lt_succ_of_le (size_le_sizeAll h)

/-! ## Variables -/

@[simp]
theorem occurs_var : Occurs v (var w : Tree ν) ↔ v = w := by
  constructor
  · intro h
    cases h
    rfl
  · rintro rfl
    exact .here

@[simp]
theorem not_occurs_leaf {l : Leaf} : ¬Occurs v (leaf l : Tree ν) := nofun

/-- A variable occurs in a node if it occurs in an argument. -/
theorem occurs_node {label : ν} {name : String} {args : List (Tree ν)} :
    Occurs v (node label name args) ↔ ∃ a ∈ args, Occurs v a := by
  constructor
  · rintro ⟨⟩
    exact ⟨_, ‹_›, ‹_›⟩
  · rintro ⟨a, mem, occurs⟩
    exact .arg mem occurs

/-- A variable that does not occur may be replaced by anything. -/
theorem subst_eq_self (h : ∀ v, Occurs v t → σ v = var v) : t.subst σ = t := by
  induction t with
  | var v => exact h v .here
  | leaf l => rfl
  | node label name args ih =>
    rw [subst_node, List.map_congr_left fun a ha => ih a ha fun v hv => h v (.arg ha hv)]
    simp

/-- What a variable stands for is no larger than the whole. -/
theorem size_le_of_occurs (h : Occurs v t) (σ : Nat → Tree ν) : (σ v).size ≤ (t.subst σ).size := by
  induction h with
  | here => exact Nat.le_refl _
  | arg mem _ ih =>
    rw [subst_node]
    exact Nat.le_trans ih (Nat.le_of_lt (size_lt_of_mem (List.mem_map_of_mem mem)))

/-- No tree stands for a variable that occurs below its own root. -/
theorem subst_ne_of_occurs (h : Occurs v t) (ht : t ≠ var v) (σ : Nat → Tree ν) :
    σ v ≠ t.subst σ := by
  intro heq
  cases h with
  | here => exact ht rfl
  | @arg label name args a mem occurs =>
    have hle := size_le_of_occurs occurs σ
    have hlt : (a.subst σ).size < (subst σ (.node label name args)).size := by
      rw [subst_node]
      exact size_lt_of_mem (List.mem_map_of_mem mem)
    rw [heq] at hle
    omega

/-! ## Labels -/

mutual

/-- A tree without the labels of its nodes. -/
def bare : Tree ν → Tree Unit
  | var v => .var v
  | leaf l => .leaf l
  | node _ name args => .node () name (bareAll args)

/-- The trees of a list without labels. -/
def bareAll : List (Tree ν) → List (Tree Unit)
  | [] => []
  | t :: ts => bare t :: bareAll ts

end

theorem bareAll_eq_map (ts : List (Tree ν)) : bareAll ts = ts.map bare := by
  induction ts with
  | nil => rfl
  | cons t ts ih => simp [bareAll, ih]

end Tree

/-! ## Terms as trees -/

/-- What is kept of a term when it is read as a tree. -/
structure Reading (ν : Type) where
  /-- What is kept of a node identity. -/
  label : Nat → ν
  /-- What is kept of a float. -/
  number : Binary64 → Binary64

namespace Reading

/-- Structure only, with floats compared as numbers. -/
def numeric : Reading Unit := ⟨fun _ => (), Binary64.unsignedZero⟩

/-- Structure only, with floats compared by their bits. -/
def exact : Reading Unit := ⟨fun _ => (), id⟩

/-- Node identities are kept as well. -/
def marked : Reading Nat := ⟨id, id⟩

end Reading

namespace Term

variable {ν : Type}

mutual

/-- The tree of a term when each variable stands for a tree. -/
def under (r : Reading ν) (σ : Nat → Tree ν) : Term → Tree ν
  | var v => σ v
  | atom a => .leaf (.atom a.name)
  | int n => .leaf (.int n)
  | float x => .leaf (.float (r.number x))
  | box b => .leaf (.box b.serial)
  | compound i f x xs => .node (r.label i) f.name (under r σ x :: underAll r σ xs)

/-- The trees of a list of terms. -/
def underAll (r : Reading ν) (σ : Nat → Tree ν) : List Term → List (Tree ν)
  | [] => []
  | t :: ts => under r σ t :: underAll r σ ts

end

variable {r : Reading ν} {σ τ : Nat → Tree ν} {t : Term} {v : Nat}

theorem underAll_eq_map (ts : List Term) : underAll r σ ts = ts.map (under r σ) := by
  induction ts with
  | nil => rfl
  | cons t ts ih => simp [underAll, ih]

@[simp]
theorem under_var : (var v).under r σ = σ v := rfl

/-- A node denotes the node of what its arguments denote. -/
@[simp]
theorem under_compound {i : Nat} {f : Atom} {x : Term} {xs : List Term} :
    (compound i f x xs).under r σ = .node (r.label i) f.name ((x :: xs).map (under r σ)) := by
  rw [under, underAll_eq_map]
  rfl

/-- A variable of the tree comes from a variable of the term. -/
theorem occurs_under {w : Nat} :
    (t.under r σ).Occurs w ↔ ∃ v, Within (var v) t ∧ (σ v).Occurs w := by
  induction t using induction_arguments with
  | h t ih =>
    cases t with
    | var v =>
      constructor
      · exact fun h => ⟨v, .here, h⟩
      · rintro ⟨u, hu, h⟩
        cases hu.eq_of_arguments_nil rfl
        exact h
    | compound i f x xs =>
      rw [under_compound, Tree.occurs_node]
      constructor
      · rintro ⟨a, ha, hw⟩
        obtain ⟨y, hy, rfl⟩ := List.mem_map.mp ha
        obtain ⟨v, hv, h⟩ := (ih y hy).mp hw
        exact ⟨v, .arg hy hv, h⟩
      · rintro ⟨v, hv, h⟩
        cases hv with
        | @arg _ y hy hv =>
          exact ⟨y.under r σ, List.mem_map_of_mem hy, (ih y hy).mpr ⟨v, hv, h⟩⟩
    | _ =>
      constructor
      · exact fun h => absurd h Tree.not_occurs_leaf
      · rintro ⟨u, hu, -⟩
        cases hu.eq_of_arguments_nil rfl

/-- Only the variables that occur matter. -/
theorem under_congr (h : ∀ v, Within (var v) t → σ v = τ v) : t.under r σ = t.under r τ := by
  induction t using induction_arguments with
  | h t ih =>
    cases t with
    | var v => exact h v .here
    | compound i f x xs =>
      have hargs : (x :: xs).map (under r σ) = (x :: xs).map (under r τ) :=
        List.map_congr_left fun y hy => ih y hy fun v hv => h v (.arg hy hv)
      rw [under_compound, under_compound, hargs]
    | _ => rfl

/-- Substituting in the tree is substituting under it. -/
theorem under_subst : (t.under r σ).subst τ = t.under r fun v => (σ v).subst τ := by
  induction t using induction_arguments with
  | h t ih =>
    cases t with
    | compound i f x xs =>
      have hargs : ((x :: xs).map (under r σ)).map (Tree.subst τ) =
          (x :: xs).map (under r fun v => (σ v).subst τ) := by
        rw [List.map_map]
        exact List.map_congr_left fun y hy => ih y hy
      rw [under_compound, under_compound, Tree.subst_node, hargs]
    | _ => rfl

/-- Renaming afterwards is renaming the substitution. -/
theorem rename_under {ρ : Nat → Nat} :
    (t.under r σ).rename ρ = t.under r fun v => (σ v).rename ρ := under_subst

/-- Without labels, node identities are left aside. -/
theorem bare_under {σ : Nat → Tree Nat} :
    (t.under .marked σ).bare = t.under .exact fun v => (σ v).bare := by
  induction t using induction_arguments with
  | h t ih =>
    cases t with
    | compound i f x xs =>
      have hargs : ((x :: xs).map (under .marked σ)).map Tree.bare =
          (x :: xs).map (under .exact fun v => (σ v).bare) := by
        rw [List.map_map]
        exact List.map_congr_left fun y hy => ih y hy
      rw [under_compound, under_compound, Tree.bare, Tree.bareAll_eq_map, hargs]
    | _ => rfl

/-- What a variable of a term stands for is no larger than what the term stands for, and smaller
unless the term is the variable. -/
theorem size_lt_of_within (h : Within (var v) t) (ht : t ≠ var v) :
    (σ v).size < (t.under r σ).size := by
  cases h with
  | here => exact absurd rfl ht
  -- the variable stands in an argument, which is smaller than the node
  | @arg _ x hx hv =>
    have hle : (σ v).size ≤ (x.under r σ).size := by
      have hocc : (x.under r Tree.var).Occurs v := occurs_under.mpr ⟨v, hv, .here⟩
      have := Tree.size_le_of_occurs hocc σ
      rwa [under_subst] at this
    cases t with
    | compound i f y ys =>
      rw [under_compound]
      exact Nat.lt_of_le_of_lt hle (Tree.size_lt_of_mem (List.mem_map_of_mem hx))
    | _ => cases hx

/-- Lists agree if their elements do, one by one. -/
theorem map_eq_of_zip {α β γ : Type} {f : α → γ} {g : β → γ} :
    ∀ {xs : List α} {ys : List β}, xs.length = ys.length →
      (∀ {a : α} {b : β}, (a, b) ∈ xs.zip ys → g b = f a) → ys.map g = xs.map f
  | [], [], _, _ => rfl
  | x :: xs, y :: ys, hlength, h => by
    have htail := map_eq_of_zip (Nat.succ.inj hlength) fun hab => h (List.mem_cons_of_mem _ hab)
    rw [List.map_cons, List.map_cons, h List.mem_cons_self, htail]

/-! ## Terms with renamed trees -/

section Renamed

variable {ρ : Nat → Nat} {u : Term}

/-- The arguments of a renamed term are renamed. -/
theorem arguments_of_under_eq
    (h : u.under .exact .var = t.under .exact fun v => .var (ρ v)) :
    u.arguments.map (under .exact .var) = t.arguments.map (under .exact fun v => .var (ρ v)) := by
  cases u <;> cases t <;> simp only [under, reduceCtorEq] at h <;> try rfl
  obtain ⟨-, -, hargs⟩ := Tree.node.inj h
  rw [← underAll, ← underAll, underAll_eq_map, underAll_eq_map] at hargs
  exact hargs

/-- What is the same for a term and a renamed one is the same for the terms of two lists. -/
theorem map_eq_of_under_eq {β : Type} {g : Term → β} {ts : List Term} :
    ∀ {us : List Term},
      (∀ t ∈ ts, ∀ u : Term, u.under .exact .var = t.under .exact (fun v => .var (ρ v)) →
        g u = g t) →
      us.map (under .exact .var) = ts.map (under .exact fun v => .var (ρ v)) →
        us.map g = ts.map g := by
  induction ts with
  | nil =>
    intro us _ h
    rw [List.map_eq_nil_iff.mp h]
  | cons t ts ih =>
    intro us hg h
    obtain ⟨u, us, rfl, hhead, htail⟩ := List.map_eq_cons_iff.mp h
    rw [List.map_cons, List.map_cons, hg t List.mem_cons_self u hhead,
      ih (fun t ht => hg t (List.mem_cons_of_mem _ ht)) htail]

/-- Terms with one tree denote one tree under any substitution, and in any reading without
labels. -/
theorem under_eq_of_tree_eq {r : Reading Unit} {σ : Nat → Tree Unit}
    (h : u.under .exact .var = t.under .exact .var) : u.under r σ = t.under r σ := by
  induction t using induction_arguments generalizing u with
  | h t ih =>
    have hargs := arguments_of_under_eq (ρ := id) h
    cases u <;> cases t <;> simp only [under, Tree.var.injEq, Tree.leaf.injEq, reduceCtorEq] at h
    case var.var v w => rw [h]
    case atom.atom a b => rw [under, under, Leaf.atom.inj h]
    case int.int m n => rw [Leaf.int.inj h]
    case float.float x y =>
      have hxy : x = y := Leaf.float.inj h
      rw [hxy]
    case box.box b c => rw [under, under, Leaf.box.inj h]
    case compound.compound i f x xs j g y ys =>
      have hmap : (x :: xs).map (under r σ) = (y :: ys).map (under r σ) :=
        map_eq_of_under_eq (ρ := id) (fun z hz w => ih z hz) hargs
      rw [under_compound, under_compound, hmap, (Tree.node.inj h).2.1]

end Renamed

/-! ## Structural equality -/

theorem eqvAll_of_map_eq {β : Type} {g : Term → β} :
    ∀ {xs ys : List Term}, (∀ x ∈ xs, ∀ y ∈ ys, g x = g y → x.eqv y = true) →
      xs.map g = ys.map g → eqvAll xs ys = true
  | [], [], _, _ => rfl
  | x :: xs, y :: ys, heqv, h => by
    obtain ⟨hhead, htail⟩ := List.cons.inj h
    have hrest := eqvAll_of_map_eq
      (fun x hx y hy => heqv x (List.mem_cons_of_mem _ hx) y (List.mem_cons_of_mem _ hy)) htail
    rw [eqvAll, heqv x List.mem_cons_self y List.mem_cons_self hhead, hrest]
    rfl

/-- Equal lists have equal images, if equal terms have. -/
theorem map_eq_of_eqvAll {β : Type} {g : Term → β} :
    ∀ {xs ys : List Term}, (∀ x ∈ xs, ∀ y ∈ ys, x.eqv y = true → g x = g y) →
      eqvAll xs ys = true → xs.map g = ys.map g
  | [], [], _, _ => rfl
  | x :: xs, y :: ys, heq, h => by
    rw [eqvAll, Bool.and_eq_true] at h
    rw [List.map_cons, List.map_cons, heq x List.mem_cons_self y List.mem_cons_self h.1,
      map_eq_of_eqvAll (fun x hx y hy =>
        heq x (List.mem_cons_of_mem _ hx) y (List.mem_cons_of_mem _ hy)) h.2]
  | [], _ :: _, _, h => nomatch h
  | _ :: _, [], _, h => nomatch h

/-- Terms without NaNs that denote one tree up to numeric equality are structurally equal. -/
theorem eqv_of_under_eq {a : Term} (ha : a.NaNFree) :
    ∀ {b : Term}, b.NaNFree → a.under .numeric .var = b.under .numeric .var → a.eqv b = true := by
  induction a using induction_arguments with
  | h a ih =>
    intro b hb h
    -- terms of different kinds do not denote one tree, so the kinds agree in what is left
    cases a <;> cases b <;> simp only [under, Tree.leaf.injEq, reduceCtorEq] at h
    case var.var v w =>
      cases h
      simp [eqv]
    case atom.atom x y => simpa [eqv, Atom.eqv] using h
    case int.int m n => simpa [eqv] using h
    case float.float x y => exact (Binary64.eqv_iff ha.here hb.here).mpr (Leaf.float.inj h)
    case box.box b c => simpa [eqv] using h
    case compound.compound i f x xs j g y ys =>
      obtain ⟨-, hname, hargs⟩ := Tree.node.inj h
      rw [← underAll, ← underAll, underAll_eq_map, underAll_eq_map] at hargs
      have hlength : xs.length = ys.length := by simpa using congrArg List.length hargs
      have hall : (x.eqv y && eqvAll xs ys) = true :=
        eqvAll_of_map_eq (fun x hx y hy => ih x hx (ha.arg hx) (hb.arg hy)) hargs
      simp [eqv, hall, hlength, Atom.eqv, hname]

/-- Structurally equal terms denote one tree, if nodes with one identity are one node. -/
theorem under_eq_of_eqv {nodes : Nat → Term} {a : Term} (ha : a.Comparable nodes) :
    ∀ {b : Term}, b.Comparable nodes → a.eqv b = true →
      a.under .numeric .var = b.under .numeric .var := by
  induction a using induction_arguments with
  | h a ih =>
    intro b hb h
    cases a <;> cases b <;> simp only [eqv, Bool.false_eq_true] at h
    case var.var v w => simpa using h
    case atom.atom x y => simpa [under, Atom.eqv] using h
    case int.int m n => simpa [under] using h
    case float.float x y =>
      exact congrArg (fun z => Tree.leaf (.float z)) ((Binary64.eqv_iff ha.here hb.here).mp h)
    case box.box b c => simpa [under] using h
    case compound.compound i f x xs j g y ys =>
      -- nodes with one identity are not compared; they are one node of the table
      rcases Bool.or_eq_true_iff.mp h with hij | h
      · cases beq_iff_eq.mp hij
        rw [ha.here.symm.trans hb.here]
      · obtain ⟨⟨-, hname⟩, hall⟩ := by simpa only [Bool.and_eq_true] using h
        have hargs : (x :: xs).map (under .numeric .var) = (y :: ys).map (under .numeric .var) :=
          map_eq_of_eqvAll (fun x hx y hy => ih x hx (ha.arg hx) (hb.arg hy))
            (Bool.and_eq_true_iff.mpr hall)
        have hfunctor : f.name = g.name := by simpa [Atom.eqv] using hname
        rw [under_compound, under_compound, hargs, hfunctor]

/-- **Structural equality is equality of numeric trees**, for terms without NaNs whose nodes are
those of one table. -/
theorem eqv_iff_under_eq {nodes : Nat → Term} {a b : Term} (ha : a.Comparable nodes)
    (hb : b.Comparable nodes) :
    a.eqv b = true ↔ a.under .numeric .var = b.under .numeric .var :=
  ⟨under_eq_of_eqv ha hb, eqv_of_under_eq ha.nanFree hb.nanFree⟩

end Term

end Horn
