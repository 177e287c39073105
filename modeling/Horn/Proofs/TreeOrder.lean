import Mathlib.Data.List.Forall2
import Horn.Proofs.NumericOrder
import Horn.Proofs.Trees

/-!
# The order of trees

Trees are ordered by their outermost symbols and then by their branches from left to right. This is
the order of their symbols in the order in which they are read, so it is total because the order of
symbols is.

- `Symbol.order`: the order of the symbols that trees are made of.
- `Tree.order`: the order of trees.
- `Tree.order_eq_symbols`: it compares the sequences of symbols.
- `Tree.order_eq_iff`: the trees that it does not tell apart.
-/

namespace Horn

/-- The outermost symbol of a tree: its rank, and what decides the order in that rank. -/
@[ext]
structure Symbol where
  rank : Nat
  /-- The index of a variable, the arity of a node or the serial number of a black box. -/
  index : Nat := 0
  /-- The name of an atom or a functor. -/
  name : String := ""
  /-- The place of a number. -/
  place : Place := .ofInt 0

/-- Symbols are ordered by rank, then by index, name and place. -/
def Symbol.order : Symbol → Symbol → Ordering :=
  compareLex (compareOn rank) (compareLex (compareOn index) (compareLex (compareOn name)
    fun x y => x.place.order y.place))

/-- Symbols are compared by rank, then by index, then by name, then by place. -/
theorem Symbol.order_eq (x y : Symbol) : x.order y =
    (compare x.rank y.rank).then ((compare x.index y.index).then
      ((compare x.name y.name).then (x.place.order y.place))) := rfl

theorem Symbol.order_eq_iff {x y : Symbol} : x.order y = .eq ↔ x = y := by
  simp only [Symbol.order_eq, Ordering.then_eq_eq, Std.LawfulEqCmp.compare_eq_iff_eq,
    Place.order_eq_iff, Symbol.ext_iff]

instance : Std.OrientedCmp fun x y : Symbol => x.place.order y.place where
  eq_swap {x y} := (y.place.order_swap x.place).symm

instance : Std.TransCmp fun x y : Symbol => x.place.order y.place where
  isLE_trans {x _ z} hxy hyz :=
    (Std.TransCmp.isLE_trans hxy hyz : (x.place.order z.place).isLE)

instance : Std.TransCmp Symbol.order := by
  unfold Symbol.order
  infer_instance

/-- The symbol of a leaf. -/
def Leaf.symbol : Leaf → Symbol
  | atom name => { rank := Kind.atom.rank, name }
  | int n => { rank := Kind.int.rank, place := .ofInt n }
  | float x => { rank := Kind.float.rank, place := .ofFloat x }
  | box serial => { rank := Kind.box.rank, index := serial }

/-- The exact value of a number that is no NaN. -/
def Leaf.number? : Leaf → Option (WithBot (WithTop ℚ))
  | int n => some (Binary64.exactInt n)
  | float x => if x.isNaN then none else some x.exact
  | _ => none

/-- Two leaves that are numerically equal, or else the same: atoms of one name, one black box or
NaNs with the same bits. -/
def Leaf.Agrees (l m : Leaf) : Prop := l = m ∨ ∃ q, l.number? = some q ∧ m.number? = some q

/-- A number that is no NaN is found by its place. -/
theorem Leaf.number_eq_some {l : Leaf} {q : WithBot (WithTop ℚ)} :
    l.number? = some q ↔ l.symbol = { rank := Kind.int.rank, place := ⟨0, q, 0⟩ } := by
  cases l with
  | int n => simp [number?, symbol, Place.ofInt]
  | float x =>
    cases hx : x.isNaN
    · simp [number?, symbol, Place.ofFloat, hx, Kind.rank]
    · simp only [number?, symbol, Place.ofFloat, hx, if_true, reduceCtorEq, false_iff]
      intro h
      have hside := congrArg (fun x : Symbol => x.place.side) h
      dsimp only at hside
      split at hside <;> cases hside
  | _ => simp [number?, symbol, Kind.rank]

/-- Leaves that have no exact value are the same if their symbols are. -/
theorem Leaf.symbol_inj {l m : Leaf} (hl : l.number? = none) (hm : m.number? = none)
    (h : l.symbol = m.symbol) : l = m := by
  cases l <;> cases m
  case atom.atom x y => exact congrArg Leaf.atom (congrArg Symbol.name h)
  case box.box x y => exact congrArg Leaf.box (congrArg Symbol.index h)
  case float.float x y =>
    have hx : x.isNaN = true := by simpa [number?] using hl
    have hy : y.isNaN = true := by simpa [number?] using hm
    have hkey := congrArg (fun x : Symbol => x.place.pattern) h
    simp only [symbol, Place.ofFloat, hx, hy, if_true] at hkey
    exact congrArg Leaf.float (Binary64.patternKey_inj hkey)
  case int.atom | int.int | int.float | int.box => simp [number?] at hl
  case float.int => simp [number?] at hm
  all_goals cases congrArg Symbol.rank h

/-- Leaves agree if they have one symbol. -/
theorem Leaf.symbol_eq_iff {l m : Leaf} : l.symbol = m.symbol ↔ l.Agrees m := by
  constructor
  · intro h
    cases hl : l.number? with
    | some q => exact .inr ⟨q, hl, number_eq_some.mpr (h ▸ number_eq_some.mp hl)⟩
    | none =>
      refine .inl (symbol_inj hl ?_ h)
      cases hm : m.number? with
      | none => rfl
      | some q => rw [number_eq_some.mpr (h.trans (number_eq_some.mp hm))] at hl; cases hl
  · rintro (rfl | ⟨q, hl, hm⟩)
    · rfl
    · rw [number_eq_some.mp hl, number_eq_some.mp hm]

/-- A leaf has not the rank of a variable or of a node. -/
theorem Leaf.rank_symbol (l : Leaf) :
    l.symbol.rank ≠ Kind.var.rank ∧ l.symbol.rank ≠ Kind.compound.rank := by
  cases l <;> simp [symbol, Kind.rank]

namespace Tree

variable {ν : Type} {t u : Tree ν}

/-- The outermost symbol. -/
def symbol : Tree ν → Symbol
  | var v => { rank := Kind.var.rank, index := v }
  | leaf l => l.symbol
  | node _ name args => { rank := Kind.compound.rank, index := args.length, name }

mutual

/-- The order of trees. -/
def order : Tree ν → Tree ν → Ordering
  | node l f ts, node m g us =>
    ((node l f ts).symbol.order (node m g us).symbol).then (orderAll ts us)
  | t, u => t.symbol.order u.symbol

/-- The order of two lists of trees: the first trees that are not equal decide. -/
def orderAll : List (Tree ν) → List (Tree ν) → Ordering
  | [], [] => .eq
  | [], _ :: _ => .lt
  | _ :: _, [] => .gt
  | t :: ts, u :: us => (order t u).then (orderAll ts us)

end

mutual

/-- The symbols of a tree as they are read. -/
def symbols : Tree ν → List Symbol
  | node l f ts => (node l f ts).symbol :: symbolsAll ts
  | t => [t.symbol]

/-- The symbols of the trees of a list. -/
def symbolsAll : List (Tree ν) → List Symbol
  | [] => []
  | t :: ts => symbols t ++ symbolsAll ts

end

/-- The branches of a node. -/
def branches : Tree ν → List (Tree ν)
  | node _ _ ts => ts
  | _ => []

theorem symbols_eq (t : Tree ν) : t.symbols = t.symbol :: symbolsAll t.branches := by
  cases t <;> rfl

/-- Only nodes have the rank of nodes, and their arity is part of their symbol. -/
theorem length_branches_of_symbol_eq (h : t.symbol = u.symbol) :
    t.branches.length = u.branches.length := by
  have hrank := congrArg Symbol.rank h
  cases t <;> cases u
  case node.node => exact congrArg Symbol.index h
  case leaf.node l m g us => exact absurd hrank l.rank_symbol.2
  case node.leaf k f ts m => exact absurd hrank.symm m.rank_symbol.2
  all_goals first | rfl | cases hrank

/-- Branches are compared if the outermost symbols are equal. -/
theorem order_eq (t u : Tree ν) :
    t.order u = (t.symbol.order u.symbol).then (orderAll t.branches u.branches) := by
  cases t with
  | node l f ts =>
    cases u with
    | node m g us => rfl
    | var v => rfl
    | leaf m => cases m <;> rfl
  | var v =>
    cases u with
    | node m g us => rfl
    | _ => simp [order, branches, orderAll]
  | leaf l =>
    cases u with
    | node m g us => cases l <;> rfl
    | _ => simp [order, branches, orderAll]

/-- The comparison of two trees goes first where the symbols of trees are compared that more symbols
follow. -/
def Decides (t : Tree ν) : Prop :=
  ∀ (u : Tree ν) (r r' : List Symbol),
    List.compareLex Symbol.order (t.symbols ++ r) (u.symbols ++ r') =
      (t.order u).then (List.compareLex Symbol.order r r')

/-- The symbols of two lists of trees decide their order, if those of trees do. -/
theorem decidesAll {ts : List (Tree ν)} (h : ∀ t ∈ ts, t.Decides) :
    ∀ {us : List (Tree ν)} (r r' : List Symbol), ts.length = us.length →
      List.compareLex Symbol.order (symbolsAll ts ++ r) (symbolsAll us ++ r') =
        (orderAll ts us).then (List.compareLex Symbol.order r r') := by
  induction ts with
  | nil =>
    intro us r r' hlength
    cases List.length_eq_zero_iff.mp hlength.symm
    rfl
  | cons t ts ih =>
    intro us r r' hlength
    cases us with
    | nil => cases hlength
    | cons u us =>
      rw [symbolsAll, symbolsAll, List.append_assoc, List.append_assoc,
        h t List.mem_cons_self, ih (fun v hv => h v (List.mem_cons_of_mem _ hv)) r r'
          (Nat.succ.inj hlength), orderAll, Ordering.then_assoc]

/-- **The symbols of two trees decide their order**, by induction over the first one. -/
theorem decides (t : Tree ν) : t.Decides := by
  -- leaves and variables are trees without branches, so that one step does for all of them
  have step : ∀ t : Tree ν, (∀ a ∈ t.branches, a.Decides) → t.Decides := by
    intro t hbranches u r r'
    rw [symbols_eq, symbols_eq, List.cons_append, List.cons_append, List.compareLex_cons_cons,
      order_eq]
    cases hsymbols : t.symbol.order u.symbol with
    | eq =>
      -- the arity is part of the symbol, so neither list of branches runs out before the other
      have hlength := length_branches_of_symbol_eq (Symbol.order_eq_iff.mp hsymbols)
      rw [decidesAll hbranches r r' hlength]
      rfl
    | _ => rfl
  induction t with
  | node label name args ih => exact step _ ih
  | _ => exact step _ fun a ha => nomatch ha

/-- **The order of trees is the order of their symbols** as they are read. -/
theorem order_eq_symbols (t u : Tree ν) :
    t.order u = List.compareLex Symbol.order t.symbols u.symbols := by
  have h := t.decides u [] []
  rw [List.append_nil, List.append_nil, List.compareLex_nil_nil, Ordering.then_eq] at h
  exact h.symm

/-- The order of trees reverses when they are exchanged, and is transitive. -/
instance : Std.TransCmp (order : Tree ν → Tree ν → Ordering) where
  eq_swap {t u} := by
    rw [order_eq_symbols, order_eq_symbols]
    exact Std.OrientedCmp.eq_swap
  isLE_trans {t u v} := by
    rw [order_eq_symbols, order_eq_symbols, order_eq_symbols]
    exact Std.TransCmp.isLE_trans

/-- A tree is not before itself. -/
theorem orderAll_self (ts : List (Tree ν)) : orderAll ts ts = .eq := by
  induction ts with
  | nil => rfl
  | cons t ts ih =>
    have hself : t.order t = .eq := Std.ReflCmp.compare_self
    rw [orderAll, hself, ih]
    rfl

theorem orderAll_append {ts us : List (Tree ν)} (h : ts.length = us.length) (vs ws) :
    orderAll (ts ++ vs) (us ++ ws) = (orderAll ts us).then (orderAll vs ws) := by
  induction ts generalizing us with
  | nil =>
    cases List.length_eq_zero_iff.mp h.symm
    rfl
  | cons t ts ih =>
    cases us with
    | nil => cases h
    | cons u us =>
      rw [List.cons_append, List.cons_append, orderAll, orderAll, ih (Nat.succ.inj h),
        Ordering.then_assoc]

/-! ## Equal trees -/

/-- The trees agree in variables, names and arities, and in leaves as far as `Leaf.Agrees` goes. -/
inductive Agrees : Tree ν → Tree ν → Prop where
  | var (v : Nat) : Agrees (.var v) (.var v)
  | leaf {l m : Leaf} (h : l.Agrees m) : Agrees (.leaf l) (.leaf m)
  | node {l m : ν} {name : String} {ts us : List (Tree ν)} (h : List.Forall₂ Agrees ts us) :
      Agrees (.node l name ts) (.node m name us)

/-- Lists are equal in order when their trees are, one by one. -/
theorem orderAll_eq_iff {R : Tree ν → Tree ν → Prop} {ts : List (Tree ν)}
    (h : ∀ t ∈ ts, ∀ u, t.order u = .eq ↔ R t u) :
    ∀ us, orderAll ts us = .eq ↔ List.Forall₂ R ts us := by
  induction ts with
  | nil =>
    intro us
    cases us with
    | nil => simp [orderAll]
    | cons u us => exact ⟨nofun, nofun⟩
  | cons t ts ih =>
    intro us
    cases us with
    | nil => exact ⟨nofun, nofun⟩
    | cons u us =>
      rw [orderAll, Ordering.then_eq_eq, h t List.mem_cons_self,
        ih fun v hv => h v (List.mem_cons_of_mem _ hv), List.forall₂_cons]

/-- Trees agree if they have one outermost symbol and their branches agree. -/
theorem agrees_iff :
    t.Agrees u ↔ t.symbol = u.symbol ∧ List.Forall₂ Agrees t.branches u.branches := by
  constructor
  · rintro (_ | h | h)
    · exact ⟨rfl, .nil⟩
    · exact ⟨Leaf.symbol_eq_iff.mpr h, .nil⟩
    · exact ⟨by simp [symbol, h.length_eq], h⟩
  · rintro ⟨hsymbol, hbranches⟩
    have hrank := congrArg Symbol.rank hsymbol
    cases t <;> cases u
    case var.var v w => cases congrArg Symbol.index hsymbol; exact .var v
    case leaf.leaf l m => exact .leaf (Leaf.symbol_eq_iff.mp hsymbol)
    case node.node => cases congrArg Symbol.name hsymbol; exact .node hbranches
    case leaf.var l v => exact absurd hrank l.rank_symbol.1
    case leaf.node l m g us => exact absurd hrank l.rank_symbol.2
    case var.leaf v m => exact absurd hrank.symm m.rank_symbol.1
    case node.leaf k f ts m => exact absurd hrank.symm m.rank_symbol.2
    all_goals cases hrank

/-- **The order takes two trees for equal if and only if they agree.** -/
theorem order_eq_iff (t : Tree ν) : ∀ u, t.order u = .eq ↔ t.Agrees u := by
  have step : ∀ t : Tree ν, (∀ a ∈ t.branches, ∀ u, a.order u = .eq ↔ a.Agrees u) →
      ∀ u, t.order u = .eq ↔ t.Agrees u := by
    intro t hbranches u
    rw [order_eq, Ordering.then_eq_eq, Symbol.order_eq_iff, orderAll_eq_iff hbranches, agrees_iff]
  induction t with
  | node label name args ih => exact step _ ih
  | _ => exact step _ fun a ha => nomatch ha

end Tree

end Horn
