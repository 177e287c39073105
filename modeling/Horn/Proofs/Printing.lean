import Horn.Proofs.Generation
import Horn.Proofs.Lexemes
import Horn.Proofs.Rendering

/-!
# The printed form is unambiguous

The printed form of a term is a lexeme and, in parentheses, those of its arguments. As the lexeme is
told, printed arguments are told apart, and by induction on the levels of nesting a term is told by
its text. Black boxes all look alike, and below the last level that is printed so do all terms.

- `Term.toList_textAt`: the printed form as a lexeme and arguments.
- `Term.under_eq_tree`: the tree of a term is that of its lexeme and its arguments.
- `Term.told`: the induction on the levels; `Term.text_unambiguous`: what it comes to for the
  printed form proper.
-/

namespace Horn

/-- The tree that begins with a lexeme. A name without arguments is an atom. -/
def Lexeme.tree : Lexeme → List (Tree Unit) → Tree Unit
  | var v, _ => .var v
  | int n, _ => .leaf (.int n)
  | float x, _ => .leaf (.float x)
  | name s, [] => .leaf (.atom s)
  | name s, args => .node () s args

/-! ## Terms -/

namespace Term

variable {n : Nat} {t u x : Term} {xs ys : List Term} {r r' : List Char}

/-- What texts are told by: no black boxes, which look alike, and of floats the finite ones. -/
def Legible : Term → Prop
  | box _ => False
  | float x => x.isFinite = true
  | _ => True

/-- The first lexeme of a legible term. -/
def lexeme : Term → Lexeme
  | var v => .var v
  | atom a => .name a.name
  | int k => .int k
  | float x => .float x
  | box _ => .name ""
  | compound _ f _ _ => .name f.name

/-- What stands behind the first of the arguments, and before the end. -/
def restChars (n : Nat) : List Term → List Char
  | [] => [')']
  | x :: xs => ',' :: ' ' :: ((x.textAt n).toList ++ restChars n xs)

/-- What stands behind the first lexeme: the arguments in parentheses, if there are any. -/
def argumentChars (n : Nat) : List Term → List Char
  | [] => []
  | x :: xs => '(' :: ((x.textAt n).toList ++ restChars n xs)

theorem finite_lexeme (h : Legible t) : t.lexeme.Finite := by
  cases t <;> first | exact h | trivial

/-- The arguments of a node are written with commas between them, and a parenthesis after the last
one. -/
theorem toList_intercalate (n : Nat) (x : Term) (xs : List Term) :
    (", ".intercalate ((x :: xs).map (textAt n)) ++ ")").toList =
      (x.textAt n).toList ++ restChars n xs := by
  induction xs generalizing x with
  | nil =>
    rw [List.map_singleton, String.intercalate_singleton, String.toList_append]
    rfl
  | cons y ys ih =>
    rw [List.map_cons, List.map_cons, String.intercalate_cons_cons, ← List.map_cons,
      String.append_assoc, String.append_assoc, String.toList_append, String.toList_append, ih]
    rfl

/-- The printed form is a lexeme and the arguments. -/
theorem toList_textAt (h : Legible t) :
    (t.textAt (n + 1)).toList = t.lexeme.chars ++ argumentChars n t.arguments := by
  cases t with
  | compound i f x xs =>
    rw [textAt_compound, String.append_assoc, String.append_assoc, String.toList_append,
      String.toList_append, toList_intercalate]
    rfl
  | box _ => cases h
  | var v =>
    show ("_" ++ toString v).toList = '_' :: Nat.toDigits 10 v ++ []
    rw [String.toList_append, toList_toString, List.append_nil]
    rfl
  | _ => exact (List.append_nil _).symm

/-- The tree of a legible term is made of its first lexeme and the trees of its arguments. -/
theorem under_eq_tree (h : Legible t) :
    t.under .exact .var = t.lexeme.tree (t.arguments.map (under .exact .var)) := by
  cases t with
  | box _ => cases h
  | compound i f x xs => exact under_compound
  | _ => rfl

/-- The term is legible, and no deeper than the levels go that are printed. -/
structure Printed (n : Nat) (t : Term) : Prop where
  legible : t.Every Legible
  depth : t.depth < n

theorem Printed.arg (h : t.Printed (n + 1)) (hx : x ∈ t.arguments) : x.Printed n := by
  refine ⟨h.legible.arg hx, ?_⟩
  have hdepth := h.depth
  cases t with
  | compound i f y ys =>
    cases n with
    | zero => exact absurd (Nat.le_of_lt_succ hdepth) (Nat.not_succ_le_zero _)
    | succ n => exact Nat.lt_succ_of_le (depth_compound_le.mp (Nat.le_of_lt_succ hdepth) x hx)
  | _ => cases hx

/-- What comes after a term: nothing, a comma or a closing parenthesis. -/
def Ends (r : List Char) : Prop := ∀ c ∈ r.head?, c = ',' ∨ c = ')'

theorem Ends.stops (h : Ends r) : Lexeme.Stops r := by
  intro c hc
  rcases h c hc with rfl | rfl <;> decide

/-- What follows an argument begins with a comma or a parenthesis. -/
theorem ends_restChars (xs : List Term) : Ends (restChars n xs ++ r) := by
  cases xs with
  | nil => exact fun c hc => .inr (Option.some.inj hc).symm
  | cons => exact fun c hc => .inl (Option.some.inj hc).symm

/-- What follows a functor or a constant does not go on with it. -/
theorem stops_argumentChars (xs : List Term) (h : Ends r) :
    Lexeme.Stops (argumentChars n xs ++ r) := by
  cases xs with
  | nil => exact h.stops
  | cons =>
    intro c hc
    cases hc
    decide

theorem restChars_cons_append : restChars n (x :: xs) ++ r =
    ',' :: ' ' :: ((x.textAt n).toList ++ (restChars n xs ++ r)) := by
  rw [restChars, List.cons_append, List.cons_append, List.append_assoc]

/-- With `n` levels, the tree of a term is told from its text, and what follows too. -/
def Told (n : Nat) : Prop :=
  ∀ {t u : Term} {r r' : List Char}, t.Printed n → u.Printed n → Ends r → Ends r' →
    (t.textAt n).toList ++ r = (u.textAt n).toList ++ r' →
      t.under .exact .var = u.under .exact .var ∧ r = r'

/-- Further arguments are told one after the other. -/
theorem restChars_append_inj (h : Told n) (hxs : ∀ x ∈ xs, x.Printed n)
    (hys : ∀ y ∈ ys, y.Printed n) (heq : restChars n xs ++ r = restChars n ys ++ r') :
    xs.map (under .exact .var) = ys.map (under .exact .var) ∧ r = r' := by
  induction xs generalizing ys with
  | nil =>
    cases ys with
    | nil => exact ⟨rfl, (List.cons.inj heq).2⟩
    | cons y ys => exact absurd (List.cons.inj heq).1 (by decide)
  | cons x xs ih =>
    cases ys with
    | nil => exact absurd (List.cons.inj heq).1 (by decide)
    | cons y ys =>
      obtain ⟨hx, hxs⟩ := List.forall_mem_cons.mp hxs
      obtain ⟨hy, hys⟩ := List.forall_mem_cons.mp hys
      rw [restChars_cons_append, restChars_cons_append] at heq
      obtain ⟨hhead, hrest⟩ := h hx hy (ends_restChars xs) (ends_restChars ys)
        (List.cons.inj (List.cons.inj heq).2).2
      obtain ⟨htail, rfl⟩ := ih hxs hys hrest
      exact ⟨by rw [List.map_cons, List.map_cons, hhead, htail], rfl⟩

/-- **Arguments are told apart** from what follows them, and from each other, if terms are. -/
theorem argumentChars_append_inj (h : Told n) (hxs : ∀ x ∈ xs, x.Printed n)
    (hys : ∀ y ∈ ys, y.Printed n) (hr : Ends r) (hr' : Ends r')
    (heq : argumentChars n xs ++ r = argumentChars n ys ++ r') :
    xs.map (under .exact .var) = ys.map (under .exact .var) ∧ r = r' := by
  have hopen : ∀ {l m : List Char}, Ends l → l ≠ '(' :: m := by
    rintro _ m hl rfl
    exact absurd (hl '(' rfl) (by decide)
  cases xs with
  | nil =>
    cases ys with
    | nil => exact ⟨rfl, heq⟩
    | cons y ys => exact absurd heq (hopen hr)
  | cons x xs =>
    cases ys with
    | nil => exact absurd heq.symm (hopen hr')
    | cons y ys =>
      -- behind the parenthesis the arguments are told like further ones behind a comma
      exact restChars_append_inj h hxs hys (congrArg (',' :: ' ' :: ·) (List.cons.inj heq).2)

/-- **Terms are told by their texts**, by induction on the levels. -/
theorem told (n : Nat) : Told n := by
  induction n with
  | zero => exact fun ht => absurd ht.depth (Nat.not_lt_zero _)
  | succ n ih =>
    intro t u r r' ht hu hr hr' h
    rw [toList_textAt ht.legible.here, toList_textAt hu.legible.here, List.append_assoc,
      List.append_assoc] at h
    obtain ⟨hlexeme, hrest⟩ := Lexeme.append_inj (finite_lexeme ht.legible.here)
      (finite_lexeme hu.legible.here) (stops_argumentChars _ hr) (stops_argumentChars _ hr') h
    obtain ⟨hargs, rfl⟩ := argumentChars_append_inj ih (fun x hx => ht.arg hx)
      (fun x hx => hu.arg hx) hr hr' hrest
    refine ⟨?_, rfl⟩
    rw [under_eq_tree ht.legible.here, under_eq_tree hu.legible.here, hlexeme, hargs]

/-- **The printed form is unambiguous.** Two terms without black boxes, all of whose floats are
finite and which are not so deep that they are cut, have the same text only if they are the same
tree: the same variables, the same integers, floats of the same bits, and the same names. -/
theorem text_unambiguous (ht : t.Every Legible) (hu : u.Every Legible)
    (hdepth : t.depth ≤ printedDepth) (hdepth' : u.depth ≤ printedDepth) (h : t.text = u.text) :
    t.under .exact .var = u.under .exact .var := by
  have hchars : (t.textAt (printedDepth + 1)).toList ++ [] =
      (u.textAt (printedDepth + 1)).toList ++ [] := by
    rw [← text_eq, ← text_eq, h]
  have hends : Ends [] := nofun
  exact (told _ ⟨ht, Nat.lt_succ_of_le hdepth⟩ ⟨hu, Nat.lt_succ_of_le hdepth'⟩ hends hends hchars).1

/-- The two nodes that are printed as `'it\\'s'(_0, -0.5, -, -7)` have the same tree. -/
theorem text_unambiguous_quoted :
    let arguments : List Term :=
      [.float ⟨0xbfe0000000000000⟩, .atom ⟨"-", .interned 1⟩, .int (-7)]
    let t : Term := .compound 0 ⟨"it's", .interned 0⟩ (.var 0) arguments
    let u : Term := .compound 5 ⟨"it's", .interned 9⟩ (.var 0) arguments
    t.Every Legible ∧ t.depth ≤ printedDepth ∧ t.text = "'it\\'s'(_0, -0.5, -, -7)" ∧
      t.text = u.text ∧ t.under .exact .var = u.under .exact .var := by
  intro arguments t u
  have hfinite : Binary64.isFinite ⟨0xbfe0000000000000⟩ = true := by decide
  have ht : t.Every Legible := by simpa [t, arguments, Legible] using hfinite
  have hu : u.Every Legible := by simpa [u, arguments, Legible] using hfinite
  have hdepth : t.depth ≤ printedDepth := by decide
  have hdepth' : u.depth ≤ printedDepth := by decide
  have htext : t.text = "'it\\'s'(_0, -0.5, -, -7)" := by decide +kernel
  have htext' : u.text = "'it\\'s'(_0, -0.5, -, -7)" := by decide +kernel
  have h : t.text = u.text := htext.trans htext'.symm
  exact ⟨ht, hdepth, htext, h, text_unambiguous ht hu hdepth hdepth' h⟩

end Term

end Horn
