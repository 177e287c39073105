import Horn.Text.Quoted
import Horn.Proofs.FloatTexts

/-!
# Lexemes of printed terms

A printed term begins with a lexeme: a variable, a number or a name. What lexeme it is can be told
from its characters, and where it ends too: those of a quoted name are decoded up to the closing
quote, and all others go on to the next comma or parenthesis.

- `Text.quoteChars_inj`: the characters of a quoted name are told up to the closing quote.
- `Lexeme.formOf_chars`: the form of a lexeme is told by its characters.
- `Lexeme.chars_append_inj`: where it ends is told by what follows.
- `Lexeme.append_inj`: the first lexeme is told, and what follows it.
-/

namespace Horn

/-! ## Quoted names -/

namespace Text

variable {c d : Char} {l m name name' : List Char}

/-- Quotes and backslashes are written with a backslash. -/
theorem quoteChar_of_special (h : c = '\\' ∨ c = '\'') : quoteChar c = ['\\', c] :=
  if_pos (by simpa using h)

theorem quoteChar_of_ordinary (h : ¬(c = '\\' ∨ c = '\'')) : quoteChar c = [c] :=
  if_neg (by simpa using h)

/-- No quoted character begins with a quote. -/
theorem quoteChar_append_ne : quoteChar c ++ l ≠ '\'' :: m := by
  by_cases hc : c = '\\' ∨ c = '\''
  · rw [quoteChar_of_special hc]
    exact fun h => absurd (List.cons.inj h).1 (by decide)
  · rw [quoteChar_of_ordinary hc]
    exact fun h => hc (.inr (List.cons.inj h).1)

/-- A quoted character can be told from what follows. -/
theorem quoteChar_append_inj (h : quoteChar c ++ l = quoteChar d ++ m) : c = d ∧ l = m := by
  by_cases hc : c = '\\' ∨ c = '\'' <;> by_cases hd : d = '\\' ∨ d = '\''
  · rw [quoteChar_of_special hc, quoteChar_of_special hd] at h
    exact List.cons.inj (List.cons.inj h).2
  · rw [quoteChar_of_special hc, quoteChar_of_ordinary hd] at h
    exact absurd (.inl (List.cons.inj h).1.symm) hd
  · rw [quoteChar_of_ordinary hc, quoteChar_of_special hd] at h
    exact absurd (.inl (List.cons.inj h).1) hc
  · rw [quoteChar_of_ordinary hc, quoteChar_of_ordinary hd] at h
    exact List.cons.inj h

/-- **The characters of a quoted name** are told up to the closing quote. -/
theorem quoteChars_inj
    (h : name.flatMap quoteChar ++ '\'' :: l = name'.flatMap quoteChar ++ '\'' :: m) :
    name = name' ∧ l = m := by
  induction name generalizing name' with
  | nil =>
    cases name' with
    | nil => exact ⟨rfl, (List.cons.inj h).2⟩
    | cons d name' =>
      rw [List.flatMap_cons, List.append_assoc] at h
      exact absurd h.symm quoteChar_append_ne
  | cons c name ih =>
    rw [List.flatMap_cons, List.append_assoc] at h
    cases name' with
    | nil => exact absurd h quoteChar_append_ne
    | cons d name' =>
      rw [List.flatMap_cons, List.append_assoc] at h
      obtain ⟨rfl, hrest⟩ := quoteChar_append_inj h
      obtain ⟨rfl, rfl⟩ := ih hrest
      exact ⟨rfl, rfl⟩

/-- The characters of a name as it stands in a printed term. -/
theorem toList_quoted (s : String) : (quoted s).toList =
    if isBare s then s.toList else '\'' :: (s.toList.flatMap quoteChar ++ ['\'']) := by
  unfold quoted
  split
  · rfl
  · rw [String.toList_append, String.toList_append, String.toList_ofList, String.toList_ofList]
    rfl

end Text

/-! ## Lexemes -/

/-- What a printed term can begin with. -/
inductive Lexeme where
  | var (v : Nat)
  | int (n : Int64)
  | float (x : Binary64)
  | name (s : String)

namespace Lexeme

/-- The characters of a lexeme. -/
def chars : Lexeme → List Char
  | var v => '_' :: Nat.toDigits 10 v
  | int n => (toString n.toInt).toList
  | float x => x.text.toList
  | name s => (Text.quoted s).toList

/-- Floats are to be finite. -/
def Finite : Lexeme → Prop
  | float x => x.isFinite = true
  | _ => True

/-- What sorts of lexemes there are. -/
inductive Form where
  | var
  | int
  | float
  | name
  deriving DecidableEq

def form : Lexeme → Form
  | var _ => .var
  | int _ => .int
  | float _ => .float
  | name _ => .name

/-- The form of a lexeme, told from its characters. A variable begins with an underscore; a number
begins with a minus sign or a digit and has a digit; and of numbers a float has a point. -/
def formOf (l : List Char) : Form :=
  if l.head? = some '_' then .var
  else if l.head?.any (fun c => c == '-' || c.isDigit) && l.any Char.isDigit then
    if l.contains '.' then .float else .int
  else .name

/-- The characters that end lexemes or quote them. -/
def delimiters : List Char := "(), '".toList

/-- A character of bare names and numbers. -/
def plain (c : Char) : Bool := !delimiters.contains c

variable {c : Char} {l m : Lexeme} {r r' : List Char}

/-- Characters of a set without delimiters are plain. -/
theorem plain_of {p : Char → Bool} (hp : (delimiters.all fun d => !p d) = true)
    (h : p c = true) : plain c = true := by
  unfold plain
  cases hc : delimiters.contains c with
  | false => rfl
  | true =>
    have hnot := List.all_eq_true.mp hp c (List.contains_iff_mem.mp hc)
    rw [h] at hnot
    cases hnot

/-! ## Forms -/

/-- A number is told by its first digit. -/
theorem formOf_signed {b : Bool} {l : List Char} (h : BeginsWithDigit l) :
    formOf (signed b l) = if l.contains '.' then .float else .int := by
  obtain ⟨c, rest, rfl, hc⟩ := h
  have hunderscore : c ≠ '_' := by
    rintro rfl
    exact absurd hc (by decide)
  unfold formOf
  cases b <;> simp [signed, hc, hunderscore]

/-- An integer is written as digits, behind a minus sign if it is negative. -/
theorem chars_int (n : Int64) :
    (int n).chars = signed (decide (n.toInt < 0)) (Nat.toDigits 10 n.toInt.natAbs) := by
  show (toString n.toInt).toList = _
  cases n.toInt with
  | ofNat k => exact toList_toString k
  | negSucc k =>
    show ("-" ++ toString (k + 1)).toList = _
    rw [String.toList_append, toList_toString, decide_eq_true (Int.negSucc_lt_zero k)]
    rfl

/-- Small letters are no digits. -/
theorem isDigit_of_isLower (h : c.isLower = true) : c.isDigit = false := by
  refine Bool.eq_false_iff.mpr fun hdigit => ?_
  have hlower : 'a'.val ≤ c.val := of_decide_eq_true (Bool.and_eq_true_iff.mp h).1
  have hupper : c.val ≤ '9'.val := of_decide_eq_true (Bool.and_eq_true_iff.mp hdigit).2
  exact absurd (UInt32.le_trans hlower hupper) (by decide)

/-- A word in lower case is a name. -/
theorem formOf_word {l : List Char} (h : Text.isWord l = true) : formOf l = .name := by
  cases l with
  | nil => cases h
  | cons c rest =>
    have hc : c.isLower = true := (Bool.and_eq_true_iff.mp h).1
    have hunderscore : c ≠ '_' := by
      rintro rfl
      exact absurd hc (by decide)
    have hminus : c ≠ '-' := by
      rintro rfl
      exact absurd hc (by decide)
    simp [formOf, hunderscore, hminus, isDigit_of_isLower hc]

/-- The symbol characters are none of those that numbers and variables are told by. -/
theorem formOf_symbolic {l : List Char} (h : Text.isSymbolic l = true) : formOf l = .name := by
  have hall : ∀ c ∈ l, c ∈ Text.symbolChars := fun c hc =>
    List.contains_iff_mem.mp (List.all_eq_true.mp (Bool.and_eq_true_iff.mp h).2 c hc)
  have hdigit : l.any Char.isDigit = false := by
    refine List.any_eq_false.mpr fun c hc => ?_
    have hsymbols : (Text.symbolChars.all fun c => !c.isDigit) = true := by decide
    simpa using List.all_eq_true.mp hsymbols c (hall c hc)
  have hhead : l.head? ≠ some '_' := fun hhead =>
    absurd (hall '_' (List.mem_of_mem_head? hhead)) (by decide)
  simp [formOf, hhead, hdigit]

/-- A name that stands as it is begins neither like a variable nor like a number. -/
theorem formOf_bare {s : String} (h : Text.isBare s = true) : formOf s.toList = .name := by
  rw [Text.isBare, Bool.or_eq_true, Bool.or_eq_true] at h
  obtain (hword | hsymbolic) | hsolo := h
  · exact formOf_word hword
  · exact formOf_symbolic hsymbolic
  · have hforms : (Text.soloNames.all fun s => formOf s.toList == .name) = true := by decide
    exact beq_iff_eq.mp (List.all_eq_true.mp hforms s (List.contains_iff_mem.mp hsolo))

/-- The first characters of what is written tell which form it has. -/
theorem formOf_chars (h : l.Finite) : formOf l.chars = l.form := by
  cases l with
  | var v => rfl
  | int n =>
    have hdigits := digits_toDigits n.toInt.natAbs
    -- an integer has digits only, a float has a point
    have hpoint : (Nat.toDigits 10 n.toInt.natAbs).contains '.' = false := by
      rw [List.contains_eq_mem, decide_eq_false_iff_not]
      exact fun hmem => absurd (hdigits.2 _ hmem) (by decide)
    rw [chars_int, formOf_signed hdigits.begins, hpoint]
    rfl
  | float x =>
    obtain ⟨l, q, htext, hwritten, -⟩ := Binary64.exists_written h
    have hpoint : l.contains '.' = true := by
      obtain ⟨whole, frac, rfl, -⟩ := hwritten
      exact List.contains_iff_mem.mpr (List.mem_append_right _ List.mem_cons_self)
    show formOf x.text.toList = _
    rw [htext, formOf_signed hwritten.begins, hpoint]
    rfl
  | name s =>
    show formOf (Text.quoted s).toList = _
    rw [Text.toList_quoted]
    split
    · rename_i hbare
      exact formOf_bare hbare
    · rfl

/-! ## Where lexemes end -/

theorem plain_digits {l : List Char} (h : ∀ c ∈ l, c.isDigit = true) : ∀ c ∈ l, plain c = true :=
  fun c hc => plain_of (by decide) (h c hc)

theorem signed_ne_nil {b : Bool} {l : List Char} (h : BeginsWithDigit l) : signed b l ≠ [] := by
  obtain ⟨c, rest, rfl, -⟩ := h
  cases b <;> exact List.cons_ne_nil _ _

/-- A sign may stand before plain characters. -/
theorem plain_signed {b : Bool} {l : List Char} (h : ∀ c ∈ l, plain c = true) :
    ∀ c ∈ signed b l, plain c = true := by
  cases b with
  | false => exact h
  | true => exact List.forall_mem_cons.mpr ⟨by decide, h⟩

theorem plain_written {l : List Char} {q : ℚ} (h : Written l q) : ∀ c ∈ l, plain c = true := by
  obtain ⟨whole, frac, rfl, hwhole, hfrac, -⟩ := h
  intro c hc
  rcases List.mem_append.mp hc with hc | hc
  · exact plain_digits hwhole.2 c hc
  · rcases List.mem_cons.mp hc with rfl | hc
    · decide
    · exact plain_digits hfrac.2 c hc

theorem plain_bare {s : String} (h : Text.isBare s = true) :
    s.toList ≠ [] ∧ ∀ c ∈ s.toList, plain c = true := by
  rw [Text.isBare, Bool.or_eq_true, Bool.or_eq_true] at h
  obtain (hword | hsymbolic) | hsolo := h
  · unfold Text.isWord at hword
    split at hword
    · cases hword
    · rename_i heq
      obtain ⟨hc, hrest⟩ := Bool.and_eq_true_iff.mp hword
      rw [heq]
      refine ⟨List.cons_ne_nil _ _, List.forall_mem_cons.mpr ⟨plain_of (by decide) hc, ?_⟩⟩
      exact fun d hd => plain_of (p := fun d => d.isAlphanum || d == '_') (by decide)
        (List.all_eq_true.mp hrest d hd)
  · obtain ⟨hne, hall⟩ := Bool.and_eq_true_iff.mp hsymbolic
    refine ⟨by simpa using hne, fun c hc => ?_⟩
    exact plain_of (p := Text.symbolChars.contains) (by decide) (List.all_eq_true.mp hall c hc)
  · -- there are few solo names, so all of them are tried
    have hsolos : (Text.soloNames.all fun s => !s.toList.isEmpty && s.toList.all plain) = true := by
      decide
    have hs := List.all_eq_true.mp hsolos s (List.contains_iff_mem.mp hsolo)
    obtain ⟨hne, hall⟩ := Bool.and_eq_true_iff.mp hs
    exact ⟨by simpa using hne, List.all_eq_true.mp hall⟩

/-- A lexeme that is not quoted has plain characters only. -/
theorem chars_cases (h : l.Finite) :
    (l.chars ≠ [] ∧ ∀ c ∈ l.chars, plain c = true) ∨
      ∃ name : List Char, l.chars = '\'' :: (name.flatMap Text.quoteChar ++ ['\'']) := by
  cases l with
  | var v =>
    refine .inl ⟨List.cons_ne_nil _ _, List.forall_mem_cons.mpr ⟨by decide, ?_⟩⟩
    exact plain_digits (digits_toDigits v).2
  | int n =>
    rw [chars_int]
    have hdigits := digits_toDigits n.toInt.natAbs
    exact .inl ⟨signed_ne_nil hdigits.begins, plain_signed (plain_digits hdigits.2)⟩
  | float x =>
    obtain ⟨l, q, htext, hwritten, -⟩ := Binary64.exists_written h
    show (x.text.toList ≠ [] ∧ ∀ c ∈ x.text.toList, _) ∨ _
    rw [htext]
    exact .inl ⟨signed_ne_nil hwritten.begins, plain_signed (plain_written hwritten)⟩
  | name s =>
    show ((Text.quoted s).toList ≠ [] ∧ ∀ c ∈ (Text.quoted s).toList, _) ∨
      ∃ name, (Text.quoted s).toList = _
    rw [Text.toList_quoted]
    split
    · rename_i hbare
      exact .inl (plain_bare hbare)
    · exact .inr ⟨s.toList, rfl⟩

/-- What comes after a lexeme: nothing, or a character that is not plain. -/
def Stops (r : List Char) : Prop := ∀ c ∈ r.head?, ¬plain c = true

/-- **Where a lexeme ends** is told by what follows. -/
theorem chars_append_inj (hl : l.Finite) (hm : m.Finite) (hr : Stops r) (hr' : Stops r')
    (h : l.chars ++ r = m.chars ++ r') : l.chars = m.chars ∧ r = r' := by
  -- plain characters do not begin with a quote
  have hquote : ∀ {as bs r r' : List Char}, as ≠ [] → (∀ c ∈ as, plain c = true) →
      as ++ r ≠ '\'' :: bs ++ r' := by
    intro as bs r r' hne hplain heq
    obtain ⟨c, rest, rfl⟩ := List.exists_cons_of_ne_nil hne
    have hc := hplain c List.mem_cons_self
    rw [(List.cons.inj heq).1] at hc
    exact absurd hc (by decide)
  rcases chars_cases hl with ⟨hne, hplain⟩ | ⟨name, hname⟩ <;>
    rcases chars_cases hm with ⟨hne', hplain'⟩ | ⟨name', hname'⟩
  · exact append_inj_of_stop hplain hplain' hr hr' h
  · rw [hname'] at h
    exact absurd h (hquote hne hplain)
  · rw [hname] at h
    exact absurd h.symm (hquote hne' hplain')
  · rw [hname, hname'] at h ⊢
    rw [List.cons_append, List.cons_append, List.append_assoc, List.append_assoc] at h
    have hrest := (List.cons.inj h).2
    obtain ⟨rfl, rfl⟩ := Text.quoteChars_inj hrest
    exact ⟨rfl, rfl⟩

/-- Names are told by how they stand in printed terms. -/
theorem quoted_inj {s s' : String} (h : Text.quoted s = Text.quoted s') : s = s' := by
  have hbare : ∀ {s : String} {m}, Text.isBare s = true → s.toList ≠ '\'' :: m := by
    intro s m hs heq
    have hc := (plain_bare hs).2 '\'' (heq ▸ List.mem_cons_self)
    exact absurd hc (by decide)
  have hchars := congrArg String.toList h
  rw [Text.toList_quoted, Text.toList_quoted] at hchars
  split at hchars <;> split at hchars
  · exact String.toList_inj.mp hchars
  · rename_i hs _
    exact absurd hchars (hbare hs)
  · rename_i hs
    exact absurd hchars.symm (hbare hs)
  · exact String.toList_inj.mp (Text.quoteChars_inj (List.cons.inj hchars).2).1

/-- **A lexeme is told by its characters.** -/
theorem chars_inj (hl : l.Finite) (hm : m.Finite) (h : l.chars = m.chars) : l = m := by
  have hform : l.form = m.form := by rw [← formOf_chars hl, ← formOf_chars hm, h]
  cases l <;> cases m <;> cases hform
  case var.var v w => rw [toDigits_inj.mp (List.cons.inj h).2]
  case int.int n k =>
    rw [chars_int, chars_int] at h
    obtain ⟨hsign, habs⟩ := signed_inj (digits_toDigits _).begins (digits_toDigits _).begins h
    have hsign := decide_eq_decide.mp hsign
    have habs := toDigits_inj.mp habs
    exact congrArg int (Int64.toInt_inj.mp (by omega))
  case float.float x y => exact congrArg float (Binary64.text_inj hl hm (String.toList_inj.mp h))
  case name.name s s' => exact congrArg name (quoted_inj (String.toList_inj.mp h))

/-- **The first lexeme** is told, and what follows it. -/
theorem append_inj (hl : l.Finite) (hm : m.Finite) (hr : Stops r) (hr' : Stops r')
    (h : l.chars ++ r = m.chars ++ r') : l = m ∧ r = r' := by
  obtain ⟨hchars, hrest⟩ := chars_append_inj hl hm hr hr' h
  exact ⟨chars_inj hl hm hchars, hrest⟩

end Lexeme

end Horn
