import Mathlib.Algebra.Order.Field.Power
import Mathlib.Tactic.Linarith
import Mathlib.Tactic.Ring
import Horn.Decimal

/-!
# Decimals as numbers

A decimal written with a point denotes a number, which can be told from its characters. The shortest
decimal of a neighbourhood lies in it: that takes at most seventeen digits if the neighbourhood is
not too narrow for its value.

- `Written`: characters that are digits, a point and digits, and the number that they denote.
- `signed_inj`: a sign before digits is told from them.
- `Neighbourhood.Holds`: the numbers of a neighbourhood.
- `Neighbourhood.contains_of_nearestInteger?`, `Neighbourhood.width_le_of_none`: what the choice of
  an integer tells.
- `Decimal.shortest_holds`: the shortest decimal lies in the neighbourhood.
- `Decimal.positional_written`: what is written denotes the decimal.
-/

namespace Horn

/-! ## Digits -/

/-- One or more decimal digits. -/
def Digits (l : List Char) : Prop := l ≠ [] ∧ ∀ c ∈ l, c.isDigit = true

/-- Digits, a point and digits, which denote the number `q`. -/
inductive Written (l : List Char) (q : ℚ) : Prop where
  | intro (whole frac : List Char) (eq : l = whole ++ '.' :: frac) (hwhole : Digits whole)
      (hfrac : Digits frac)
      (value : q = (Nat.ofDigitChars 10 (whole ++ frac) 0 : ℚ) / 10 ^ frac.length)

theorem digits_toDigits (n : Nat) : Digits (Nat.toDigits 10 n) :=
  ⟨Nat.toDigits_ne_nil, fun _ hc => Nat.isDigit_of_mem_toDigits (by decide) (by decide) hc⟩

theorem digits_zero : Digits ['0'] := ⟨nofun, List.forall_mem_singleton.mpr rfl⟩

theorem toList_toString (n : Nat) : (toString n).toList = Nat.toDigits 10 n := Nat.toList_repr

/-- Different numbers have different digits. -/
theorem toDigits_inj {m n : Nat} : Nat.toDigits 10 m = Nat.toDigits 10 n ↔ m = n := by
  refine ⟨fun h => ?_, fun h => h ▸ rfl⟩
  rw [← Nat.ofDigitChars_ten_toDigits (n := m), h, Nat.ofDigitChars_ten_toDigits]

theorem lt_ten_pow_digitCount (n : Nat) : n < 10 ^ digitCount n :=
  (Nat.length_toDigits_le_iff (by decide) Nat.length_toDigits_pos).mp (Nat.le_refl _)

/-- A number is at least the power of ten that has as many digits. -/
theorem ten_pow_le_of_pos {n : Nat} (h : 0 < n) : 10 ^ (digitCount n - 1) ≤ n := by
  by_cases hone : digitCount n - 1 = 0
  · rw [hone]
    exact h
  · refine Nat.le_of_not_lt fun hlt => ?_
    have hle : digitCount n ≤ digitCount n - 1 :=
      (Nat.length_toDigits_le_iff (by decide) (Nat.pos_of_ne_zero hone)).mpr hlt
    omega

/-- A list can be cut in one way only before the first element without a property. -/
theorem append_inj_of_stop {α : Type} {p : α → Prop} {as bs cs ds : List α} (has : ∀ a ∈ as, p a)
    (hbs : ∀ b ∈ bs, p b) (hcs : ∀ c ∈ cs.head?, ¬p c) (hds : ∀ d ∈ ds.head?, ¬p d)
    (h : as ++ cs = bs ++ ds) : as = bs ∧ cs = ds := by
  induction as generalizing bs with
  | nil =>
    cases bs with
    | nil => exact ⟨rfl, h⟩
    | cons b bs =>
      have hb : b ∈ cs.head? := by rw [show cs = b :: (bs ++ ds) from h]; rfl
      exact absurd (hbs b List.mem_cons_self) (hcs b hb)
  | cons a as ih =>
    cases bs with
    | nil =>
      have ha : a ∈ ds.head? := by rw [show ds = a :: (as ++ cs) from h.symm]; rfl
      exact absurd (has a List.mem_cons_self) (hds a ha)
    | cons b bs =>
      obtain ⟨rfl, htail⟩ := List.cons.inj h
      obtain ⟨rfl, rfl⟩ := ih (fun x hx => has x (List.mem_cons_of_mem _ hx))
        (fun x hx => hbs x (List.mem_cons_of_mem _ hx)) htail
      exact ⟨rfl, rfl⟩

/-- **Characters denote one number.** -/
theorem Written.unique {l : List Char} {p q : ℚ} (h : Written l p) (h' : Written l q) : p = q := by
  obtain ⟨whole, frac, rfl, hwhole, -, rfl⟩ := h
  obtain ⟨whole', frac', heq, hwhole', -, rfl⟩ := h'
  have hpoint : ∀ frac : List Char, ∀ c ∈ ('.' :: frac).head?, ¬c.isDigit = true := fun _ c hc => by
    cases hc
    decide
  obtain ⟨rfl, hfrac⟩ :=
    append_inj_of_stop hwhole.2 hwhole'.2 (hpoint frac) (hpoint frac') heq
  cases hfrac
  rfl

/-! ## Signs -/

/-- The first character is a digit. -/
def BeginsWithDigit (l : List Char) : Prop := ∃ c rest, l = c :: rest ∧ c.isDigit = true

/-- Characters behind a minus sign, or without one. -/
def signed (negative : Bool) (l : List Char) : List Char := if negative then '-' :: l else l

/-- What begins with digits begins with a digit, whatever follows. -/
theorem Digits.append_begins {l rest : List Char} (h : Digits l) : BeginsWithDigit (l ++ rest) := by
  obtain ⟨c, l, rfl⟩ := List.exists_cons_of_ne_nil h.1
  exact ⟨c, l ++ rest, rfl, h.2 c List.mem_cons_self⟩

theorem Digits.begins {l : List Char} (h : Digits l) : BeginsWithDigit l :=
  List.append_nil l ▸ h.append_begins

theorem Written.begins {l : List Char} {q : ℚ} (h : Written l q) : BeginsWithDigit l := by
  obtain ⟨whole, frac, rfl, hwhole, -, -⟩ := h
  exact hwhole.append_begins

/-- A sign can be told from digits. -/
theorem signed_inj {b b' : Bool} {l l' : List Char} (hl : BeginsWithDigit l)
    (hl' : BeginsWithDigit l') (h : signed b l = signed b' l') : b = b' ∧ l = l' := by
  have hminus : ∀ {l : List Char}, BeginsWithDigit l → ∀ m, l ≠ '-' :: m := by
    rintro l ⟨c, rest, rfl, hc⟩ m heq
    rw [(List.cons.inj heq).1] at hc
    exact absurd hc (by decide)
  cases b <;> cases b'
  · exact ⟨rfl, h⟩
  · exact absurd h (hminus hl _)
  · exact absurd h.symm (hminus hl' _)
  · exact ⟨rfl, (List.cons.inj h).2⟩

/-! ## Neighbourhoods -/

namespace Neighbourhood

variable {s : Neighbourhood} {c : Nat} {k : Int} {q : ℚ}

/-- The number lies in the neighbourhood. -/
def Holds (s : Neighbourhood) (q : ℚ) : Prop :=
  if s.closed then s.low ≤ q * s.unit ∧ q * s.unit ≤ s.high
  else s.low < q * s.unit ∧ q * s.unit < s.high

/-- A number in the closed neighbourhood. -/
theorem Holds.bounds (h : s.Holds q) : s.low ≤ q * s.unit ∧ q * s.unit ≤ s.high := by
  unfold Holds at h
  split at h
  · exact h
  · exact ⟨h.1.le, h.2.le⟩

/-- Inside there is no difference between open and closed. -/
theorem holds_of_inside (hlow : s.low < q * s.unit) (hhigh : q * s.unit < s.high) : s.Holds q := by
  unfold Holds
  split
  · exact ⟨hlow.le, hhigh.le⟩
  · exact ⟨hlow, hhigh⟩

/-- Multiplying by a power of ten, with a positive exponent on the one side or on the other. -/
theorem ten_zpow_mul (k : Int) : (10 : ℚ) ^ k * 10 ^ (-k).toNat = 10 ^ k.toNat := by
  rw [← zpow_natCast, ← zpow_natCast, ← zpow_add₀ (by norm_num)]
  congr 1
  omega

/-- A multiple of the unit lies in the rescaled neighbourhood if and only if the number that has
been scaled back lies in the neighbourhood. -/
theorem contains_rescale :
    (s.rescale k).contains (c * (s.rescale k).unit) = true ↔ s.Holds (c * 10 ^ k) := by
  have hpos : (0 : ℚ) < 10 ^ (-k).toNat := by positivity
  -- in units of the rescaled neighbourhood both sides are natural numbers
  have hscale :
      (c * 10 ^ k * s.unit : ℚ) * 10 ^ (-k).toNat = (c * (s.unit * 10 ^ k.toNat) : ℕ) := by
    push_cast
    rw [← ten_zpow_mul k]
    ring
  have hle : ∀ n : ℕ, (n : ℚ) ≤ c * 10 ^ k * s.unit ↔
      n * 10 ^ (-k).toNat ≤ c * (s.unit * 10 ^ k.toNat) := fun n => by
    rw [← mul_le_mul_iff_of_pos_right hpos, hscale]
    exact_mod_cast Iff.rfl
  have hge : ∀ n : ℕ, (c * 10 ^ k * s.unit : ℚ) ≤ n ↔
      c * (s.unit * 10 ^ k.toNat) ≤ n * 10 ^ (-k).toNat := fun n => by
    rw [← mul_le_mul_iff_of_pos_right hpos, hscale]
    exact_mod_cast Iff.rfl
  unfold Holds contains rescale
  dsimp only
  split
  · rw [Bool.and_eq_true, decide_eq_true_iff, decide_eq_true_iff, hle, hge]
  · rw [Bool.and_eq_true, decide_eq_true_iff, decide_eq_true_iff]
    exact and_congr (lt_iff_lt_of_le_iff_le (hge _).symm) (lt_iff_lt_of_le_iff_le (hle _).symm)

/-- The exponent is not too large. -/
theorem ten_zpow_le_value (hvalue : 0 < s.value) :
    (10 : ℚ) ^ (s.decimalExponent - 1) * s.unit ≤ s.value := by
  unfold decimalExponent
  split
  · rename_i hle
    -- the integer part of the value has as many digits as the exponent tells
    have hunit : s.unit * 10 ^ (digitCount (s.value / s.unit) - 1) ≤ s.value := by
      by_cases hzero : s.unit = 0
      · simp [hzero]
      · have hquot : 0 < s.value / s.unit := Nat.div_pos hle (Nat.pos_of_ne_zero hzero)
        calc s.unit * 10 ^ (digitCount (s.value / s.unit) - 1)
            ≤ s.unit * (s.value / s.unit) := Nat.mul_le_mul_left _ (ten_pow_le_of_pos hquot)
          _ ≤ s.value := Nat.mul_div_le _ _
    have hpos : 1 ≤ digitCount (s.value / s.unit) := Nat.length_toDigits_pos
    rw [← Int.natCast_one, ← Int.ofNat_sub hpos, zpow_natCast, mul_comm]
    exact_mod_cast hunit
  · -- so many places behind the point are zero
    have hlt := lt_ten_pow_digitCount ((s.unit - 1) / s.value)
    have hunit : s.unit ≤ s.value * 10 ^ digitCount ((s.unit - 1) / s.value) := by
      have := (Nat.div_lt_iff_lt_mul hvalue).mp hlt
      rw [Nat.mul_comm] at this
      omega
    rw [show (1 - digitCount ((s.unit - 1) / s.value) - 1 : ℤ) =
      -(digitCount ((s.unit - 1) / s.value) : ℤ) by omega, zpow_neg, zpow_natCast, mul_comm,
      ← div_eq_mul_inv, div_le_iff₀ (by positivity)]
    exact_mod_cast hunit

/-- The integer that is chosen lies in the neighbourhood. -/
theorem contains_of_nearestInteger? (h : s.nearestInteger? = some c) :
    s.contains (c * s.unit) = true := by
  unfold nearestInteger? at h
  dsimp only at h
  split at h
  · rename_i hbelow habove
    split at h <;> cases h <;> assumption
  all_goals cases h
  all_goals assumption

/-- What lies strictly between the bounds is in the interval, whether these belong to it or not. -/
theorem contains_of_inside (hlow : s.low < c) (hhigh : c < s.high) : s.contains c = true := by
  unfold contains
  split <;> simp <;> omega

/-- If none is chosen the neighbourhood is no wider than the unit. -/
theorem width_le_of_none (h : s.nearestInteger? = none) (hunit : 0 < s.unit)
    (hlow : s.low < s.value) (hhigh : s.value < s.high) : s.high ≤ s.low + s.unit := by
  have hbelow : s.value / s.unit * s.unit ≤ s.value := Nat.div_mul_le_self _ _
  have habove : s.value < (s.value / s.unit + 1) * s.unit := by
    rw [Nat.mul_comm]
    exact Nat.lt_mul_div_succ _ hunit
  have hnext : (s.value / s.unit + 1) * s.unit = s.value / s.unit * s.unit + s.unit := by
    rw [Nat.add_mul, Nat.one_mul]
  unfold nearestInteger? at h
  dsimp only at h
  split at h
  case h_4 hnot hnot' =>
    by_contra hwide
    -- one of the two multiples of the unit around the value would lie in the neighbourhood
    rcases Nat.lt_or_ge s.low (s.value / s.unit * s.unit) with hin | hout
    · rw [contains_of_inside hin (by omega)] at hnot
      cases hnot
    · rw [contains_of_inside (by omega) (by omega)] at hnot'
      cases hnot'
  all_goals first | (split at h <;> cases h) | cases h

end Neighbourhood

namespace Decimal

variable {s : Neighbourhood} {e : Int}

/-- The number that a decimal is. -/
def value (d : Decimal) : ℚ := d.digits * 10 ^ d.exponent

/-- What the search returns when it has found an integer. -/
theorem found_holds {n c : Nat} (h : (s.rescale (e - n)).nearestInteger? = some c) :
    s.Holds (if c = 10 ^ n then ⟨1, e⟩ else ⟨c, e - n⟩ : Decimal).value := by
  have hc : s.Holds (c * 10 ^ (e - n)) :=
    Neighbourhood.contains_rescale.mp (Neighbourhood.contains_of_nearestInteger? h)
  split
  · rename_i hpow
    have hvalue : (c * 10 ^ (e - n) : ℚ) = value ⟨1, e⟩ := by
      rw [value, hpow, Nat.cast_pow, ← zpow_natCast, Nat.cast_ofNat, ← zpow_add₀ (by norm_num),
        add_sub_cancel, Nat.cast_one, one_mul]
    rwa [← hvalue]
  · exact hc

/-- Seventeen digits are enough, as the neighbourhood is wide for its value. -/
theorem found_of_wide (hunit : 0 < s.unit) (hlow : s.low < s.value) (hhigh : s.value < s.high)
    (hwide : s.value < 10 ^ 16 * (s.high - s.low)) (he : (10 : ℚ) ^ (e - 1) * s.unit ≤ s.value) :
    (s.rescale (e - 17)).nearestInteger? ≠ none := by
  intro hnone
  have hpos : (0 : ℚ) < 10 ^ (-(e - 17)).toNat := by positivity
  have hup : 0 < 10 ^ (-(e - 17)).toNat := by positivity
  -- the neighbourhood would be narrower than the distance of numbers with seventeen digits
  have hwidth := Neighbourhood.width_le_of_none hnone (Nat.mul_pos hunit (by positivity))
    (Nat.mul_lt_mul_of_pos_right hlow hup) (Nat.mul_lt_mul_of_pos_right hhigh hup)
  have hstep : (s.high - s.low : ℚ) ≤ s.unit * 10 ^ (e - 17) := by
    rw [← mul_le_mul_iff_of_pos_right hpos, mul_assoc, Neighbourhood.ten_zpow_mul]
    have hcast : (s.high * 10 ^ (-(e - 17)).toNat : ℚ) ≤
        s.low * 10 ^ (-(e - 17)).toNat + s.unit * 10 ^ (e - 17).toNat := by exact_mod_cast hwidth
    linarith
  have hten : (10 : ℚ) ^ (e - 1) = 10 ^ 16 * 10 ^ (e - 17) := by
    rw [← zpow_natCast, ← zpow_add₀ (by norm_num)]
    congr 1
    push_cast
    ring
  have hvalue : (s.value : ℚ) < 10 ^ 16 * (s.high - s.low) := by
    have hle : s.low ≤ s.high := by omega
    rw [← Nat.cast_sub hle]
    exact_mod_cast hwide
  have : (s.value : ℚ) < s.value := calc
    (s.value : ℚ) < 10 ^ 16 * (s.high - s.low) := hvalue
    _ ≤ 10 ^ 16 * (s.unit * 10 ^ (e - 17)) := by gcongr
    _ = 10 ^ (e - 1) * s.unit := by rw [hten]; ring
    _ ≤ s.value := he
  exact lt_irrefl _ this

/-- The search ends with a decimal in the neighbourhood. -/
theorem search_holds (hunit : 0 < s.unit) (hlow : s.low < s.value) (hhigh : s.value < s.high)
    (hwide : s.value < 10 ^ 16 * (s.high - s.low))
    (he : (10 : ℚ) ^ (e - 1) * s.unit ≤ s.value) {tries n : Nat} (hn : tries + n = 17) :
    s.Holds (search s e (tries + 1) n).value := by
  induction tries generalizing n with
  | zero =>
    obtain rfl : n = 17 := by omega
    rw [search]
    split
    · rename_i h
      exact found_holds h
    · rename_i h
      exact absurd h (found_of_wide hunit hlow hhigh hwide he)
  | succ tries ih =>
    rw [search]
    split
    · rename_i h
      exact found_holds h
    · exact ih (by omega)

/-- **The shortest decimal lies in the neighbourhood**, if that is wide for its value. -/
theorem shortest_holds (hunit : 0 < s.unit) (hlow : s.low < s.value) (hhigh : s.value < s.high)
    (hwide : s.value < 10 ^ 16 * (s.high - s.low)) : s.Holds (shortest s).value :=
  search_holds hunit hlow hhigh hwide
    (Neighbourhood.ten_zpow_le_value (Nat.zero_lt_of_lt hlow)) rfl

/-! ## Writing decimals -/

theorem toList_zeros (n : Nat) : ("".pushn '0' n).toList = List.replicate n '0' := by
  rw [String.pushn_eq_repeat_push]
  induction n with
  | zero => rfl
  | succ n ih => rw [Nat.repeat, String.toList_push, ih, List.replicate_succ']

/-- Digits of which the last `p` stand behind the point, with zeros before them if they are
fewer. -/
theorem toList_positional {d : Decimal} {p : Nat} (hp : 0 < p) (h : d.exponent = -p) :
    (d.positional 0).toList =
      if digitCount d.digits ≤ p then
        '0' :: '.' :: (List.replicate (p - digitCount d.digits) '0' ++ Nat.toDigits 10 d.digits)
      else (Nat.toDigits 10 d.digits).take (digitCount d.digits - p) ++
        '.' :: (Nat.toDigits 10 d.digits).drop (digitCount d.digits - p) := by
  have hlength : (toString d.digits).length = digitCount d.digits := by
    rw [← String.length_toList, toList_toString, digitCount]
  unfold positional digitText
  dsimp only
  rw [if_neg (by omega), hlength, h]
  by_cases hle : digitCount d.digits ≤ p
  · rw [if_pos (by omega), if_pos hle, String.toList_append, String.toList_append, toList_zeros,
      toList_toString,
      show (-(digitCount d.digits + -p : ℤ)).toNat = p - digitCount d.digits by omega]
    rfl
  · rw [if_neg (by omega), if_neg hle, String.toList_append, String.toList_append,
      String.toList_ofList, String.toList_ofList, String.toList_ofList, toList_toString,
      show (digitCount d.digits + -p : ℤ).toNat = digitCount d.digits - p by omega]
    exact List.append_assoc _ _ _

/-- **A decimal with places behind the point** is written as digits, a point and digits, which
denote it. -/
theorem positional_written {d : Decimal} (h : d.exponent < 0) :
    Written (d.positional 0).toList d.value := by
  obtain ⟨p, hp⟩ := Int.eq_ofNat_of_zero_le (a := -d.exponent) (by omega)
  have hpos : 0 < p := by omega
  have hexp : d.exponent = -p := by omega
  have hvalue : d.value = d.digits / 10 ^ p := by
    rw [value, hexp, zpow_neg, zpow_natCast, div_eq_mul_inv]
  have hdigits := digits_toDigits d.digits
  have hlength : (Nat.toDigits 10 d.digits).length = digitCount d.digits := rfl
  have hpositive : 0 < digitCount d.digits := Nat.length_toDigits_pos
  rw [toList_positional hpos hexp, hvalue]
  split
  · -- zeros are written in front of the digits, which then all stand behind the point
    rename_i hle
    refine .intro ['0'] _ rfl digits_zero ⟨?_, ?_⟩ ?_
    · exact List.append_ne_nil_of_right_ne_nil _ hdigits.1
    · intro c hc
      rcases List.mem_append.mp hc with hc | hc
      · rw [List.eq_of_mem_replicate hc]
        decide
      · exact hdigits.2 c hc
    · rw [List.length_append, List.length_replicate, hlength, Nat.sub_add_cancel hle]
      simp [Nat.ofDigitChars_append, Nat.ofDigitChars_cons]
  · rename_i hnot
    refine .intro _ _ rfl ⟨?_, fun c hc => hdigits.2 c (List.mem_of_mem_take hc)⟩
      ⟨?_, fun c hc => hdigits.2 c (List.mem_of_mem_drop hc)⟩ ?_
    · rw [← List.length_pos_iff, List.length_take]
      omega
    · rw [← List.length_pos_iff, List.length_drop]
      omega
    · rw [List.take_append_drop, List.length_drop, hlength, Nat.ofDigitChars_ten_toDigits]
      congr 2
      omega

end Decimal

end Horn
