import Horn.Binary64.Text
import Horn.Proofs.Decimals
import Horn.Proofs.Numbers

/-!
# Floats as text

The text of a finite float is a sign and the digits of a number that lies in its neighbourhood. No
number lies in the neighbourhoods of two floats, as gaps between floats are halved and the numbers
halfway belong to even significands only. So the text tells the float.

- `Binary64.disjoint`: neighbourhoods of different magnitudes have no number in common.
- `Binary64.isWhole_of_holds`: only floats without a fraction have an integer near them.
- `Binary64.shortest_holds`: the fewest digits denote a number of the neighbourhood.
- `Binary64.exists_written`: the text of a finite float; `Binary64.text_inj`: it tells the float.
-/

namespace Horn

namespace Binary64

variable {x y : Binary64} {q : ℚ}

/-! ## Neighbourhoods of floats -/

/-- The distance to the next float away from zero. -/
def gap (x : Binary64) : Nat := 2 ^ (x.exponentField - 1)

/-- The gap below the number is half as wide as the one above it. -/
def IsNarrow (x : Binary64) : Prop := x.fraction = 0 ∧ 1 < x.exponentField

theorem gap_pos (x : Binary64) : 0 < x.gap := Nat.two_pow_pos _

theorem magnitude_eq (x : Binary64) : x.magnitude = x.significand * x.gap := rfl

theorem unit_neighbourhood (x : Binary64) : x.neighbourhood.unit = 4 * unitsPerOne := rfl

theorem value_neighbourhood (x : Binary64) : x.neighbourhood.value = 4 * x.magnitude := rfl

theorem high_neighbourhood (x : Binary64) :
    x.neighbourhood.high = 4 * x.magnitude + 2 * x.gap := rfl

/-- At a power of two the numbers below are twice as close, so the interval reaches less far down.
-/
theorem low_of_isNarrow (h : x.IsNarrow) : x.neighbourhood.low = 4 * x.magnitude - x.gap := by
  have hnarrow : (x.fraction == 0 && decide (1 < x.exponentField)) = true := by
    simpa [IsNarrow] using h
  rw [neighbourhood]
  exact congrArg (4 * x.magnitude - ·) (if_pos hnarrow)

/-- Elsewhere it reaches half a gap down. -/
theorem low_of_not_isNarrow (h : ¬x.IsNarrow) :
    x.neighbourhood.low = 4 * x.magnitude - 2 * x.gap := by
  have hwide : ¬(x.fraction == 0 && decide (1 < x.exponentField)) = true := by
    simpa [IsNarrow] using h
  rw [neighbourhood]
  exact congrArg (4 * x.magnitude - ·) (if_neg hwide)

/-- The bounds belong to the interval of an even significand, as ties are rounded to even. -/
theorem closed_neighbourhood : x.neighbourhood.closed = true ↔ x.significand % 2 = 0 := beq_iff_eq

theorem significand_lt (x : Binary64) : x.significand < 2 ^ 53 := by
  have := x.fraction_lt
  unfold significand
  split <;> omega

/-- A float with narrow neighbourhood is a power of two. -/
theorem IsNarrow.significand (h : x.IsNarrow) : x.significand = 2 ^ 52 := by
  obtain ⟨hfraction, hexponent⟩ := h
  rw [Binary64.significand, if_neg (by omega), hfraction]

/-- Above the least exponent, the significand of any other number has more than its leading bit. -/
theorem lt_significand_of_not_isNarrow (h : ¬x.IsNarrow) (hexponent : 1 < x.exponentField) :
    2 ^ 52 < x.significand := by
  have hfraction : x.fraction ≠ 0 := fun hzero => h ⟨hzero, hexponent⟩
  rw [significand, if_neg (by omega)]
  omega

/-- The last significand of a scale is odd. -/
theorem odd_of_succ_eq {n : Nat} (h : n + 1 = 2 ^ 53) : n % 2 ≠ 0 := by omega

/-- A number that differs from zero is at least a gap away from it. -/
theorem gap_le_magnitude (h : x.magnitude ≠ 0) : x.gap ≤ x.magnitude := by
  rw [magnitude_eq] at h ⊢
  exact Nat.le_mul_of_pos_left _ (Nat.pos_of_ne_zero (Nat.mul_ne_zero_iff.mp h).1)

/-- The neighbourhood begins at most half a gap below the number. -/
theorem low_bounds (x : Binary64) : 4 * x.magnitude - 2 * x.gap ≤ x.neighbourhood.low ∧
    x.neighbourhood.low ≤ 4 * x.magnitude - x.gap := by
  by_cases h : x.IsNarrow
  · rw [low_of_isNarrow h]
    omega
  · rw [low_of_not_isNarrow h]
    omega

/-- The lower bound, without a subtraction. -/
theorem low_add_of_isNarrow (h : x.IsNarrow) (hzero : x.magnitude ≠ 0) :
    x.neighbourhood.low + x.gap = 4 * x.magnitude := by
  have := gap_le_magnitude hzero
  rw [low_of_isNarrow h]
  omega

theorem low_add_of_not_isNarrow (h : ¬x.IsNarrow) (hzero : x.magnitude ≠ 0) :
    x.neighbourhood.low + 2 * x.gap = 4 * x.magnitude := by
  have := gap_le_magnitude hzero
  rw [low_of_not_isNarrow h]
  omega

theorem low_lt_value (h : x.magnitude ≠ 0) : x.neighbourhood.low < x.neighbourhood.value := by
  have := x.gap_pos
  have := x.low_bounds
  rw [value_neighbourhood]
  omega

theorem value_lt_high (x : Binary64) : x.neighbourhood.value < x.neighbourhood.high := by
  have := x.gap_pos
  rw [high_neighbourhood, value_neighbourhood]
  omega

/-- A neighbourhood is so wide that it holds a number with seventeen digits. -/
theorem value_lt_width (h : x.magnitude ≠ 0) : x.neighbourhood.value <
    10 ^ 16 * (x.neighbourhood.high - x.neighbourhood.low) := by
  have hgap := x.gap_pos
  rw [value_neighbourhood, high_neighbourhood]
  by_cases hnarrow : x.IsNarrow
  · have hmagnitude : x.magnitude = 2 ^ 52 * x.gap := by rw [magnitude_eq, hnarrow.significand]
    have hlow := low_add_of_isNarrow hnarrow h
    omega
  · have hmagnitude : x.magnitude < 2 ^ 53 * x.gap := by
      rw [magnitude_eq]
      exact Nat.mul_lt_mul_of_pos_right x.significand_lt hgap
    have hlow := low_add_of_not_isNarrow hnarrow h
    omega

/-- The number itself lies in its neighbourhood. -/
theorem holds_self (h : q * unitsPerOne = x.magnitude) : x.neighbourhood.Holds q := by
  have hvalue : q * x.neighbourhood.unit = x.neighbourhood.value := by
    rw [unit_neighbourhood, value_neighbourhood]
    push_cast
    linarith
  by_cases hzero : x.magnitude = 0
  · have hsignificand : x.significand = 0 := by
      rw [magnitude_eq] at hzero
      exact (Nat.mul_eq_zero.mp hzero).resolve_right (Nat.ne_of_gt x.gap_pos)
    have hclosed : x.neighbourhood.closed = true :=
      closed_neighbourhood.mpr (by rw [hsignificand])
    have hlow : x.neighbourhood.low ≤ x.neighbourhood.value := by
      have := x.low_bounds
      rw [value_neighbourhood]
      omega
    rw [Neighbourhood.Holds, if_pos hclosed, hvalue]
    exact ⟨by exact_mod_cast hlow, by exact_mod_cast x.value_lt_high.le⟩
  · apply Neighbourhood.holds_of_inside
    · rw [hvalue]
      exact_mod_cast low_lt_value hzero
    · rw [hvalue]
      exact_mod_cast x.value_lt_high

/-! ## Different floats -/

/-- Gaps are the same or differ by a factor of two at least. -/
theorem gap_eq_or_lt (h : x.magnitude < y.magnitude) :
    x.gap = y.gap ∨ 2 * x.gap ≤ y.gap ∧ 1 < y.exponentField := by
  have hle : x.exponentField ≤ y.exponentField :=
    Nat.le_of_not_lt fun hlt => Nat.lt_asymm h (magnitude_lt hlt)
  unfold gap
  rcases Nat.lt_or_ge (x.exponentField - 1) (y.exponentField - 1) with hlt | hge
  · refine .inr ⟨?_, by omega⟩
    rw [Nat.mul_comm, ← Nat.pow_succ]
    exact Nat.pow_le_pow_right (by decide) hlt
  · rw [show x.exponentField - 1 = y.exponentField - 1 by omega]
    exact .inl rfl

/-- The neighbourhood of the smaller number ends where that of the other one begins, or before; and
where they meet, one of the significands is odd. -/
theorem high_le_low (h : x.magnitude < y.magnitude) :
    x.neighbourhood.high ≤ y.neighbourhood.low ∧
      (x.neighbourhood.high = y.neighbourhood.low →
        ¬(x.significand % 2 = 0 ∧ y.significand % 2 = 0)) := by
  have hx := x.gap_pos
  have hy : y.magnitude ≠ 0 := Nat.ne_zero_of_lt h
  have hbounds := y.low_bounds
  rw [high_neighbourhood]
  rcases gap_eq_or_lt h with heq | ⟨hgap, hexponent⟩
  · -- numbers of the same scale are a gap apart, and neighbours if the neighbourhoods meet
    have hlt : x.significand < y.significand := by
      rw [magnitude_eq, magnitude_eq, heq] at h
      exact Nat.lt_of_mul_lt_mul_right h
    have hnext : x.magnitude + x.gap ≤ y.magnitude := by
      rw [magnitude_eq, magnitude_eq, ← heq, ← Nat.succ_mul]
      exact Nat.mul_le_mul_right _ hlt
    refine ⟨by omega, fun hmeet => ?_⟩
    have hneighbour : (x.significand + 1) * x.gap = y.significand * x.gap := by
      have hmagnitude : x.magnitude + x.gap = y.magnitude := by omega
      rw [magnitude_eq, magnitude_eq, ← heq, ← Nat.succ_mul] at hmagnitude
      exact hmagnitude
    have := Nat.eq_of_mul_eq_mul_right hx hneighbour
    omega
  · -- the larger number is of a larger scale, so it has a leading bit
    have hlast : x.magnitude + x.gap ≤ 2 ^ 53 * x.gap := by
      rw [magnitude_eq, ← Nat.succ_mul]
      exact Nat.mul_le_mul_right _ x.significand_lt
    by_cases hnarrow : y.IsNarrow
    · have hmagnitude : y.magnitude = 2 ^ 52 * y.gap := by rw [magnitude_eq, hnarrow.significand]
      have hlow := low_add_of_isNarrow hnarrow hy
      refine ⟨by linarith, fun hmeet => ?_⟩
      -- the smaller number is the last one of its scale
      have hmax : (x.significand + 1) * x.gap = 2 ^ 53 * x.gap := by
        rw [Nat.add_mul, Nat.one_mul, ← magnitude_eq]
        linarith
      exact fun heven => odd_of_succ_eq (Nat.eq_of_mul_eq_mul_right hx hmax) heven.1
    · have hmagnitude : (2 ^ 52 + 1) * y.gap ≤ y.magnitude := by
        rw [magnitude_eq]
        exact Nat.mul_le_mul_right _ (lt_significand_of_not_isNarrow hnarrow hexponent)
      have hlow := low_add_of_not_isNarrow hnarrow hy
      have hlt : 4 * x.magnitude + 2 * x.gap < y.neighbourhood.low := by linarith
      exact ⟨hlt.le, fun hmeet => absurd hmeet hlt.ne⟩

/-- **No number lies in the neighbourhoods of two magnitudes.** -/
theorem disjoint (h : x.magnitude < y.magnitude) (hx : x.neighbourhood.Holds q) :
    ¬y.neighbourhood.Holds q := by
  intro hy
  obtain ⟨hle, hodd⟩ := high_le_low h
  have hcast : (x.neighbourhood.high : ℚ) ≤ y.neighbourhood.low := by exact_mod_cast hle
  have hupper := hx.bounds.2
  have hlower := hy.bounds.1
  rw [unit_neighbourhood] at hupper hlower
  have hmeet : x.neighbourhood.high = y.neighbourhood.low :=
    Nat.le_antisymm hle (by exact_mod_cast hlower.trans hupper)
  -- the number is the end of both neighbourhoods, so both of them have their ends
  have hclosed : x.neighbourhood.closed = true ∧ y.neighbourhood.closed = true := by
    unfold Neighbourhood.Holds at hx hy
    rw [unit_neighbourhood] at hx hy
    split at hx <;> split at hy
    · exact ⟨‹_›, ‹_›⟩
    all_goals linarith [hx.1, hx.2, hy.1, hy.2]
  exact hodd hmeet ⟨closed_neighbourhood.mp hclosed.1, closed_neighbourhood.mp hclosed.2⟩

/-- Floats near one number have one magnitude. -/
theorem magnitude_eq_of_holds (hx : x.neighbourhood.Holds q) (hy : y.neighbourhood.Holds q) :
    x.magnitude = y.magnitude := by
  rcases Nat.lt_trichotomy x.magnitude y.magnitude with hlt | heq | hlt
  · exact absurd hy (disjoint hlt hx)
  · exact heq
  · exact absurd hx (disjoint hlt hy)

/-! ## Integers and fractions -/

theorem unitsPerOne_pos : 0 < unitsPerOne := by
  unfold unitsPerOne
  positivity

/-- One is a multiple of the gap, or the other way round. -/
theorem gap_dvd_or_dvd (x : Binary64) : unitsPerOne ∣ x.gap ∨ x.gap ∣ unitsPerOne := by
  unfold unitsPerOne gap
  rcases Nat.le_total 1074 (x.exponentField - 1) with hle | hle
  · exact .inl (Nat.pow_dvd_pow (m := 1074) 2 hle)
  · exact .inr (Nat.pow_dvd_pow (n := 1074) 2 hle)

/-- A multiple of one that is half a gap away from the number at most is the number. -/
theorem dvd_magnitude {n : Nat} (hlow : 4 * x.magnitude ≤ n * (4 * unitsPerOne) + 2 * x.gap)
    (hhigh : n * (4 * unitsPerOne) ≤ 4 * x.magnitude + 2 * x.gap) : unitsPerOne ∣ x.magnitude := by
  rw [magnitude_eq] at hlow hhigh ⊢
  rcases x.gap_dvd_or_dvd with hdvd | ⟨m, hm⟩
  · exact Dvd.dvd.mul_left hdvd _
  · -- both are multiples of the gap
    have hgap := x.gap_pos
    have hmultiple : n * (4 * unitsPerOne) = 4 * (n * m) * x.gap := by
      rw [hm]
      ring
    rw [hmultiple] at hlow hhigh
    have hle : 4 * x.significand ≤ 4 * (n * m) + 2 := by
      refine Nat.le_of_mul_le_mul_right (c := x.gap) ?_ hgap
      rw [Nat.add_mul, Nat.mul_assoc]
      exact hlow
    have hge : 4 * (n * m) ≤ 4 * x.significand + 2 := by
      refine Nat.le_of_mul_le_mul_right (c := x.gap) ?_ hgap
      rw [Nat.add_mul, Nat.mul_assoc 4 x.significand]
      exact hhigh
    exact ⟨n, by rw [show x.significand = n * m by omega, hm]; ring⟩

/-- **A float near an integer is that integer.** -/
theorem isWhole_of_holds {n : Nat} (hfinite : x.isFinite = true) (h : x.neighbourhood.Holds n) :
    x.isWhole = true := by
  obtain ⟨hlow, hhigh⟩ := h.bounds
  rw [unit_neighbourhood] at hlow hhigh
  rw [high_neighbourhood] at hhigh
  have hbounds := x.low_bounds
  rw [← Nat.cast_mul, Nat.cast_le] at hlow hhigh
  have hdvd : unitsPerOne ∣ x.magnitude := dvd_magnitude (n := n) (by omega) hhigh
  rw [isWhole, hfinite, Bool.true_and, beq_iff_eq]
  exact Nat.mod_eq_zero_of_dvd hdvd

/-! ## Texts -/

/-- The fewest digits denote a number in the neighbourhood. -/
theorem shortest_holds (h : x.magnitude ≠ 0) : x.neighbourhood.Holds x.shortest.value := by
  rw [shortest, if_neg h]
  exact Decimal.shortest_holds (Nat.mul_pos (by decide) unitsPerOne_pos) (low_lt_value h)
    x.value_lt_high (value_lt_width h)

/-- They have places behind the point if the number has a fraction. -/
theorem exponent_shortest (hfinite : x.isFinite = true) (hwhole : x.isWhole = false) :
    x.shortest.exponent < 0 := by
  by_contra hexponent
  have hzero : x.magnitude ≠ 0 := fun hzero => by simp [isWhole, hfinite, hzero] at hwhole
  -- otherwise they would denote an integer
  have hinteger : x.shortest.value =
      (x.shortest.digits * 10 ^ x.shortest.exponent.toNat : ℕ) := by
    rw [Decimal.value, Nat.cast_mul, Nat.cast_pow, Nat.cast_ofNat, ← zpow_natCast,
      Int.toNat_of_nonneg (by omega)]
  have hholds := shortest_holds hzero
  rw [hinteger] at hholds
  rw [isWhole_of_holds hfinite hholds] at hwhole
  cases hwhole

theorem toList_signText_append (x : Binary64) (s : String) :
    (x.signText ++ s).toList = signed x.isNegative s.toList := by
  rw [String.toList_append, signText, signed]
  split <;> rfl

/-- **The text of a finite float** is its sign and the digits of a number in its neighbourhood,
written with a point. -/
theorem exists_written (h : x.isFinite = true) : ∃ l q, x.text.toList = signed x.isNegative l ∧
    Written l q ∧ x.neighbourhood.Holds q := by
  have hexponent : x.exponentField ≠ 2047 := by simpa [isFinite] using h
  have hnan : x.isNaN = false := by simp [isNaN, hexponent]
  have hinfinite : x.isInfinite = false := by simp [isInfinite, hexponent]
  unfold text
  simp only [hnan, hinfinite, Bool.false_eq_true, ↓reduceIte]
  by_cases hwhole : x.isWhole = true
  · rw [if_pos hwhole]
    have hmod : x.magnitude % unitsPerOne = 0 := by simpa [isWhole, h] using hwhole
    have hquotient : x.magnitude / unitsPerOne * unitsPerOne = x.magnitude :=
      Nat.div_mul_cancel (Nat.dvd_of_mod_eq_zero hmod)
    refine ⟨Nat.toDigits 10 (x.magnitude / unitsPerOne) ++ ['.', '0'], _, ?_,
      .intro _ ['0'] rfl (digits_toDigits _) digits_zero rfl, holds_self ?_⟩
    · rw [String.append_assoc, toList_signText_append, String.toList_append, toList_toString]
      rfl
    · have hread : Nat.ofDigitChars 10 (Nat.toDigits 10 (x.magnitude / unitsPerOne) ++ ['0']) 0 =
          10 * (x.magnitude / unitsPerOne) := by
        rw [Nat.ofDigitChars_append, Nat.ofDigitChars_ten_toDigits]
        rfl
      rw [hread, List.length_singleton, pow_one, Nat.cast_mul, Nat.cast_ofNat,
        mul_div_cancel_left₀ _ (by norm_num), ← Nat.cast_mul, hquotient]
  · rw [if_neg hwhole]
    have hwhole : x.isWhole = false := Bool.eq_false_of_not_eq_true hwhole
    have hzero : x.magnitude ≠ 0 := fun hzero => by simp [isWhole, h, hzero] at hwhole
    exact ⟨_, _, toList_signText_append _ _,
      Decimal.positional_written (exponent_shortest h hwhole), shortest_holds hzero⟩

/-- **The text tells the float.** -/
theorem text_inj (hx : x.isFinite = true) (hy : y.isFinite = true) (h : x.text = y.text) :
    x = y := by
  obtain ⟨l, p, htext, hwritten, hholds⟩ := exists_written hx
  obtain ⟨l', p', htext', hwritten', hholds'⟩ := exists_written hy
  rw [h, htext'] at htext
  obtain ⟨hsign, rfl⟩ := signed_inj hwritten'.begins hwritten.begins htext
  cases hwritten.unique hwritten'
  obtain ⟨hexponent, hfraction⟩ := magnitude_inj (magnitude_eq_of_holds hholds hholds')
  exact ext_fields hsign.symm hexponent hfraction

end Binary64

end Horn
