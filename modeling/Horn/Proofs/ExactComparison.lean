import Mathlib.Data.Rat.Floor
import Horn.Proofs.FloatTexts
import Horn.Proofs.NumericOrder

/-!
# An integer and a float are compared exactly

A finite pattern stands for a dyadic rational: its significand times a power of two. An integer and
a float are compared by these, without rounding either of them to the type of the other. The
routine gets there by guards at both ends of the integers, a truncation, a cast and a remainder; a
float that passes the guards has a whole part that is an integer of 64 bits, and the whole part and
the remainder are floats themselves, so that no step of it rounds or clamps.

- `Binary64.dyadic`: the number that a finite pattern stands for.
- `Binary64.exists_of_isMagnitude`: which numbers of units are floats.
- `Binary64.ReachesCast`: the guards are passed.
- `Binary64.orderInt_exact`: what the comparison decides, and that nothing in it saturates.
-/

namespace Horn

/-- A rational number rounded toward zero. -/
def truncate (q : ℚ) : ℤ := if q < 0 then ⌈q⌉ else ⌊q⌋

/-- Truncating a quotient is dividing towards zero. -/
theorem truncate_div (u : ℤ) {k : ℕ} (hk : 0 < k) : truncate ((u : ℚ) / k) = u.tdiv k := by
  have hk' : (0 : ℚ) < k := by exact_mod_cast hk
  unfold truncate
  split_ifs with h
  · rw [div_lt_iff₀ hk', zero_mul] at h
    have hu : u < 0 := by exact_mod_cast h
    rw [Rat.ceil_intCast_div_natCast, ← Int.tdiv_eq_ediv_of_nonneg (by omega), Int.neg_tdiv,
      neg_neg]
  · rw [not_lt, le_div_iff₀ hk', zero_mul] at h
    have hu : 0 ≤ u := by exact_mod_cast h
    rw [Rat.floor_intCast_div_natCast, Int.tdiv_eq_ediv_of_nonneg hu]

namespace Binary64

variable {x y : Binary64} {i : Int64}

/-! ## The number of a pattern -/

/-- The number that a finite pattern stands for: its significand, where a subnormal has the
exponent of the least normal numbers, with its sign. -/
def dyadic (x : Binary64) : ℚ :=
  (if x.isNegative then -1 else 1) * x.significand * 2 ^ ((max x.exponentField 1 : ℤ) - 1075)

/-- The scale of an exponent is a power of two over another one. -/
theorem scale_eq (e k : ℕ) {n : ℤ} (hn : n = k + 1) :
    (2 : ℚ) ^ ((max e 1 : ℤ) - n) = (2 ^ (e - 1) : ℕ) / (2 ^ k : ℕ) := by
  have hexp : (max e 1 : ℤ) - n = (e - 1 : ℕ) - (k : ℕ) := by omega
  rw [hexp, zpow_sub₀ two_ne_zero, zpow_natCast, zpow_natCast, Nat.cast_pow, Nat.cast_pow,
    Nat.cast_ofNat]

/-- Units are counted in the same measure. -/
theorem dyadic_eq (x : Binary64) : x.dyadic = (x.units : ℚ) / unitsPerOne := by
  have hscale : (2 : ℚ) ^ ((max x.exponentField 1 : ℤ) - 1075) = x.gap / unitsPerOne := by
    rw [scale_eq x.exponentField 1074 (by norm_num), gap, unitsPerOne]
  have hmagnitude : (x.magnitude : ℚ) = x.significand * x.gap := by
    rw [magnitude_eq, Nat.cast_mul]
  have hunits : (x.units : ℚ) = (if x.isNegative then -1 else 1) * x.magnitude := by
    unfold units
    split <;> simp
  rw [dyadic, hscale, hunits, hmagnitude, ← mul_div_assoc, mul_assoc]

/-- A finite number has its dyadic value. -/
theorem exact_of_isFinite (h : x.isFinite = true) : x.exact = ((x.dyadic : ℚ) : WithTop ℚ) := by
  have hinf : ¬x.isInfinite = true := by
    simp only [isFinite, bne_iff_ne] at h
    simp [isInfinite, h]
  rw [exact, if_neg hinf, dyadic_eq, oneUnits, Int.cast_natCast]

/-- The whole part is the value, truncated. -/
theorem wholePart_eq (x : Binary64) : x.wholePart = truncate x.dyadic := by
  rw [dyadic_eq, truncate_div x.units unitsPerOne_pos, wholePart]

/-! ## Which numbers are floats -/

/-- The pattern of a sign, an exponent and a fraction. -/
def ofFields (negative : Bool) (exponent fraction : ℕ) : Binary64 :=
  ⟨UInt64.ofNat ((if negative then 2 ^ 63 else 0) + exponent * 2 ^ 52 + fraction)⟩

section

variable {negative : Bool} {e f : ℕ} (he : e < 2 ^ 11) (hf : f < 2 ^ 52)

include he hf

/-- A pattern is the sum of its fields, each at its place. -/
theorem toNat_ofFields : (ofFields negative e f).bits.toNat =
    (if negative then 2 ^ 63 else 0) + e * 2 ^ 52 + f := by
  refine UInt64.toNat_ofNat_of_lt' ?_
  show _ < 2 ^ 64
  split <;> omega

theorem isNegative_ofFields : (ofFields negative e f).isNegative = negative := by
  rw [isNegative, toNat_ofFields he hf]
  cases negative <;> simp <;> omega

theorem exponentField_ofFields : (ofFields negative e f).exponentField = e := by
  rw [exponentField, toNat_ofFields he hf]
  split <;> omega

theorem fraction_ofFields : (ofFields negative e f).fraction = f := by
  rw [fraction, toNat_ofFields he hf]
  split <;> omega

end

/-- A number of units that fits the significand of a float after a shift in range. -/
def IsMagnitude (m : ℕ) : Prop := ∃ s < 2 ^ 53, ∃ k ≤ 2045, m = s * 2 ^ k

/-- A significand with its leading bit is that of a float at every exponent in range. -/
theorem exists_normal (negative : Bool) {k s : ℕ} (hk : k ≤ 2045) (hs : s < 2 ^ 53)
    (hlead : 2 ^ 52 ≤ s) :
    ∃ y : Binary64, y.isFinite = true ∧ y.isNegative = negative ∧ y.magnitude = s * 2 ^ k := by
  have he : k + 1 < 2 ^ 11 := by omega
  have hf : s - 2 ^ 52 < 2 ^ 52 := by omega
  refine ⟨ofFields negative (k + 1) (s - 2 ^ 52), ?_, isNegative_ofFields he hf, ?_⟩
  · rw [isFinite, exponentField_ofFields he hf, bne_iff_ne]
    omega
  · rw [magnitude, significand, exponentField_ofFields he hf, fraction_ofFields he hf,
      if_neg (by omega), Nat.add_sub_cancel' hlead, Nat.add_sub_cancel]

/-- Every such number is the magnitude of a float, of either sign. -/
theorem exists_of_isMagnitude (negative : Bool) {m : ℕ} (h : IsMagnitude m) :
    ∃ y : Binary64, y.isFinite = true ∧ y.isNegative = negative ∧ y.magnitude = m := by
  obtain ⟨s, hs, k, hk, rfl⟩ := h
  -- the significand is shifted until it has its leading bit or the exponent is the least
  induction k generalizing s with
  | zero =>
    by_cases hlead : 2 ^ 52 ≤ s
    · exact exists_normal negative hk hs hlead
    · have hf : s < 2 ^ 52 := by omega
      refine ⟨ofFields negative 0 s, ?_, isNegative_ofFields (by decide) hf, ?_⟩
      · rw [isFinite, exponentField_ofFields (by decide) hf]
        rfl
      · rw [magnitude, significand, exponentField_ofFields (by decide) hf,
          fraction_ofFields (by decide) hf, if_pos rfl]
  | succ k ih =>
    by_cases hlead : 2 ^ 52 ≤ s
    · exact exists_normal negative hk hs hlead
    · have hshift : s * 2 ^ (k + 1) = 2 * s * 2 ^ k := by
        rw [Nat.pow_succ, Nat.mul_comm 2 s, Nat.mul_assoc, Nat.mul_comm 2]
      rw [hshift]
      exact ih (2 * s) (by omega) (by omega)

theorem exponentField_of_isFinite (h : x.isFinite = true) : x.exponentField - 1 ≤ 2045 := by
  have hle := x.exponentField_le
  simp only [isFinite, bne_iff_ne] at h
  omega

/-- The whole part of a float is a float. -/
theorem isMagnitude_whole (h : x.isFinite = true) :
    IsMagnitude (x.magnitude / unitsPerOne * unitsPerOne) := by
  rcases x.gap_dvd_or_dvd with hdvd | ⟨c, hc⟩
  · have hall : unitsPerOne ∣ x.magnitude := Dvd.dvd.mul_left hdvd _
    rw [Nat.div_mul_cancel hall]
    exact ⟨x.significand, x.significand_lt, x.exponentField - 1, exponentField_of_isFinite h, rfl⟩
  · have hdiv : x.magnitude / unitsPerOne = x.significand / c := by
      rw [magnitude_eq, hc, Nat.mul_comm, Nat.mul_div_mul_left _ _ x.gap_pos]
    have hlt : x.significand / c < 2 ^ 53 := (Nat.div_le_self _ _).trans_lt x.significand_lt
    rw [hdiv, unitsPerOne]
    exact ⟨x.significand / c, hlt, 1074, by decide, rfl⟩

/-- What is left of a float is a float. -/
theorem isMagnitude_rest (h : x.isFinite = true) : IsMagnitude (x.magnitude % unitsPerOne) := by
  rcases x.gap_dvd_or_dvd with hdvd | ⟨c, hc⟩
  · have hnone : x.magnitude % unitsPerOne = 0 := Nat.mod_eq_zero_of_dvd (Dvd.dvd.mul_left hdvd _)
    rw [hnone]
    exact ⟨0, by decide, 0, by decide, rfl⟩
  · have hmod : x.magnitude % unitsPerOne = x.significand % c * x.gap := by
      rw [magnitude_eq, hc, Nat.mul_comm, Nat.mul_mod_mul_left, Nat.mul_comm]
    have hlt : x.significand % c < 2 ^ 53 := (Nat.mod_le _ _).trans_lt x.significand_lt
    exact ⟨x.significand % c, hlt, x.exponentField - 1, exponentField_of_isFinite h, hmod⟩

/-- The number of a float. -/
def Representable (q : ℚ) : Prop := ∃ y : Binary64, y.isFinite = true ∧ y.dyadic = q

/-- A number of units is represented if its magnitude is that of some pattern. -/
theorem representable_of_units {negative : Bool} {m : ℕ} {u : ℤ} (hm : IsMagnitude m)
    (hu : u = if negative then -(m : ℤ) else m) : Representable ((u : ℚ) / unitsPerOne) := by
  obtain ⟨y, hfinite, hneg, hmag⟩ := exists_of_isMagnitude negative hm
  have hunits : y.units = u := by rw [units, hneg, hmag, hu]
  exact ⟨y, hfinite, by rw [dyadic_eq, hunits]⟩

/-- Truncating a float, and taking the whole part from it, does not round. -/
theorem representable_parts (h : x.isFinite = true) :
    Representable x.wholePart ∧ Representable (x.dyadic - x.wholePart) := by
  have hone : ((unitsPerOne : ℕ) : ℚ) ≠ 0 := by exact_mod_cast unitsPerOne_pos.ne'
  have hwhole : x.wholePart * unitsPerOne = if x.isNegative then
      -((x.magnitude / unitsPerOne * unitsPerOne : ℕ) : ℤ)
      else (x.magnitude / unitsPerOne * unitsPerOne : ℕ) := by
    rw [wholePart, units, Int.natCast_mul, Int.natCast_div]
    split
    · rw [Int.neg_tdiv, Int.neg_mul, Int.tdiv_eq_ediv_of_nonneg (Int.natCast_nonneg _)]
    · rw [Int.tdiv_eq_ediv_of_nonneg (Int.natCast_nonneg _)]
  have hrest : x.units - x.wholePart * unitsPerOne = if x.isNegative then
      -((x.magnitude % unitsPerOne : ℕ) : ℤ) else (x.magnitude % unitsPerOne : ℕ) := by
    have hsplit : x.magnitude / unitsPerOne * unitsPerOne + x.magnitude % unitsPerOne =
        x.magnitude := Nat.div_add_mod' _ _
    rw [hwhole, units]
    split <;> omega
  constructor
  · have hrep := representable_of_units (isMagnitude_whole h) hwhole
    rwa [Int.cast_mul, Int.cast_natCast, mul_div_cancel_right₀ _ hone] at hrep
  · have hrep := representable_of_units (isMagnitude_rest h) hrest
    rwa [Int.cast_sub, Int.cast_mul, Int.cast_natCast, sub_div, mul_div_cancel_right₀ _ hone,
      ← dyadic_eq] at hrep

/-! ## The comparison -/

/-- A float passes the guards of the comparison, so that its whole part is cast. -/
def ReachesCast (x : Binary64) : Prop :=
  ¬x.isNaN = true ∧ ¬(2 ^ 63 : ℤ) * unitsPerOne ≤ x.units ∧ ¬x.units < -(2 ^ 63 : ℤ) * unitsPerOne

/-- No infinity passes the guards. -/
theorem ReachesCast.isFinite (h : x.ReachesCast) : x.isFinite = true := by
  obtain ⟨hnan, hover, hunder⟩ := h
  have hlimit : 2 ^ 63 * (unitsPerOne : ℤ) < infinityUnits := integers_lt_infinity
  refine isFinite_of_not (Bool.eq_false_of_not_eq_true hnan) fun hinf => ?_
  have hunits := units_of_isInfinite hinf
  split at hunits <;> omega

/-- The guards are passed by the floats in the range of the integers. -/
theorem ReachesCast.bounds (h : x.ReachesCast) : -2 ^ 63 ≤ x.dyadic ∧ x.dyadic < 2 ^ 63 := by
  obtain ⟨-, hover, hunder⟩ := h
  have hone : (0 : ℚ) < (unitsPerOne : ℕ) := by exact_mod_cast unitsPerOne_pos
  rw [dyadic_eq, le_div_iff₀ hone, div_lt_iff₀ hone]
  exact ⟨by exact_mod_cast not_lt.mp hunder, by exact_mod_cast not_le.mp hover⟩

/-- The cast does not clamp. -/
theorem ReachesCast.saturate_toInt (h : x.ReachesCast) : x.saturate.toInt = x.wholePart := by
  obtain ⟨hnan, hover, hunder⟩ := h
  have hlow : -(2 ^ 63 * oneUnits) ≤ x.units := by
    rw [← Int.neg_mul]
    exact not_lt.mp hunder
  exact Binary64.saturate_toInt (Bool.eq_false_of_not_eq_true hnan) hlow (not_le.mp hover)

/-- What is compared there is the cast, and then zero with the part behind the point. -/
theorem ReachesCast.orderInt_eq (h : x.ReachesCast) (i : Int64) : orderInt i x =
    (compare i.toInt (truncate x.dyadic)).then (compare 0 (x.dyadic - truncate x.dyadic)) := by
  have hone : (0 : ℚ) < (unitsPerOne : ℕ) := by exact_mod_cast unitsPerOne_pos
  have hrest : x.dyadic - x.wholePart = (x.units.tmod unitsPerOne : ℤ) / unitsPerOne := by
    rw [Int.tmod_def, dyadic_eq, wholePart, eq_div_iff hone.ne', sub_mul,
      div_mul_cancel₀ _ hone.ne']
    push_cast
    rw [mul_comm]
  have hsign : compare 0 (x.units.tmod unitsPerOne) = compare 0 (x.dyadic - x.wholePart) := by
    rw [hrest]
    refine compare_congr ?_ ?_
    · rw [div_pos_iff_of_pos_right hone, Int.cast_pos]
    · rw [div_lt_iff₀ hone, zero_mul, Int.cast_lt_zero]
  rw [orderInt, if_neg h.1, if_neg h.2.1, if_neg h.2.2, compare_int64, h.saturate_toInt, hsign,
    wholePart_eq]

/-- **An integer and a finite number** are compared by their exact values. -/
theorem orderInt_finite (i : Int64) (h : x.isFinite = true) :
    orderInt i x = compare (i.toInt : ℚ) x.dyadic := by
  have hnan : x.isNaN = false := by
    simp only [Binary64.isFinite, bne_iff_ne] at h
    simp [isNaN, h]
  rw [orderInt_eq hnan, exact_of_isFinite h, exactInt]
  refine compare_congr ?_ ?_ <;> rw [WithBot.coe_lt_coe, WithTop.coe_lt_coe]

theorem orderInt_infinite (i : Int64) (h : x.isInfinite = true) :
    orderInt i x = if x.isNegative then .gt else .lt := by
  have hnan : x.isNaN = false := by
    simp only [isInfinite, Bool.and_eq_true, beq_iff_eq] at h
    simp [isNaN, h.2]
  rw [orderInt_eq hnan, exact, if_pos h, exactInt]
  split
  · exact compare_gt_iff_gt.mpr (WithBot.bot_lt_coe _)
  · rw [← WithBot.coe_top, compare_lt_iff_lt, WithBot.coe_lt_coe]
    exact WithTop.coe_lt_top _

/-- A NaN is on one side of all other floats. -/
theorem order_nan (hx : x.isNaN = true) (hy : y.isNaN = false) :
    y.order x = if x.isNegative then .gt else .lt := by
  rw [order_eq_place, Place.ofFloat, Place.ofFloat, hx, hy]
  cases x.isNegative
  · exact Place.order_of_side_lt (by simp)
  · exact Place.order_of_side_gt (by simp)

/-- A NaN is above every integer, or below if its sign is set. -/
theorem orderInt_nan (i : Int64) (h : x.isNaN = true) :
    orderInt i x = if x.isNegative then .gt else .lt := by
  rw [orderInt, if_pos h]

/-- **An integer and a float are compared exactly.** A finite float is compared by its dyadic
rational; an infinity or a NaN is on the side of its sign, a NaN where it is among the floats. If
the cast is reached, the number is in the range of the integers, the cast gives its truncation
without clamping it, and neither the truncation nor the subtraction after it rounds. -/
theorem orderInt_exact (i : Int64) (x : Binary64) :
    (x.isFinite = true → orderInt i x = compare (i.toInt : ℚ) x.dyadic) ∧
    (x.isInfinite = true → orderInt i x = if x.isNegative then .gt else .lt) ∧
    (x.isNaN = true → (orderInt i x = if x.isNegative then .gt else .lt) ∧
      ∀ y : Binary64, y.isNaN = false → y.order x = orderInt i x) ∧
    (x.ReachesCast →
      (x.isFinite = true ∧ -2 ^ 63 ≤ x.dyadic ∧ x.dyadic < 2 ^ 63) ∧
      (Int64.minValue.toInt ≤ truncate x.dyadic ∧ truncate x.dyadic ≤ Int64.maxValue.toInt) ∧
      x.saturate.toInt = truncate x.dyadic ∧
      (Representable (truncate x.dyadic) ∧ Representable (x.dyadic - truncate x.dyadic)) ∧
      orderInt i x =
        (compare i.toInt (truncate x.dyadic)).then (compare 0 (x.dyadic - truncate x.dyadic))) := by
  refine ⟨orderInt_finite i, orderInt_infinite i, fun hnan => ⟨orderInt_nan i hnan, ?_⟩,
    fun h => ?_⟩
  · intro y hy
    rw [order_nan hnan hy, orderInt_nan i hnan]
  · have hcast : x.saturate.toInt = truncate x.dyadic := by rw [h.saturate_toInt, wholePart_eq]
    have hparts := representable_parts h.isFinite
    rw [wholePart_eq] at hparts
    refine ⟨⟨h.isFinite, h.bounds⟩, ⟨?_, ?_⟩, hcast, hparts, h.orderInt_eq i⟩
    · rw [← hcast]
      exact x.saturate.minValue_le_toInt
    · rw [← hcast]
      exact x.saturate.toInt_le

/-- One more than `2 ^ 53` at the float `2 ^ 53`, zero at `-∞` and at a NaN, and the cast of
`-2.5`. -/
theorem orderInt_exact_at_edges :
    orderInt 9007199254740993 ⟨0x4340000000000000⟩ =
      compare ((9007199254740993 : Int64).toInt : ℚ) (dyadic ⟨0x4340000000000000⟩) ∧
    orderInt 0 ⟨0xfff0000000000000⟩ = .gt ∧
    (∀ y : Binary64, y.isNaN = false →
      y.order ⟨0x7ff8000000000000⟩ = orderInt 0 ⟨0x7ff8000000000000⟩) ∧
    ReachesCast ⟨0xc004000000000000⟩ ∧
    (saturate ⟨0xc004000000000000⟩).toInt = truncate (dyadic ⟨0xc004000000000000⟩) := by
  have hreached : ReachesCast ⟨0xc004000000000000⟩ :=
    ⟨by decide, by decide +kernel, by decide +kernel⟩
  exact ⟨(orderInt_exact 9007199254740993 ⟨0x4340000000000000⟩).1 (by decide),
    (orderInt_exact 0 ⟨0xfff0000000000000⟩).2.1 (by decide),
    ((orderInt_exact 0 ⟨0x7ff8000000000000⟩).2.2.1 (by decide)).2, hreached,
    ((orderInt_exact 0 ⟨0xc004000000000000⟩).2.2.2 hreached).2.2.1⟩

end Binary64

end Horn
