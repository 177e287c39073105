import Horn.Binary64

/-!
# Numeric equality of floats

Two patterns that are no NaNs are numerically equal if and only if they are one pattern once the two
zeros are taken for one. So floats modulo numeric equality are patterns again, which lets terms be
compared by plain equality of trees.

- `Binary64.magnitude_inj`: a magnitude has one exponent and one fraction.
- `Binary64.eqv_iff`: numeric equality is equality of `Binary64.unsignedZero`.
-/

namespace Horn

namespace Binary64

/-- The number itself, but `0.0` for either zero. -/
def unsignedZero (x : Binary64) : Binary64 := if x.magnitude = 0 then ⟨0⟩ else x

theorem fraction_lt (x : Binary64) : x.fraction < 2 ^ 52 := Nat.mod_lt _ (by decide)

/-- Numbers of one exponent are below those of the next. -/
theorem magnitude_lt {x y : Binary64} (h : x.exponentField < y.exponentField) :
    x.magnitude < y.magnitude := by
  have hx := x.fraction_lt
  have hy : y.magnitude = (2 ^ 52 + y.fraction) * 2 ^ (y.exponentField - 1) := by
    rw [magnitude, significand, if_neg (by omega)]
  have hbase : 2 ^ 52 * 2 ^ (y.exponentField - 1) ≤ y.magnitude := by
    rw [hy]
    exact Nat.mul_le_mul_right _ (Nat.le_add_right _ _)
  refine Nat.lt_of_lt_of_le ?_ hbase
  -- a subnormal has no leading bit, but its exponent counts as that of the least normal numbers
  by_cases hzero : x.exponentField = 0
  · have hxm : x.magnitude = x.fraction := by simp [magnitude, significand, hzero]
    have hpow : 1 ≤ 2 ^ (y.exponentField - 1) := Nat.one_le_two_pow
    rw [hxm]
    calc x.fraction < 2 ^ 52 * 1 := by omega
      _ ≤ 2 ^ 52 * 2 ^ (y.exponentField - 1) := Nat.mul_le_mul_left _ hpow
  · have hxm : x.magnitude = (2 ^ 52 + x.fraction) * 2 ^ (x.exponentField - 1) := by
      rw [magnitude, significand, if_neg hzero]
    have hpow : 0 < 2 ^ (x.exponentField - 1) := Nat.two_pow_pos _
    have hexp : x.exponentField - 1 + 1 ≤ y.exponentField - 1 := by omega
    rw [hxm]
    calc (2 ^ 52 + x.fraction) * 2 ^ (x.exponentField - 1)
        < (2 ^ 52 * 2) * 2 ^ (x.exponentField - 1) :=
          Nat.mul_lt_mul_of_pos_right (by omega) hpow
      _ = 2 ^ 52 * 2 ^ (x.exponentField - 1 + 1) := by
          rw [Nat.pow_succ 2 (x.exponentField - 1), Nat.mul_comm (2 ^ (x.exponentField - 1)) 2,
            Nat.mul_assoc]
      _ ≤ 2 ^ 52 * 2 ^ (y.exponentField - 1) :=
          Nat.mul_le_mul_left _ (Nat.pow_le_pow_right (by decide) hexp)

/-- A magnitude determines its exponent and its fraction. -/
theorem magnitude_inj {x y : Binary64} (h : x.magnitude = y.magnitude) :
    x.exponentField = y.exponentField ∧ x.fraction = y.fraction := by
  have hexp : x.exponentField = y.exponentField := by
    rcases Nat.lt_trichotomy x.exponentField y.exponentField with hlt | heq | hlt
    · exact absurd h (Nat.ne_of_lt (magnitude_lt hlt))
    · exact heq
    · exact absurd h.symm (Nat.ne_of_lt (magnitude_lt hlt))
  refine ⟨hexp, ?_⟩
  have hsig : x.significand = y.significand := by
    have hpow : 0 < 2 ^ (x.exponentField - 1) := Nat.two_pow_pos _
    rw [magnitude, magnitude, ← hexp] at h
    exact Nat.eq_of_mul_eq_mul_right hpow h
  unfold significand at hsig
  rw [hexp] at hsig
  split at hsig <;> omega

/-- Sign, exponent and fraction make up a pattern. -/
theorem ext_fields {x y : Binary64} (hsign : x.isNegative = y.isNegative)
    (hexp : x.exponentField = y.exponentField) (hfrac : x.fraction = y.fraction) : x = y := by
  have hx := x.bits.toNat_lt
  have hy := y.bits.toNat_lt
  simp only [isNegative, decide_eq_decide] at hsign
  unfold exponentField at hexp
  unfold fraction at hfrac
  have hbits : x.bits.toNat = y.bits.toNat := by omega
  cases x
  cases y
  exact congrArg Binary64.mk (UInt64.toNat_inj.mp hbits)

theorem units_eq_zero_iff (x : Binary64) : x.units = 0 ↔ x.magnitude = 0 := by
  unfold units
  split <;> omega

/-- Numeric equality is equality once the zeros are one. -/
theorem eqv_iff {x y : Binary64} (hx : x.isNaN = false) (hy : y.isNaN = false) :
    x.eqv y = true ↔ x.unsignedZero = y.unsignedZero := by
  have heqv : x.eqv y = true ↔ x.units = y.units := by simp [eqv, hx, hy]
  rw [heqv]
  constructor
  · intro h
    by_cases hzero : x.magnitude = 0
    · have hyzero : y.magnitude = 0 := by
        rw [← units_eq_zero_iff, ← h, units_eq_zero_iff]
        exact hzero
      simp [unsignedZero, hzero, hyzero]
    -- both differ from zero, so that the signs can be read off the numbers
    · have hmag : x.magnitude = y.magnitude := by
        unfold units at h
        split at h <;> split at h <;> omega
      have hsign : x.isNegative = y.isNegative := by
        unfold units at h
        split at h <;> split at h <;> first | omega | simp_all
      obtain ⟨hexp, hfrac⟩ := magnitude_inj hmag
      rw [ext_fields hsign hexp hfrac]
  · intro h
    unfold unsignedZero at h
    split at h <;> split at h
    · rename_i hxz hyz
      rw [(units_eq_zero_iff x).mpr hxz, (units_eq_zero_iff y).mpr hyz]
    · rename_i hyz
      exact absurd (h ▸ by decide) hyz
    · rename_i hxz _
      exact absurd (h ▸ by decide) hxz
    · rw [h]

end Binary64

end Horn
