import Mathlib.Data.Rat.Cast.Order
import Mathlib.Order.Compare
import Mathlib.Order.WithBot
import Horn.Proofs.Numbers

/-!
# The order of numbers

Integers and floats are compared by three routines: integers with integers, floats with floats, and
an integer with a float. All three compare places on one line, where a number that is no NaN stands
at its exact value, the NaNs with the sign bit set come before all numbers and the others after
them.

- `Binary64.exact`: the exact value of a float, a rational number or an infinity.
- `Place`: a place on the line, and `Place.order` the order of places.
- `Binary64.order_eq_place`, `Binary64.orderInt_eq_place`: the routines compare places.
-/

namespace Horn

/-- Two comparisons agree if both directions of the strict orders do. -/
theorem compare_congr {α β : Type} [LinearOrder α] [LinearOrder β] {a b : α} {c d : β}
    (hlt : a < b ↔ c < d) (hgt : b < a ↔ d < c) : compare a b = compare c d := by
  rcases lt_trichotomy c d with h | h | h
  · rw [compare_lt_iff_lt.mpr h, compare_lt_iff_lt.mpr (hlt.mpr h)]
  · have hab : a = b := by
      refine le_antisymm ?_ ?_
      · exact not_lt.mp fun hba => absurd (hgt.mp hba) (not_lt.mpr h.le)
      · exact not_lt.mp fun hab => absurd (hlt.mp hab) (not_lt.mpr h.ge)
    rw [compare_eq_iff_eq.mpr h, compare_eq_iff_eq.mpr hab]
  · rw [compare_gt_iff_gt.mpr h, compare_gt_iff_gt.mpr (hgt.mpr h)]

/-- Comparing whole parts, and then zero with what is left, is comparing exactly. -/
theorem compare_tdiv_then {n u k : Int} (hk : 0 < k) :
    (compare n (u.tdiv k)).then (compare 0 (u.tmod k)) = compare (n * k) u := by
  have hu : k * u.tdiv k + u.tmod k = u := Int.mul_tdiv_add_tmod u k
  have hlt : u.tmod k < k := Int.tmod_lt_of_pos u hk
  have hgt : -k < u.tmod k := Int.lt_tmod_of_pos u hk
  rw [Int.mul_comm k] at hu
  rcases lt_trichotomy n (u.tdiv k) with h | h | h
  · have hle : (n + 1) * k ≤ u.tdiv k * k := Int.mul_le_mul_of_nonneg_right h hk.le
    rw [Int.add_mul, Int.one_mul] at hle
    have hless : n * k < u := by omega
    rw [compare_lt_iff_lt.mpr h, compare_lt_iff_lt.mpr hless]
    rfl
  · rw [compare_eq_iff_eq.mpr h, h]
    refine compare_congr ?_ ?_ <;> omega
  · have hle : (u.tdiv k + 1) * k ≤ n * k := Int.mul_le_mul_of_nonneg_right h hk.le
    rw [Int.add_mul, Int.one_mul] at hle
    have hmore : u < n * k := by omega
    rw [compare_gt_iff_gt.mpr h, compare_gt_iff_gt.mpr hmore]
    rfl

/-! ## Exact values -/

/-- The infinity without sign. -/
def Binary64.infinity : Binary64 := ⟨0x7ff0000000000000⟩

/-- The units of an infinity. -/
def infinityUnits : Int := Binary64.infinity.magnitude

/-- The units of the number one. -/
def oneUnits : Int := Binary64.unitsPerOne

/-- The value of a number of units, where so many that they stand for an infinity are one. -/
def ofUnits (u : Int) : WithBot (WithTop ℚ) :=
  if infinityUnits ≤ u then ⊤
  else if u ≤ -infinityUnits then ⊥
  else (((u : ℚ) / oneUnits : ℚ) : WithTop ℚ)

theorem infinityUnits_pos : 0 < infinityUnits := by
  have hlt : (⟨0⟩ : Binary64).magnitude < Binary64.infinity.magnitude :=
    Binary64.magnitude_lt (by decide)
  exact Int.ofNat_lt.mpr (Nat.zero_lt_of_lt hlt)

theorem oneUnits_pos : 0 < oneUnits := by
  have h : ∀ k, (0 : Int) < (2 ^ k : Nat) := fun k => Int.ofNat_lt.mpr (Nat.two_pow_pos k)
  unfold oneUnits Binary64.unitsPerOne
  exact h 1074

/-- Up to the infinities, more units are a larger value. -/
theorem ofUnits_lt {u w : Int} (hu : -infinityUnits ≤ u ∧ u ≤ infinityUnits)
    (hw : -infinityUnits ≤ w ∧ w ≤ infinityUnits) : ofUnits u < ofUnits w ↔ u < w := by
  have hpos := infinityUnits_pos
  unfold ofUnits
  split_ifs with h1 h2 h3 h4 h5 h6
  · simp; omega
  · simp; omega
  · simp; omega
  · simp; omega
  · simp; omega
  · simp [WithBot.bot_lt_coe]; omega
  · rw [← WithBot.coe_top, WithBot.coe_lt_coe]
    simp [WithTop.coe_lt_top]; omega
  · simp; omega
  · rw [WithBot.coe_lt_coe, WithTop.coe_lt_coe, div_lt_div_iff_of_pos_right]
    · exact Int.cast_lt
    · exact_mod_cast oneUnits_pos

namespace Binary64

/-- The exact value of a number that is no NaN. -/
def exact (x : Binary64) : WithBot (WithTop ℚ) :=
  if x.isInfinite then (if x.isNegative then ⊥ else ⊤)
  else (((x.units : ℚ) / oneUnits : ℚ) : WithTop ℚ)

variable {x y : Binary64} {i : Int64}

theorem exponentField_le (x : Binary64) : x.exponentField ≤ 2047 := by
  have h : x.exponentField < 2 ^ 11 := Nat.mod_lt _ (by decide)
  omega

/-- Only infinities have as many units as an infinity. -/
theorem units_of_isInfinite (h : x.isInfinite = true) :
    x.units = if x.isNegative then -infinityUnits else infinityUnits := by
  simp only [isInfinite, Bool.and_eq_true, beq_iff_eq] at h
  have hfield : infinity.exponentField = 2047 := by decide
  have hfraction : infinity.fraction = 0 := by decide
  have hmag : x.magnitude = infinity.magnitude := by
    unfold magnitude significand
    rw [h.1, h.2, hfield, hfraction]
  rw [units, hmag, infinityUnits]

/-- A finite number lies between the infinities. -/
theorem units_of_isFinite (h : x.isFinite = true) :
    -infinityUnits < x.units ∧ x.units < infinityUnits := by
  have hlt : x.magnitude < infinity.magnitude := by
    refine magnitude_lt ?_
    have hfield : infinity.exponentField = 2047 := by decide
    have hne : x.exponentField ≠ 2047 := by simpa [isFinite] using h
    have := x.exponentField_le
    omega
  have hmag : (x.magnitude : Int) < infinityUnits := Int.ofNat_lt.mpr hlt
  unfold units
  split <;> omega

theorem isFinite_of_not (hnan : x.isNaN = false) (hinf : ¬x.isInfinite = true) :
    x.isFinite = true := by
  simp [isNaN, isInfinite, isFinite] at *
  grind

/-- The exact value is that of the units. -/
theorem exact_eq (h : x.isNaN = false) : x.exact = ofUnits x.units := by
  have hpos := infinityUnits_pos
  unfold exact ofUnits
  by_cases hinf : x.isInfinite = true
  · rw [if_pos hinf, units_of_isInfinite hinf]
    cases x.isNegative
    · simp
    · have hle : ¬infinityUnits ≤ -infinityUnits := by omega
      simp [hle]
  · obtain ⟨hlow, hhigh⟩ := units_of_isFinite (isFinite_of_not h hinf)
    rw [if_neg hinf, if_neg (by omega), if_neg (by omega)]

theorem units_le (h : x.isNaN = false) : -infinityUnits ≤ x.units ∧ x.units ≤ infinityUnits := by
  have hpos := infinityUnits_pos
  by_cases hinf : x.isInfinite = true
  · rw [units_of_isInfinite hinf]
    split <;> omega
  · have := units_of_isFinite (isFinite_of_not h hinf)
    omega

/-- Floats that are no NaNs are compared by their exact values. -/
theorem compare_units (hx : x.isNaN = false) (hy : y.isNaN = false) :
    compare x.units y.units = compare x.exact y.exact := by
  rw [exact_eq hx, exact_eq hy]
  exact compare_congr (ofUnits_lt (units_le hx) (units_le hy)).symm
    (ofUnits_lt (units_le hy) (units_le hx)).symm

/-! ## An integer and a float -/

/-- The line of the floats is longer than that of the integers. -/
theorem integers_lt_infinity : 2 ^ 63 * oneUnits < infinityUnits := by
  let limit : Binary64 := ⟨0x43e0000000000000⟩
  have hlt : limit.magnitude < infinity.magnitude := magnitude_lt (by decide)
  have hpow : ∀ e k : Nat, e = k + 12 →
      (if e = 0 then 0 else 2 ^ 52 + 0) * 2 ^ (e - 1) = 2 ^ 63 * 2 ^ k := by
    intro e k h
    rw [if_neg (by omega), Nat.add_zero, ← Nat.pow_add, ← Nat.pow_add]
    congr 1
    omega
  have hlimit : limit.magnitude = 2 ^ 63 * unitsPerOne := by
    have hfield : limit.exponentField = 1086 := by decide
    have hfraction : limit.fraction = 0 := by decide
    unfold magnitude significand unitsPerOne
    rw [hfield, hfraction]
    exact hpow 1086 1074 (by decide)
  have hcast : (limit.magnitude : Int) = 2 ^ 63 * oneUnits := by
    rw [hlimit, Int.natCast_mul]
    rfl
  rw [← hcast]
  exact Int.ofNat_lt.mpr hlt

/-- The exact value of an integer. -/
def exactInt (i : Int64) : WithBot (WithTop ℚ) := ((i.toInt : ℚ) : WithTop ℚ)

theorem compare_int64 (i j : Int64) : compare i j = compare i.toInt j.toInt := by
  show compareOfLessAndEq i j = compareOfLessAndEq i.toInt j.toInt
  simp only [compareOfLessAndEq, Int64.lt_iff_toInt_lt, ← Int64.toInt_inj]

/-- An integer lies between the infinities. -/
theorem int_units_le (i : Int64) :
    -infinityUnits < i.toInt * oneUnits ∧ i.toInt * oneUnits < infinityUnits := by
  have hlimit := integers_lt_infinity
  have hone := oneUnits_pos
  have hlow : -2 ^ 63 * oneUnits ≤ i.toInt * oneUnits :=
    Int.mul_le_mul_of_nonneg_right i.le_toInt hone.le
  have hhigh : i.toInt * oneUnits < 2 ^ 63 * oneUnits :=
    Int.mul_lt_mul_of_pos_right i.toInt_lt hone
  omega

/-- The exact value of an integer, in units. -/
theorem exactInt_eq (i : Int64) : exactInt i = ofUnits (i.toInt * oneUnits) := by
  obtain ⟨hlow, hhigh⟩ := int_units_le i
  have hone : ((oneUnits : Int) : ℚ) ≠ 0 := by exact_mod_cast oneUnits_pos.ne'
  rw [exactInt, ofUnits, if_neg (by omega), if_neg (by omega), Int.cast_mul,
    mul_div_cancel_right₀ _ hone]

/-- Comparing whole parts finds out which of an integer and a number of units is larger. -/
theorem saturate_toInt (hnan : x.isNaN = false) (hlow : -(2 ^ 63 * oneUnits) ≤ x.units)
    (hhigh : x.units < 2 ^ 63 * oneUnits) : x.saturate.toInt = x.units.tdiv oneUnits := by
  have hone := oneUnits_pos
  have hsplit : oneUnits * x.units.tdiv oneUnits + x.units.tmod oneUnits = x.units :=
    Int.mul_tdiv_add_tmod x.units oneUnits
  have hmod := Int.tmod_lt_of_pos x.units hone
  have hmod' := Int.lt_tmod_of_pos x.units hone
  rw [Int.mul_comm] at hsplit
  have hmin : -2 ^ 63 ≤ x.units.tdiv oneUnits := by
    by_contra hless
    have hle : (x.units.tdiv oneUnits + 1) * oneUnits ≤ -2 ^ 63 * oneUnits :=
      Int.mul_le_mul_of_nonneg_right (by omega) hone.le
    rw [Int.add_mul, Int.one_mul] at hle
    omega
  have hmax : x.units.tdiv oneUnits < 2 ^ 63 := by
    by_contra hmore
    have hle : 2 ^ 63 * oneUnits ≤ x.units.tdiv oneUnits * oneUnits :=
      Int.mul_le_mul_of_nonneg_right (by omega) hone.le
    -- the whole part is positive, so what is left of it is not negative
    have hnonneg : 0 ≤ x.units := by omega
    have := Int.tmod_nonneg oneUnits hnonneg
    omega
  have hwhole : x.wholePart = x.units.tdiv oneUnits := rfl
  have hbot : Int64.minValue.toInt = -2 ^ 63 := by decide
  have htop : Int64.maxValue.toInt = 2 ^ 63 - 1 := by decide
  rw [saturate, hnan, hwhole, hbot, htop]
  rw [if_neg Bool.false_ne_true, if_neg (by omega), if_neg (by omega)]
  exact Int64.toInt_ofInt_of_le (by omega) (by omega)

/-- **An integer and a float** that is no NaN are compared by their exact values. -/
theorem orderInt_eq (hx : x.isNaN = false) : orderInt i x = compare (exactInt i) x.exact := by
  have hone := oneUnits_pos
  have hint := int_units_le i
  have hlow : -2 ^ 63 * oneUnits ≤ i.toInt * oneUnits :=
    Int.mul_le_mul_of_nonneg_right i.le_toInt hone.le
  have hhigh : i.toInt * oneUnits < 2 ^ 63 * oneUnits :=
    Int.mul_lt_mul_of_pos_right i.toInt_lt hone
  have hunits : compare (i.toInt * oneUnits) x.units = compare (exactInt i) x.exact := by
    rw [exactInt_eq, exact_eq hx]
    exact compare_congr (ofUnits_lt ⟨hint.1.le, hint.2.le⟩ (units_le hx)).symm
      (ofUnits_lt (units_le hx) ⟨hint.1.le, hint.2.le⟩).symm
  rw [← hunits, orderInt, hx, if_neg Bool.false_ne_true]
  show (if 2 ^ 63 * oneUnits ≤ x.units then _ else if x.units < -2 ^ 63 * oneUnits then _ else
    (compare i x.saturate).then (compare 0 (x.units.tmod oneUnits))) = _
  split_ifs with hover hunder
  · exact (compare_lt_iff_lt.mpr (by omega)).symm
  · exact (compare_gt_iff_gt.mpr (show x.units < i.toInt * oneUnits by omega)).symm
  · rw [compare_int64, saturate_toInt hx (by omega) (by omega)]
    exact compare_tdiv_then hone

end Binary64

/-! ## Places -/

/-- A place on the line of the numbers. -/
@[ext]
structure Place where
  /-- Negative for a NaN before all numbers, positive for one after them, zero for a number. -/
  side : Int
  /-- The exact value of a number. -/
  value : WithBot (WithTop ℚ)
  /-- The order of the pattern among those of NaNs. -/
  pattern : Int

namespace Place

/-- NaNs are before or after all numbers, numbers are ordered by value, NaNs by their patterns. -/
def order : Place → Place → Ordering :=
  compareLex (compareOn side) (compareLex (compareOn value) (compareOn pattern))

/-- The place of an integer. -/
def ofInt (i : Int64) : Place := ⟨0, Binary64.exactInt i, 0⟩

/-- The place of a float. -/
def ofFloat (x : Binary64) : Place :=
  if x.isNaN then ⟨if x.isNegative then -1 else 1, ⊥, x.patternKey⟩ else ⟨0, x.exact, 0⟩

/-- Places are compared by side, then by value, then by pattern. -/
theorem order_eq (p q : Place) : p.order q =
    (compare p.side q.side).then
      ((compare p.value q.value).then (compare p.pattern q.pattern)) := rfl

theorem order_eq_iff {p q : Place} : p.order q = .eq ↔ p = q := by
  rw [order_eq, Ordering.then_eq_eq, Ordering.then_eq_eq, compare_eq_iff_eq, compare_eq_iff_eq,
    compare_eq_iff_eq, Place.ext_iff]

@[simp]
theorem order_self (p : Place) : p.order p = .eq := order_eq_iff.mpr rfl

/-- Numbers are in the order of their values. -/
theorem order_numbers (u w : WithBot (WithTop ℚ)) :
    order ⟨0, u, 0⟩ ⟨0, w, 0⟩ = compare u w := by
  rw [order_eq]
  simp

/-- The side decides before anything else. -/
theorem order_of_side_lt {p q : Place} (h : p.side < q.side) : p.order q = .lt := by
  rw [order_eq, compare_lt_iff_lt.mpr h]
  rfl

/-- What is on a later side comes later. -/
theorem order_of_side_gt {p q : Place} (h : q.side < p.side) : p.order q = .gt := by
  rw [order_eq, compare_gt_iff_gt.mpr h]
  rfl

instance : Std.TransCmp order := by
  unfold order
  infer_instance

instance : Std.OrientedCmp order := by
  unfold order
  infer_instance

theorem order_swap (p q : Place) : (p.order q).swap = q.order p :=
  (Std.OrientedCmp.eq_swap : q.order p = (p.order q).swap).symm

end Place

namespace Binary64

variable {x y : Binary64}

/-- The patterns of NaNs are those past the infinities. -/
theorem isNaN_iff (x : Binary64) : x.isNaN = true ↔ infinity.unsignedBits < x.unsignedBits := by
  have hinf : infinity.unsignedBits = 2047 * 2 ^ 52 := by decide
  have hlt := x.bits.toNat_lt
  rw [hinf, isNaN, Bool.and_eq_true, beq_iff_eq, bne_iff_ne, exponentField, fraction, unsignedBits]
  omega

/-- A pattern is found by its place in the order of patterns. -/
theorem patternKey_inj (h : x.patternKey = y.patternKey) : x = y := by
  have hx := x.bits.toNat_lt
  have hy := y.bits.toNat_lt
  have hbits : x.bits.toNat = y.bits.toNat := by
    simp only [patternKey, isNegative, unsignedBits, decide_eq_true_eq] at h
    split at h <;> split at h <;> omega
  cases x
  cases y
  exact congrArg Binary64.mk (UInt64.toNat_inj.mp hbits)

/-- A NaN is past all numbers on the side of its sign, by pattern as by place. -/
theorem patternOrder_number (hx : x.isNaN = false) (hy : y.isNaN = true) :
    patternOrder x y = (Place.ofFloat x).order (Place.ofFloat y) := by
  have hxbits : ¬infinity.unsignedBits < x.unsignedBits := by
    rw [← isNaN_iff, hx]
    exact Bool.false_ne_true
  have hybits := y.isNaN_iff.mp hy
  have hside : (Place.ofFloat x).side = 0 := by simp [Place.ofFloat, hx]
  unfold patternOrder
  cases hneg : y.isNegative
  · have hykey : y.patternKey = y.unsignedBits := by simp [patternKey, hneg]
    have hkey : x.patternKey < y.patternKey := by
      rw [hykey, patternKey]
      split <;> omega
    have hyside : (Place.ofFloat y).side = 1 := by simp [Place.ofFloat, hy, hneg]
    rw [compare_lt_iff_lt.mpr hkey, Place.order_of_side_lt (by omega)]
  · have hykey : y.patternKey = -(y.unsignedBits : Int) - 1 := by simp [patternKey, hneg]
    have hkey : y.patternKey < x.patternKey := by
      rw [hykey, patternKey]
      split <;> omega
    have hyside : (Place.ofFloat y).side = -1 := by simp [Place.ofFloat, hy, hneg]
    rw [compare_gt_iff_gt.mpr hkey, Place.order_of_side_gt (by omega)]

/-- NaNs are ordered by their patterns, those with the sign bit set before the others. -/
theorem patternOrder_nans (hx : x.isNaN = true) (hy : y.isNaN = true) :
    patternOrder x y = (Place.ofFloat x).order (Place.ofFloat y) := by
  unfold patternOrder Place.ofFloat
  rw [if_pos hx, if_pos hy, Place.order_eq]
  cases hxneg : x.isNegative <;> cases hyneg : y.isNegative
  · simp
  · have hkey : y.patternKey < x.patternKey := by
      rw [patternKey, patternKey, if_pos hyneg, if_neg (by simp [hxneg])]
      omega
    rw [compare_gt_iff_gt.mpr hkey]
    rfl
  · have hkey : x.patternKey < y.patternKey := by
      rw [patternKey, patternKey, if_pos hxneg, if_neg (by simp [hyneg])]
      omega
    rw [compare_lt_iff_lt.mpr hkey]
    rfl
  · simp

/-- **Floats are compared by their places.** -/
theorem order_eq_place (x y : Binary64) :
    x.order y = (Place.ofFloat x).order (Place.ofFloat y) := by
  unfold order
  cases hx : x.isNaN <;> cases hy : y.isNaN
  · have hnumbers : compare x.units y.units = (Place.ofFloat x).order (Place.ofFloat y) := by
      unfold Place.ofFloat
      rw [hx, hy]
      exact (compare_units hx hy).trans (Place.order_numbers _ _).symm
    exact hnumbers
  · exact patternOrder_number hx hy
  · have hswap : patternOrder x y = (patternOrder y x).swap :=
      Std.OrientedCmp.eq_swap (a := x.patternKey) (b := y.patternKey)
    rw [patternOrder_number hy hx, Place.order_swap] at hswap
    exact hswap
  · exact patternOrder_nans hx hy

/-- **An integer and a float are compared by their places.** -/
theorem orderInt_eq_place (i : Int64) (x : Binary64) :
    orderInt i x = (Place.ofInt i).order (Place.ofFloat x) := by
  cases hx : x.isNaN
  · have hnumbers : compare (exactInt i) x.exact = (Place.ofInt i).order (Place.ofFloat x) := by
      unfold Place.ofFloat
      rw [hx]
      exact (Place.order_numbers _ _).symm
    exact (orderInt_eq hx).trans hnumbers
  · rw [orderInt, if_pos hx, Place.ofFloat, if_pos hx]
    cases x.isNegative
    · exact (Place.order_of_side_lt (by simp [Place.ofInt])).symm
    · exact (Place.order_of_side_gt (by simp [Place.ofInt])).symm

/-- One more than `2 ^ 53` is not the float nearest to it. -/
example : orderInt 9007199254740993 ⟨0x4340000000000000⟩ = .gt := by decide +kernel

/-- Integers are compared by their places. -/
theorem compare_eq_place (i j : Int64) : compare i j = (Place.ofInt i).order (Place.ofInt j) := by
  rw [compare_int64, Place.ofInt, Place.ofInt, Place.order_numbers]
  refine compare_congr ?_ ?_ <;> simp [exactInt]

end Binary64

end Horn
