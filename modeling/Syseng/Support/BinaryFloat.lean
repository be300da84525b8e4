import Mathlib.Data.Rat.Defs
import Mathlib.Algebra.Order.Field.Rat
import Mathlib.Algebra.Order.Field.Basic
import Mathlib.Algebra.Order.Field.Power
import Mathlib.Tactic.Ring
import Mathlib.Tactic.FieldSimp

/-! Binary floating-point formats: a sign bit, an exponent stored with a bias, and a significand
whose leading bit is not stored. Values are exact rational numbers. -/

namespace Syseng.Support

structure BinaryFloat (width fraction : Nat) where
  sign : BitVec 1
  exponent : BitVec width
  mantissa : BitVec fraction
  deriving DecidableEq, Repr

namespace BinaryFloat
variable {width fraction : Nat}

def encode (f : BinaryFloat width fraction) : BitVec (1 + width + fraction) :=
  f.sign ++ f.exponent ++ f.mantissa

def decode (p : BitVec (1 + width + fraction)) : BinaryFloat width fraction where
  sign := (p.extractLsb' fraction (1 + width)).extractLsb' width 1
  exponent := (p.extractLsb' fraction (1 + width)).extractLsb' 0 width
  mantissa := p.extractLsb' 0 fraction

theorem decode_encode (f : BinaryFloat width fraction) : decode f.encode = f := by
  unfold decode encode
  rw [BitVec.extractLsb'_append_eq_left, BitVec.extractLsb'_append_eq_left,
    BitVec.extractLsb'_append_eq_right, BitVec.extractLsb'_append_eq_right]

theorem encode_decode (p : BitVec (1 + width + fraction)) : (decode p).encode = p := by
  unfold decode encode
  rw [BitVec.extractLsb'_append_extractLsb', BitVec.extractLsb'_append_extractLsb']

def bias (width : Nat) : Nat := 2 ^ (width - 1) - 1

def Finite (f : BinaryFloat width fraction) : Prop := f.exponent ≠ BitVec.allOnes width

def Infinite (f : BinaryFloat width fraction) : Prop :=
  f.exponent = BitVec.allOnes width ∧ f.mantissa = 0

instance (f : BinaryFloat width fraction) : Decidable f.Finite :=
  inferInstanceAs (Decidable (_ ≠ _))

instance (f : BinaryFloat width fraction) : Decidable f.Infinite :=
  inferInstanceAs (Decidable (_ ∧ _))

/-- The leading bit is 1, except under the exponent 0. -/
def significand (f : BinaryFloat width fraction) : ℚ :=
  (if f.exponent = 0 then 0 else 1) + f.mantissa.toNat / 2 ^ fraction

def power (f : BinaryFloat width fraction) : ℤ :=
  (if f.exponent = 0 then 1 else f.exponent.toNat : ℤ) - bias width

def value (f : BinaryFloat width fraction) : ℚ :=
  (-1) ^ f.sign.toNat * f.significand * 2 ^ f.power

def ulp (width fraction : Nat) : ℚ := 2 ^ (1 - bias width - fraction : ℤ)

/-- The absolute value, counted in the least positive one. -/
def magnitude (f : BinaryFloat width fraction) : Nat :=
  if f.exponent = 0 then f.mantissa.toNat
  else (2 ^ fraction + f.mantissa.toNat) * 2 ^ (f.exponent.toNat - 1)

def units (f : BinaryFloat width fraction) : ℤ := (-1) ^ f.sign.toNat * f.magnitude

theorem ulp_pos (width fraction : Nat) : 0 < ulp width fraction := by
  unfold ulp
  positivity

theorem magnitude_eq (f : BinaryFloat width fraction) :
    f.significand * 2 ^ f.power = f.magnitude * ulp width fraction := by
  have base : (2 : ℚ) ≠ 0 := by norm_num
  unfold significand power magnitude ulp
  by_cases tiny : f.exponent = 0
  · simp only [if_pos tiny]
    rw [sub_eq_add_neg _ (fraction : ℤ), zpow_add₀ base, zpow_neg, zpow_natCast]
    field_simp
    ring
  · simp only [if_neg tiny]
    have positive : f.exponent.toNat ≠ 0 := fun zero => tiny (BitVec.eq_of_toNat_eq zero)
    obtain ⟨k, exponent⟩ := Nat.exists_eq_succ_of_ne_zero positive
    have split : ((f.exponent.toNat : ℤ) - bias width) =
        (1 - bias width - fraction) + (k : ℤ) + (fraction : ℤ) := by
      omega
    rw [split, zpow_add₀ base, zpow_add₀ base, zpow_natCast, zpow_natCast, exponent]
    push_cast
    field_simp

theorem value_eq (f : BinaryFloat width fraction) : f.value = f.units * ulp width fraction := by
  unfold value units
  rw [mul_assoc, magnitude_eq]
  push_cast
  ring

theorem units_of_sign {f r : BinaryFloat width fraction} (same : r.sign = f.sign) :
    (r.units = r.magnitude ∧ f.units = f.magnitude) ∨
      (r.units = -r.magnitude ∧ f.units = -f.magnitude) := by
  have sign := f.sign.isLt
  unfold units
  rw [same]
  rcases (by omega : f.sign.toNat = 0 ∨ f.sign.toNat = 1) with zero | one
  · left
    simp [zero]
  · right
    simp [one]

theorem natAbs_units (f : BinaryFloat width fraction) : f.units.natAbs = f.magnitude := by
  have either := units_of_sign (f := f) rfl
  omega

theorem abs_value (f : BinaryFloat width fraction) :
    |f.value| = f.magnitude * ulp width fraction := by
  rw [value_eq, abs_mul, abs_of_pos (ulp_pos width fraction), ← Int.cast_abs,
    Int.abs_eq_natAbs, natAbs_units]
  rfl

theorem value_inj (f g : BinaryFloat width fraction) : f.value = g.value ↔ f.units = g.units := by
  rw [value_eq, value_eq, mul_left_inj' (ulp_pos width fraction).ne', Int.cast_inj]

theorem double_value_iff (f r : BinaryFloat width fraction) :
    r.value = 2 * f.value ↔ r.units = 2 * f.units := by
  rw [value_eq, value_eq, ← mul_assoc, mul_left_inj' (ulp_pos width fraction).ne']
  norm_cast

theorem half_value_iff (f r : BinaryFloat width fraction) :
    r.value = f.value / 2 ↔ 2 * r.units = f.units := by
  rw [eq_div_iff two_ne_zero, mul_comm, eq_comm, double_value_iff, eq_comm]

theorem magnitude_lt (f : BinaryFloat width fraction) :
    f.magnitude < 2 ^ (fraction + f.exponent.toNat) := by
  have small := f.mantissa.isLt
  unfold magnitude
  by_cases tiny : f.exponent = 0
  · rw [if_pos tiny, tiny]
    exact small
  · rw [if_neg tiny]
    have positive : f.exponent.toNat ≠ 0 := fun zero => tiny (BitVec.eq_of_toNat_eq zero)
    calc (2 ^ fraction + f.mantissa.toNat) * 2 ^ (f.exponent.toNat - 1)
        < 2 ^ (fraction + 1) * 2 ^ (f.exponent.toNat - 1) :=
          Nat.mul_lt_mul_of_pos_right (by rw [Nat.pow_succ]; omega) (Nat.two_pow_pos _)
      _ = 2 ^ (fraction + f.exponent.toNat) := by
          rw [← Nat.pow_add]
          congr 1
          omega

theorem le_magnitude {f : BinaryFloat width fraction} (normal : f.exponent ≠ 0) :
    2 ^ (fraction + (f.exponent.toNat - 1)) ≤ f.magnitude := by
  unfold magnitude
  rw [if_neg normal, Nat.pow_add]
  exact Nat.mul_le_mul_right _ (Nat.le_add_right _ _)

theorem exponent_le {f r : BinaryFloat width fraction} (less : f.magnitude ≤ r.magnitude) :
    f.exponent.toNat ≤ r.exponent.toNat := by
  by_contra more
  have normal : f.exponent ≠ 0 := by
    intro zero
    rw [zero] at more
    exact more (Nat.zero_le _)
  have low := le_magnitude normal
  have high := magnitude_lt r
  have steps : 2 ^ (fraction + r.exponent.toNat) ≤ 2 ^ (fraction + (f.exponent.toNat - 1)) :=
    Nat.pow_le_pow_right (by decide) (by omega)
  omega

theorem magnitude_injective {f r : BinaryFloat width fraction} (sign : f.sign = r.sign)
    (same : f.magnitude = r.magnitude) : f = r := by
  have exponents : f.exponent = r.exponent := by
    apply BitVec.eq_of_toNat_eq
    exact Nat.le_antisymm (exponent_le (Nat.le_of_eq same)) (exponent_le (Nat.le_of_eq same.symm))
  have mantissas : f.mantissa = r.mantissa := by
    apply BitVec.eq_of_toNat_eq
    unfold magnitude at same
    rw [exponents] at same
    by_cases tiny : r.exponent = 0
    · rwa [if_pos tiny, if_pos tiny] at same
    · rw [if_neg tiny, if_neg tiny] at same
      exact Nat.add_left_cancel (Nat.eq_of_mul_eq_mul_right (Nat.two_pow_pos _) same)
  cases f
  cases r
  rw [mk.injEq]
  exact ⟨sign, exponents, mantissas⟩

def top (width fraction : Nat) : Nat := 2 ^ (fraction + (2 ^ width - 2))

theorem abs_double_lt_iff (f : BinaryFloat width fraction) (wide : 2 ≤ width) :
    |2 * f.value| < 2 ^ (2 ^ width - 1 - bias width : ℤ) ↔ 2 * f.magnitude < top width fraction := by
  have base : (2 : ℚ) ≠ 0 := by norm_num
  have four : 2 ^ 2 ≤ 2 ^ width := Nat.pow_le_pow_right (by decide) wide
  have exponents : ((fraction + (2 ^ width - 2) : ℕ) : ℤ) + (1 - bias width - fraction) =
      2 ^ width - 1 - bias width := by
    rw [Nat.cast_add, Nat.cast_sub (by omega)]
    push_cast
    omega
  have reach : (top width fraction : ℚ) * ulp width fraction =
      2 ^ (2 ^ width - 1 - bias width : ℤ) := by
    rw [top, ulp, Nat.cast_pow, Nat.cast_ofNat, ← zpow_natCast, ← zpow_add₀ base, exponents]
  rw [← reach, abs_mul, abs_two, abs_value, ← mul_assoc, mul_lt_mul_iff_left₀ (ulp_pos _ _)]
  exact_mod_cast Iff.rfl

theorem double_lt_top {f : BinaryFloat width fraction}
    (below : f.exponent.toNat + 1 < 2 ^ width - 1) : 2 * f.magnitude < top width fraction := by
  calc 2 * f.magnitude
      < 2 * 2 ^ (fraction + f.exponent.toNat) :=
        Nat.mul_lt_mul_of_pos_left (magnitude_lt f) (by decide)
    _ = 2 ^ (fraction + f.exponent.toNat + 1) := (Nat.pow_succ').symm
    _ ≤ top width fraction := Nat.pow_le_pow_right (by decide) (by omega)

theorem top_le_double {f : BinaryFloat width fraction} (normal : f.exponent ≠ 0)
    (last : f.exponent.toNat + 1 = 2 ^ width - 1) : top width fraction ≤ 2 * f.magnitude := by
  have positive : f.exponent.toNat ≠ 0 := fun zero => normal (BitVec.eq_of_toNat_eq zero)
  calc top width fraction
      = 2 * 2 ^ (fraction + (f.exponent.toNat - 1)) := by
        rw [top, ← Nat.pow_succ']
        congr 1
        omega
    _ ≤ 2 * f.magnitude := Nat.mul_le_mul_left 2 (le_magnitude normal)

theorem magnitude_of_le_one {f : BinaryFloat width fraction} (low : f.exponent.toNat ≤ 1) :
    f.magnitude = f.exponent.toNat * 2 ^ fraction + f.mantissa.toNat := by
  unfold magnitude
  by_cases tiny : f.exponent = 0
  · simp [tiny]
  · have positive : f.exponent.toNat ≠ 0 := fun zero => tiny (BitVec.eq_of_toNat_eq zero)
    have one : f.exponent.toNat = 1 := by omega
    rw [if_neg tiny, one, Nat.sub_self, Nat.pow_zero, Nat.mul_one, Nat.one_mul]

theorem magnitude_tiny (s : BitVec 1) (m : BitVec fraction) :
    (mk s (BitVec.ofNat width 0) m).magnitude = m.toNat :=
  if_pos rfl

theorem magnitude_succ {s : BitVec 1} {e e' : BitVec width} {m : BitVec fraction} (normal : e ≠ 0)
    (next : e'.toNat = e.toNat + 1) : (mk s e' m).magnitude = 2 * (mk s e m).magnitude := by
  have positive : e.toNat ≠ 0 := fun zero => normal (BitVec.eq_of_toNat_eq zero)
  have normal' : e' ≠ 0 := by
    rintro rfl
    simp at next
  simp only [magnitude, if_neg normal, if_neg normal', next]
  obtain ⟨k, exponent⟩ := Nat.exists_eq_succ_of_ne_zero positive
  rw [exponent, Nat.add_sub_cancel, Nat.succ_sub_one, Nat.pow_succ]
  ring

/-- `d` is what rounding to nearest makes of `x`; of two nearest ones the even one. -/
structure RoundsTo (x : ℚ) (d : BinaryFloat width fraction) : Prop where
  finite : d.Finite
  nearest : ∀ c : BinaryFloat width fraction, c.Finite → |d.value - x| ≤ |c.value - x|
  even : ∀ c : BinaryFloat width fraction, c.Finite → |c.value - x| = |d.value - x| →
    c.value ≠ d.value → d.mantissa.toNat % 2 = 0

theorem distance_half (f d : BinaryFloat width fraction) : |d.value - f.value / 2| =
    ((2 * d.units - f.units).natAbs : ℚ) * (ulp width fraction / 2) := by
  have positive : 0 < ulp width fraction / 2 := half_pos (ulp_pos width fraction)
  have scaled : d.value - f.value / 2 = (2 * d.units - f.units : ℤ) * (ulp width fraction / 2) := by
    rw [value_eq, value_eq]
    push_cast
    ring
  rw [scaled, abs_mul, abs_of_pos positive, Nat.cast_natAbs, Int.cast_abs]

theorem roundsTo_half_iff (f d : BinaryFloat width fraction) : RoundsTo (f.value / 2) d ↔
    d.Finite ∧ (∀ c : BinaryFloat width fraction, c.Finite →
      (2 * d.units - f.units).natAbs ≤ (2 * c.units - f.units).natAbs) ∧
    ∀ c : BinaryFloat width fraction, c.Finite →
      (2 * c.units - f.units).natAbs = (2 * d.units - f.units).natAbs → c.units ≠ d.units →
        d.mantissa.toNat % 2 = 0 := by
  have positive : 0 < ulp width fraction / 2 := half_pos (ulp_pos width fraction)
  constructor
  · intro rounds
    refine ⟨rounds.finite, fun c finite => ?_, fun c finite same differs => ?_⟩
    · have near := rounds.nearest c finite
      rw [distance_half, distance_half, mul_le_mul_iff_left₀ positive] at near
      exact_mod_cast near
    · apply rounds.even c finite
      · rw [distance_half, distance_half, same]
      · exact fun equal => differs ((value_inj c d).mp equal)
  · rintro ⟨finite, nearest, even⟩
    refine ⟨finite, fun c other => ?_, fun c other same differs => ?_⟩
    · rw [distance_half, distance_half, mul_le_mul_iff_left₀ positive]
      exact_mod_cast nearest c other
    · apply even c other
      · rw [distance_half, distance_half, mul_left_inj' positive.ne'] at same
        exact_mod_cast same
      · exact fun equal => differs ((value_inj c d).mpr equal)

theorem half_value_of_sign {f r : BinaryFloat width fraction} (same : r.sign = f.sign) :
    r.value = f.value / 2 ↔ 2 * r.magnitude = f.magnitude := by
  have signs := units_of_sign same
  rw [half_value_iff]
  omega

theorem half_value_mk (s : BitVec 1) (e e' : BitVec width) (m m' : BitVec fraction) :
    (mk s e' m').value = (mk s e m).value / 2 ↔ 2 * (mk s e' m').magnitude = (mk s e m).magnitude :=
  half_value_of_sign (f := mk s e m) (r := mk s e' m') rfl

theorem half_value_ne {f : BinaryFloat width fraction} (odd : f.magnitude % 2 = 1)
    (c : BinaryFloat width fraction) : c.value ≠ f.value / 2 := by
  intro half
  have units := (half_value_iff f c).mp half
  have left := natAbs_units f
  omega

theorem exists_magnitude (s : BitVec 1) (wide : 2 ≤ width) {n : Nat} (small : n ≤ 2 ^ fraction) :
    ∃ d : BinaryFloat width fraction, d.Finite ∧ d.sign = s ∧ d.magnitude = n := by
  have four : 2 ^ 2 ≤ 2 ^ width := Nat.pow_le_pow_right (by decide) wide
  have ones : (BitVec.allOnes width).toNat = 2 ^ width - 1 := BitVec.toNat_allOnes
  have one : (1 : BitVec width).toNat = 1 := BitVec.toNat_one (by omega)
  by_cases below : n < 2 ^ fraction
  · refine ⟨⟨s, 0, BitVec.ofNat fraction n⟩, ?_, rfl, ?_⟩
    · intro same
      have zero := congrArg BitVec.toNat same
      rw [ones] at zero
      simp at zero
      omega
    · simp [magnitude, Nat.mod_eq_of_lt below]
  · refine ⟨⟨s, 1, 0⟩, ?_, rfl, ?_⟩
    · intro same
      have top := congrArg BitVec.toNat same
      rw [ones, one] at top
      omega
    · rw [magnitude_of_le_one (Nat.le_of_eq one), one]
      simp
      omega

end BinaryFloat
end Syseng.Support
