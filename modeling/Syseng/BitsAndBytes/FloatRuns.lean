import Syseng.Support.Machine
import Syseng.Support.Table
import Syseng.BitsAndBytes.FloatValues

/-! The float functions called one after the other, each on the result of the one before. While no call
leaves the range of exact results their order does not matter. -/

namespace Syseng.BitsAndBytes.FloatBits
open Support

inductive Op where
  | negate
  | abs
  | twice
  | half
  deriving DecidableEq, Repr

def Op.apply : Op → FloatBits → FloatBits
  | negate => floatNegate
  | abs => floatAbs
  | twice => floatTwice
  | half => floatHalf

/-- The double is not out of range, and the half is neither at the first normal exponent, which the code gets
wrong, nor a denormal value that has to be rounded. -/
def inRange (f : FloatBits) : Op → Prop
  | .twice => (fields f).exponent ≠ 254
  | .half => (fields f).exponent ≠ 1 ∧ ((fields f).exponent = 0 → (fields f).mantissa.toNat % 2 = 0)
  | _ => True

instance (f : FloatBits) (op : Op) : Decidable (inRange f op) := by
  cases op <;> unfold inRange <;> infer_instance

def step (f : FloatBits) (op : Op) : Except Fault (FloatBits × Unit) := .ok (op.apply f, ())

def machine : Machine FloatBits Op Unit Fault where
  allowed := inRange
  step := step

instance (f : FloatBits) (op : Op) : Decidable (machine.allowed f op) :=
  inferInstanceAs (Decidable (inRange f op))

def effect : BitVec 1 × ℤ → Op → (BitVec 1 × ℤ) × Unit
  | (s, k), .negate => ((~~~s, k), ())
  | (_, k), .abs => ((0, k), ())
  | (s, k), .twice => ((s, k + 1), ())
  | (s, k), .half => ((s, k - 1), ())

/-- `g` is `f` with this sign and `k` doublings. -/
structure Scaled (f g : FloatBits) (s : BitVec 1) (k : ℤ) : Prop where
  finite : (fields g).Finite
  sign : (fields g).sign = s
  value : |value g| = |value f| * 2 ^ k

theorem abs_value_pack (s : BitVec 1) (e : BitVec 8) (m : BitVec 23) :
    |value (pack s e m)| = (BinaryFloat.mk s e m).magnitude * BinaryFloat.ulp 8 23 := by
  rw [value_pack, BinaryFloat.abs_value]

theorem magnitude_sign (s s' : BitVec 1) (e : BitVec 8) (m : BitVec 23) :
    (BinaryFloat.mk s e m).magnitude = (BinaryFloat.mk s' e m).magnitude := rfl

theorem toNat_lt_of_finite {s : BitVec 1} {e : BitVec 8} {m : BitVec 23}
    (finite : (BinaryFloat.mk s e m).Finite) : e.toNat < 255 := by
  by_contra above
  exact finite (special_of_not_lt above)

theorem scaled_negate {f g : FloatBits} {s : BitVec 1} {k : ℤ} (scaled : Scaled f g s k) :
    Scaled f (floatNegate g) (~~~s) k := by
  obtain ⟨s', e, m, rfl⟩ := exists_pack g
  obtain ⟨finite, rfl, size⟩ := scaled
  rw [fields_pack] at finite
  have plain : ¬ (e = .allOnes 8 ∧ m ≠ 0#23) := fun special => finite special.1
  rw [abs_value_pack] at size
  rw [floatNegate_pack, if_neg plain]
  constructor
  · rw [fields_pack]
    exact finite
  · rw [fields_pack, fields_pack]
  · rw [abs_value_pack, ← size, magnitude_sign]

theorem scaled_abs {f g : FloatBits} {s : BitVec 1} {k : ℤ} (scaled : Scaled f g s k) :
    Scaled f (floatAbs g) 0 k := by
  obtain ⟨s', e, m, rfl⟩ := exists_pack g
  obtain ⟨finite, rfl, size⟩ := scaled
  rw [fields_pack] at finite
  rw [abs_value_pack] at size
  rw [floatAbs_pack]
  constructor
  · rw [fields_pack]
    exact finite
  · rw [fields_pack]
    rfl
  · rw [abs_value_pack, ← size, magnitude_sign]

theorem scaled_twice {f g : FloatBits} {s : BitVec 1} {k : ℤ} (scaled : Scaled f g s k)
    (may : inRange g .twice) : Scaled f (floatTwice g) s (k + 1) := by
  obtain ⟨s', e, m, rfl⟩ := exists_pack g
  obtain ⟨finite, rfl, size⟩ := scaled
  rw [fields_pack] at finite
  have bound := toNat_lt_of_finite finite
  have last : e.toNat ≠ 254 := by
    intro same
    apply may
    rw [fields_pack]
    exact BitVec.eq_of_toNat_eq same
  obtain ⟨e', m', doubled, below, twice⟩ := floatTwice_magnitude (s := s') (m := m) (by omega : e.toNat < 254)
  rw [abs_value_pack] at size
  rw [doubled]
  constructor
  · rw [fields_pack]
    exact finite_of_lt below
  · rw [fields_pack, fields_pack]
  · rw [abs_value_pack, twice, zpow_add_one₀ two_ne_zero, ← mul_assoc, ← size]
    push_cast
    ring

theorem floatHalf_magnitude {s : BitVec 1} {e : BitVec 8} {m : BitVec 23} (below : e.toNat < 255)
    (first : e ≠ 1) (even : e = 0 → m.toNat % 2 = 0) :
    ∃ e' m', floatHalf (pack s e m) = pack s e' m' ∧ e'.toNat < 255 ∧
      (BinaryFloat.mk s e m).magnitude = 2 * (BinaryFloat.mk s e' m').magnitude := by
  by_cases tiny : e = 0#8
  · subst tiny
    have bits : (m >>> 1).toNat = m.toNat / 2 := by
      rw [BitVec.toNat_ushiftRight, Nat.shiftRight_eq_div_pow]
    refine ⟨0#8, m >>> 1, floatHalf_tiny s m, by decide, ?_⟩
    rw [BinaryFloat.magnitude_tiny, BinaryFloat.magnitude_tiny, bits]
    have whole := even rfl
    omega
  · have back := toNat_pred tiny
    have lower : e - 1#8 ≠ 0 := by
      intro zero
      rw [zero] at back
      exact first (BitVec.eq_of_toNat_eq back.symm)
    exact ⟨e - 1#8, m, floatHalf_normal s e m tiny (finite_of_lt below (s := s) (m := m)), by omega,
      BinaryFloat.magnitude_succ lower back.symm⟩

theorem scaled_half {f g : FloatBits} {s : BitVec 1} {k : ℤ} (scaled : Scaled f g s k)
    (may : inRange g .half) : Scaled f (floatHalf g) s (k - 1) := by
  obtain ⟨s', e, m, rfl⟩ := exists_pack g
  obtain ⟨finite, rfl, size⟩ := scaled
  rw [inRange, fields_pack] at may
  rw [fields_pack] at finite
  obtain ⟨e', m', halved, below, twice⟩ :=
    floatHalf_magnitude (s := s') (toNat_lt_of_finite finite) may.1 may.2
  rw [abs_value_pack, twice] at size
  rw [halved]
  constructor
  · rw [fields_pack]
    exact finite_of_lt below
  · rw [fields_pack, fields_pack]
  · rw [abs_value_pack, zpow_sub_one₀ two_ne_zero, ← mul_assoc, ← size]
    push_cast
    ring

theorem step_refines (f : FloatBits) : machine.Refines effect fun g a => Scaled f g a.1 a.2 := by
  rintro g ⟨s, k⟩ op scaled may
  refine ⟨op.apply g, rfl, ?_⟩
  cases op with
  | negate => exact scaled_negate scaled
  | abs => exact scaled_abs scaled
  | twice => exact scaled_twice scaled may
  | half => exact scaled_half scaled may

def total (f : FloatBits) (ops : List Op) : BitVec 1 × ℤ := (Machine.replay effect ((fields f).sign, 0) ops).1

section Runs
variable {f g h : FloatBits} {ops more : List Op} {us vs : List Unit}

theorem run_scaled (finite : (fields f).Finite) (run : machine.Run f ops us g) :
    Scaled f g (total f ops).1 (total f ops).2 := by
  apply ((step_refines f).run run _).1
  exact ⟨finite, rfl, by rw [zpow_zero, mul_one]⟩

theorem scaled_unique {s : BitVec 1} {k : ℤ} (first : Scaled f g s k) (second : Scaled f h s k) : g = h := by
  have signs : (fields g).sign = (fields h).sign := first.sign.trans second.sign.symm
  have values : |value g| = |value h| := first.value.trans second.value.symm
  unfold value at values
  rw [BinaryFloat.abs_value, BinaryFloat.abs_value,
    mul_left_inj' (BinaryFloat.ulp_pos 8 23).ne', Nat.cast_inj] at values
  have same := BinaryFloat.magnitude_injective signs values
  rw [← pack_fields g, same, pack_fields]

/-- Any calls in any order are exact while they stay in range, and where two runs come to the same they end
in the same bits. -/
theorem scalings_agree (finite : (fields f).Finite) (first : machine.Run f ops us g)
    (second : machine.Run f more vs h) :
    Scaled f g (total f ops).1 (total f ops).2 ∧ (total f ops = total f more → g = h) := by
  have scaled := run_scaled finite first
  apply And.intro scaled
  intro same
  have other := run_scaled finite second
  rw [← same] at other
  exact scaled_unique scaled other

theorem scalings_agree_denormal : ∃ g h,
    machine.Run 3 [.twice, .twice, .negate, .half] [(), (), (), ()] g ∧
    machine.Run 3 [.negate, .twice, .half, .twice] [(), (), (), ()] h ∧
    Scaled 3 g (total 3 [.twice, .twice, .negate, .half]).1 (total 3 [.twice, .twice, .negate, .half]).2 ∧
    (total 3 [.twice, .twice, .negate, .half] = total 3 [.negate, .twice, .half, .twice] → g = h) := by
  have ran : (machine.exec 3 [.twice, .twice, .negate, .half]).map (fun r => ((), r.2)) =
      some ((), [(), (), (), ()]) := by decide
  have ran' : (machine.exec 3 [.negate, .twice, .half, .twice]).map (fun r => ((), r.2)) =
      some ((), [(), (), (), ()]) := by decide
  obtain ⟨g, first, -⟩ := Machine.exists_run_seen (fun _ => ()) ran
  obtain ⟨h, second, -⟩ := Machine.exists_run_seen (fun _ => ()) ran'
  obtain ⟨scaled, agree⟩ := scalings_agree (by decide) first second
  exact ⟨g, h, first, second, scaled, agree⟩

end Runs
end FloatBits
end Syseng.BitsAndBytes
