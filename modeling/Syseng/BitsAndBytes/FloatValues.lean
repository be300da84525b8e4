import Syseng.BitsAndBytes.FloatBits

/-! What the float functions do to values: where doubling and halving are those of the
arithmetic, and what becomes of what is not a number. -/

namespace Syseng.BitsAndBytes.FloatBits
open Support

def value (f : FloatBits) : ℚ := (fields f).value

@[simp] theorem value_pack (s : BitVec 1) (e : BitVec 8) (m : BitVec 23) :
    value (pack s e m) = (BinaryFloat.mk s e m).value :=
  congrArg BinaryFloat.value (fields_pack s e m)

/-- `r` is twice `f`, or infinite where that is out of range. -/
structure Doubled (f r : FloatBits) : Prop where
  within : (fields f).Finite → |2 * value f| < 2 ^ 128 →
    (fields r).Finite ∧ value r = 2 * value f ∧ (fields r).sign = (fields f).sign
  beyond : (fields f).Finite → 2 ^ 128 ≤ |2 * value f| →
    (fields r).Infinite ∧ (fields r).sign = (fields f).sign
  infinite : (fields f).Infinite → r = f

theorem double_lt_iff (f : FloatBits) :
    |2 * value f| < 2 ^ 128 ↔ 2 * (fields f).magnitude < BinaryFloat.top 8 23 := by
  have range : (2 : ℚ) ^ (2 ^ 8 - 1 - BinaryFloat.bias 8 : ℤ) = 2 ^ 128 := by
    norm_num [BinaryFloat.bias]
  rw [← BinaryFloat.abs_double_lt_iff _ (by decide), range]
  rfl

theorem finite_of_lt {s : BitVec 1} {e : BitVec 8} {m : BitVec 23} (below : e.toNat < 255) :
    (BinaryFloat.mk s e m).Finite := by
  rintro rfl
  exact absurd below (by decide)

theorem special_of_not_lt {e : BitVec 8} (above : ¬ e.toNat < 255) : e = .allOnes 8 := by
  apply BitVec.eq_of_toNat_eq
  have small := e.isLt
  change e.toNat = 255
  omega

theorem not_finite_allOnes (s : BitVec 1) (m : BitVec 23) :
    ¬ (fields (pack s (.allOnes 8) m)).Finite := by
  rw [fields_pack]
  exact fun finite => finite rfl

theorem magnitude_shiftLeft (s : BitVec 1) (m : BitVec 23) :
    (BinaryFloat.mk s (if m.toNat < 2 ^ 22 then 0#8 else 1#8) (m <<< 1)).magnitude =
      2 * (BinaryFloat.mk s 0#8 m).magnitude := by
  have small := m.isLt
  have low : (if m.toNat < 2 ^ 22 then 0#8 else 1#8).toNat ≤ 1 := by split <;> decide
  rw [BinaryFloat.magnitude_of_le_one low, BinaryFloat.magnitude_tiny]
  simp only [BitVec.toNat_shiftLeft, Nat.shiftLeft_eq]
  split
  · simp
    omega
  · simp
    omega

theorem floatTwice_magnitude {s : BitVec 1} {e : BitVec 8} {m : BitVec 23} (below : e.toNat < 254) :
    ∃ e' m', floatTwice (pack s e m) = pack s e' m' ∧ e'.toNat < 255 ∧
      (BinaryFloat.mk s e' m').magnitude = 2 * (BinaryFloat.mk s e m).magnitude := by
  by_cases tiny : e = 0#8
  · subst tiny
    refine ⟨_, _, floatTwice_tiny s m, ?_, magnitude_shiftLeft s m⟩
    split <;> decide
  · have finite : e ≠ .allOnes 8 := by
      rintro rfl
      exact absurd below (by decide)
    have next := toNat_succ finite
    exact ⟨_, _, floatTwice_normal s e m tiny finite, by omega, BinaryFloat.magnitude_succ tiny next⟩

theorem floatTwice_within (s : BitVec 1) {e : BitVec 8} (m : BitVec 23) (below : e.toNat < 254) :
    Doubled (pack s e m) (floatTwice (pack s e m)) := by
  obtain ⟨e', m', doubled, below', twice⟩ := floatTwice_magnitude (s := s) (m := m) below
  have small : 2 * (fields (pack s e m)).magnitude < BinaryFloat.top 8 23 := by
    rw [fields_pack]
    exact BinaryFloat.double_lt_top (show e.toNat + 1 < 255 by omega)
  rw [doubled]
  constructor
  · intro _ _
    simp only [value_pack, fields_pack]
    refine ⟨finite_of_lt below', ?_, trivial⟩
    rw [BinaryFloat.double_value_iff]
    have signs := BinaryFloat.units_of_sign (f := ⟨s, e, m⟩) (r := ⟨s, e', m'⟩) rfl
    omega
  · intro _ large
    exact absurd ((double_lt_iff _).mpr small) (not_lt.mpr large)
  · intro infinite
    rw [fields_pack] at infinite
    exact absurd infinite.1 (finite_of_lt (by omega) (m := m))

theorem floatTwice_last (s : BitVec 1) (m : BitVec 23) :
    floatTwice (pack s 254#8 m) = pack s (.allOnes 8) m :=
  floatTwice_normal s 254#8 m (by decide) (by decide)

/-- Doubling is right except where the exponent runs into the special one with a mantissa that
says "not a number" there. -/
theorem floatTwice_doubled_iff (f : FloatBits) : Doubled f (floatTwice f) ↔
    ¬ ((fields f).exponent = 254 ∧ (fields f).mantissa ≠ 0) := by
  obtain ⟨s, e, m, rfl⟩ := exists_pack f
  rw [fields_pack]
  by_cases below : e.toNat < 254
  · apply iff_of_true (floatTwice_within s m below)
    rintro ⟨rfl, -⟩
    exact absurd below (by decide)
  by_cases last : e = 254#8
  · subst last
    have large : 2 ^ 128 ≤ |2 * value (pack s 254#8 m)| := by
      apply not_lt.mp
      rw [double_lt_iff, fields_pack, not_lt]
      exact BinaryFloat.top_le_double (show 254#8 ≠ 0 by decide) rfl
    have finite : (fields (pack s 254#8 m)).Finite := by
      rw [fields_pack]
      exact finite_of_lt (by decide)
    rw [floatTwice_last]
    constructor
    · rintro doubled ⟨-, payload⟩
      have infinite := (doubled.beyond finite large).1
      rw [fields_pack] at infinite
      exact payload infinite.2
    · intro clear
      have zero : m = 0 := by
        by_contra payload
        exact clear ⟨rfl, payload⟩
      refine ⟨fun _ small => absurd small (not_lt.mpr large), fun _ _ => ?_, fun infinite => ?_⟩
      · simp only [fields_pack]
        exact ⟨⟨rfl, zero⟩, trivial⟩
      · rw [fields_pack] at finite infinite
        exact absurd infinite.1 finite
  · have differs : e.toNat ≠ 254 := fun same => last (BitVec.eq_of_toNat_eq same)
    have special : e = .allOnes 8 := special_of_not_lt (by omega)
    subst special
    have infinite := not_finite_allOnes s m
    apply iff_of_true
    · rw [floatTwice_special]
      exact ⟨fun finite => absurd finite infinite, fun finite => absurd finite infinite, fun _ => rfl⟩
    · exact fun wrong => last wrong.1

/-- The first pattern of the largest binade is finite, not infinite when doubled, and no number
then. -/
theorem floatTwice_not_doubled : floatIsNan 0x7F000001 = 0 ∧
    floatIsNan (floatTwice 0x7F000001) = 1 ∧ ¬ Doubled 0x7F000001 (floatTwice 0x7F000001) := by
  refine ⟨by decide, by decide, fun doubled => ?_⟩
  have large : ¬ 2 * (fields 0x7F000001).magnitude < BinaryFloat.top 8 23 :=
    not_lt.mpr (BinaryFloat.top_le_double (by decide) (by decide))
  have infinite := doubled.beyond (by decide) (not_lt.mp (mt (double_lt_iff _).mp large))
  exact absurd infinite.1 (by decide)

/-- `r` is half of `f`, or what that is rounded to. -/
structure Halved (f r : FloatBits) : Prop where
  sign : (fields f).Finite → (fields r).sign = (fields f).sign
  represented : (fields f).Finite →
    (∃ c : BinaryFloat 8 23, c.Finite ∧ c.value = value f / 2) →
      (fields r).Finite ∧ value r = value f / 2
  rounded : (fields f).Finite →
    (¬ ∃ c : BinaryFloat 8 23, c.Finite ∧ c.value = value f / 2) →
      BinaryFloat.RoundsTo (value f / 2) (fields r)
  infinite : (fields f).Infinite → r = f

theorem halved_of_exact {s : BitVec 1} {e e' : BitVec 8} {m m' : BitVec 23}
    (finite : (BinaryFloat.mk s e m).Finite) (finite' : (BinaryFloat.mk s e' m').Finite)
    (half : 2 * (BinaryFloat.mk s e' m').magnitude = (BinaryFloat.mk s e m).magnitude) :
    Halved (pack s e m) (pack s e' m') := by
  have values := (BinaryFloat.half_value_mk s e e' m m').mpr half
  constructor
  · intro _
    simp only [fields_pack]
  · intro _ _
    simp only [value_pack, fields_pack]
    exact ⟨finite', values⟩
  · intro _ missing
    simp only [value_pack] at missing
    exact absurd ⟨_, finite', values⟩ missing
  · intro infinite
    rw [fields_pack] at infinite
    exact absurd infinite.1 finite

theorem floatHalf_normal_halved (s : BitVec 1) {e : BitVec 8} (m : BitVec 23)
    (normal : 2 ≤ e.toNat) (below : e.toNat < 255) :
    Halved (pack s e m) (floatHalf (pack s e m)) := by
  have positive : e ≠ 0#8 := by
    rintro rfl
    exact absurd normal (by decide)
  have back := toNat_pred positive
  have lower : e - 1#8 ≠ 0 := by
    intro zero
    rw [zero] at back
    simp at back
    omega
  rw [floatHalf_normal s e m positive (finite_of_lt below (s := s) (m := m))]
  exact halved_of_exact (finite_of_lt below) (finite_of_lt (by omega))
    (BinaryFloat.magnitude_succ lower back.symm).symm

theorem floatHalf_first_not_halved (s : BitVec 1) (m : BitVec 23) :
    ¬ Halved (pack s 1#8 m) (floatHalf (pack s 1#8 m)) := by
  have small := m.isLt
  have halves : floatHalf (pack s 1#8 m) = pack s 0#8 m :=
    floatHalf_normal s 1#8 m (by decide) (by decide)
  have before : (BinaryFloat.mk s 1#8 m).magnitude = 2 ^ 23 + m.toNat := Nat.mul_one _
  have after : (BinaryFloat.mk s 0#8 m).magnitude = m.toNat := BinaryFloat.magnitude_tiny s m
  have finite : (fields (pack s 1#8 m)).Finite := by
    rw [fields_pack]
    exact finite_of_lt (by decide)
  rw [halves]
  intro halved
  by_cases even : m.toNat % 2 = 0
  · obtain ⟨c, there, sign, magnitude⟩ := BinaryFloat.exists_magnitude s
      (show 2 ≤ 8 by decide) (show (2 ^ 23 + m.toNat) / 2 ≤ 2 ^ 23 by omega)
    have half : c.value = value (pack s 1#8 m) / 2 := by
      rw [value_pack, BinaryFloat.half_value_of_sign sign]
      omega
    have wrong := (halved.represented finite ⟨c, there, half⟩).2
    rw [value_pack, value_pack, BinaryFloat.half_value_mk] at wrong
    omega
  · obtain ⟨c, there, sign, magnitude⟩ := BinaryFloat.exists_magnitude s
      (show 2 ≤ 8 by decide) (show (2 ^ 23 + m.toNat + 1) / 2 ≤ 2 ^ 23 by omega)
    have missing : ¬ ∃ c : BinaryFloat 8 23, c.Finite ∧ c.value = value (pack s 1#8 m) / 2 := by
      rintro ⟨c, -, half⟩
      rw [value_pack] at half
      exact BinaryFloat.half_value_ne (by omega) c half
    have rounded := halved.rounded finite missing
    rw [value_pack, fields_pack, BinaryFloat.roundsTo_half_iff] at rounded
    obtain ⟨-, nearest, even_chosen⟩ := rounded
    have near := nearest c there
    have signs := BinaryFloat.units_of_sign (f := ⟨s, 1#8, m⟩) (r := c) sign
    have signs' := BinaryFloat.units_of_sign (f := ⟨s, 1#8, m⟩) (r := ⟨s, 0#8, m⟩) rfl
    rw [before, magnitude] at signs
    rw [before, after] at signs'
    -- only the largest mantissa comes as near as the neighbour above, and it is odd
    exact even (even_chosen c there (by omega) (by omega))

theorem floatHalf_tiny_halved_iff (s : BitVec 1) (m : BitVec 23) :
    Halved (pack s 0#8 m) (floatHalf (pack s 0#8 m)) ↔ m.toNat % 4 ≠ 3 := by
  have small := m.isLt
  have bits : (m >>> 1).toNat = m.toNat / 2 := by
    rw [BitVec.toNat_ushiftRight, Nat.shiftRight_eq_div_pow]
  have before : (BinaryFloat.mk s 0#8 m).magnitude = m.toNat := BinaryFloat.magnitude_tiny s m
  have after : (BinaryFloat.mk s 0#8 (m >>> 1)).magnitude = m.toNat / 2 :=
    (BinaryFloat.magnitude_tiny s _).trans bits
  have finite : (BinaryFloat.mk s 0#8 m).Finite := finite_of_lt (by decide)
  have finite' : (BinaryFloat.mk s 0#8 (m >>> 1)).Finite := finite_of_lt (by decide)
  rw [floatHalf_tiny]
  by_cases even : m.toNat % 2 = 0
  · exact iff_of_true (halved_of_exact finite finite' (by omega)) (by omega)
  · have missing : ¬ ∃ c : BinaryFloat 8 23, c.Finite ∧ c.value = value (pack s 0#8 m) / 2 := by
      rintro ⟨c, -, half⟩
      rw [value_pack] at half
      exact BinaryFloat.half_value_ne (by omega) c half
    have signs := BinaryFloat.units_of_sign (f := ⟨s, 0#8, m⟩) (r := ⟨s, 0#8, m >>> 1⟩) rfl
    rw [before, after] at signs
    constructor
    · intro halved
      have rounded := halved.rounded (by rwa [fields_pack]) missing
      rw [value_pack, fields_pack, BinaryFloat.roundsTo_half_iff] at rounded
      obtain ⟨c, there, sign, magnitude⟩ := BinaryFloat.exists_magnitude s
        (show 2 ≤ 8 by decide) (show m.toNat / 2 + 1 ≤ 2 ^ 23 by omega)
      have signs' := BinaryFloat.units_of_sign (f := ⟨s, 0#8, m⟩) (r := c) sign
      rw [before, magnitude] at signs'
      have chosen : (m >>> 1).toNat % 2 = 0 := rounded.2.2 c there (by omega) (by omega)
      omega
    · intro clear
      constructor
      · intro _
        simp only [fields_pack]
      · exact fun _ represented => absurd represented missing
      · intro _ _
        rw [value_pack, fields_pack, BinaryFloat.roundsTo_half_iff]
        refine ⟨finite', fun c _ => ?_, fun c _ _ _ => ?_⟩
        · omega
        · change (m >>> 1).toNat % 2 = 0
          omega
      · intro infinite
        rw [fields_pack] at infinite
        exact absurd infinite.1 finite

/-- Halving is right except in the first binade of normal values, and where rounding a
denormal one up to the even neighbour is called for. -/
theorem floatHalf_halved_iff (f : FloatBits) : Halved f (floatHalf f) ↔
    (fields f).exponent ≠ 1 ∧
      ¬ ((fields f).exponent = 0 ∧ (fields f).mantissa.toNat % 4 = 3) := by
  obtain ⟨s, e, m, rfl⟩ := exists_pack f
  rw [fields_pack]
  by_cases tiny : e = 0#8
  · subst tiny
    rw [floatHalf_tiny_halved_iff]
    simp
  by_cases first : e = 1#8
  · subst first
    exact iff_of_false (floatHalf_first_not_halved s m) fun condition => condition.1 rfl
  have condition : e ≠ 1 ∧ ¬ (e = 0 ∧ m.toNat % 4 = 3) := ⟨first, fun wrong => tiny wrong.1⟩
  apply iff_of_true _ condition
  by_cases below : e.toNat < 255
  · apply floatHalf_normal_halved s m _ below
    have zero : e.toNat ≠ 0 := fun same => tiny (BitVec.eq_of_toNat_eq same)
    have one : e.toNat ≠ 1 := fun same => first (BitVec.eq_of_toNat_eq same)
    omega
  · have special := special_of_not_lt below
    subst special
    have infinite := not_finite_allOnes s m
    rw [floatHalf_special]
    exact ⟨fun finite => absurd finite infinite, fun finite => absurd finite infinite,
      fun finite => absurd finite infinite, fun _ => rfl⟩

/-- The least normal value, whose half is denormal. -/
theorem floatHalf_not_halved : floatHalf 0x00800000 = 0 ∧
    ¬ Halved 0x00800000 (floatHalf 0x00800000) :=
  ⟨by decide, floatHalf_first_not_halved 0 0⟩

/-- Halving undoes doubling except for the denormal values whose double is normal. -/
theorem floatHalf_floatTwice_iff (f : FloatBits) :
    ((fields f).exponent.toNat ≤ 253 → floatHalf (floatTwice f) = f) ↔
      ¬ ((fields f).exponent = 0 ∧ 2 ^ 22 ≤ (fields f).mantissa.toNat) := by
  obtain ⟨s, e, m, rfl⟩ := exists_pack f
  have small := m.isLt
  rw [fields_pack]
  change (e.toNat ≤ 253 → _) ↔ ¬ (e = 0 ∧ 2 ^ 22 ≤ m.toNat)
  by_cases tiny : e = 0#8
  · subst tiny
    have shifted : (m <<< 1).toNat = 2 * m.toNat % 2 ^ 23 := by
      rw [BitVec.toNat_shiftLeft, Nat.shiftLeft_eq, Nat.mul_comm]
    rw [floatTwice_tiny]
    by_cases lower : m.toNat < 2 ^ 22
    · rw [if_pos lower, floatHalf_tiny]
      have back : m <<< 1 >>> 1 = m := by
        apply BitVec.eq_of_toNat_eq
        rw [BitVec.toNat_ushiftRight, Nat.shiftRight_eq_div_pow, shifted]
        omega
      rw [back]
      exact iff_of_true (fun _ => rfl) (by omega)
    · have lost : floatHalf (pack s 1#8 (m <<< 1)) = pack s 0#8 (m <<< 1) :=
        floatHalf_normal s 1#8 _ (by decide) (by decide)
      rw [if_neg lower, lost]
      apply iff_of_false
      · intro undone
        have mantissas := congrArg (fun f => (fields f).mantissa.toNat) (undone (Nat.zero_le _))
        simp only [fields_pack, shifted] at mantissas
        omega
      · exact fun clear => clear ⟨rfl, by omega⟩
  · apply iff_of_true
    · intro most
      have finite : e ≠ .allOnes 8 := by
        rintro rfl
        exact absurd most (by decide)
      have next := toNat_succ finite
      have positive' : e + 1#8 ≠ 0#8 := by
        intro zero
        rw [zero] at next
        simp at next
      have finite' : e + 1#8 ≠ .allOnes 8 := by
        intro special
        rw [special] at next
        have top : (BitVec.allOnes 8).toNat = 255 := rfl
        omega
      rw [floatTwice_normal s e m tiny finite, floatHalf_normal s _ m positive' finite',
        BitVec.add_sub_cancel]
    · exact fun wrong => tiny wrong.1

/-- Half the least normal value: doubled it is normal, and halved again it is zero. -/
theorem floatHalf_floatTwice_zero : floatHalf (floatTwice 0x00400000) = 0 ∧
    ¬ ((fields 0x00400000).exponent.toNat ≤ 253 →
      floatHalf (floatTwice 0x00400000) = 0x00400000) := by
  decide

structure NanKept (f : FloatBits) : Prop where
  nan : floatIsNan f = 1 →
    floatNegate f = f ∧ floatAbs f = f ∧ floatTwice f = f ∧ floatHalf f = f
  number : floatIsNan f = 0 →
    floatNegate f &&& 0x7FFFFFFF = f &&& 0x7FFFFFFF ∧ floatAbs f &&& 0x7FFFFFFF = f &&& 0x7FFFFFFF ∧
      floatNegate (floatNegate f) = f ∧ floatAbs (floatNegate f) = floatAbs f

theorem signed_iff (s : BitVec 1) (e : BitVec 8) (m : BitVec 23) :
    pack s e m &&& 0x80000000 ≠ 0 ↔ s ≠ 0#1 := by
  have zero : (0 : UInt32) = pack 0#1 0#8 0#23 := by decide
  rw [and_signMask, zero, ne_eq, pack_inj]
  simp

/-- The absolute value clears the sign of what is not a number. -/
theorem nanKept_iff (f : FloatBits) : NanKept f ↔ ¬ (floatIsNan f = 1 ∧ f &&& 0x80000000 ≠ 0) := by
  obtain ⟨s, e, m, rfl⟩ := exists_pack f
  rw [signed_iff, floatIsNan_pack]
  by_cases nan : e = .allOnes 8 ∧ m ≠ 0#23
  · rw [if_pos nan]
    have negated : floatNegate (pack s e m) = pack s e m := (floatNegate_pack s e m).trans (if_pos nan)
    have isNan : floatIsNan (pack s e m) = 1 := (floatIsNan_pack s e m).trans (if_pos nan)
    constructor
    · rintro kept ⟨-, negative⟩
      have same := (kept.nan isNan).2.1
      rw [floatAbs_pack, pack_inj] at same
      exact negative same.1.symm
    · intro clear
      have positive : s = 0#1 := by
        by_contra negative
        exact clear ⟨rfl, negative⟩
      subst positive
      refine ⟨fun _ => ⟨negated, floatAbs_pack _ e m, ?_, ?_⟩, fun number => ?_⟩
      · rw [nan.1, floatTwice_special]
      · rw [nan.1, floatHalf_special]
      · rw [isNan] at number
        exact absurd number (by decide)
  · rw [if_neg nan]
    have negated : ∀ s, floatNegate (pack s e m) = pack (~~~s) e m :=
      fun s => (floatNegate_pack s e m).trans (if_neg nan)
    have isNumber : floatIsNan (pack s e m) = 0 := (floatIsNan_pack s e m).trans (if_neg nan)
    apply iff_of_true
    · refine ⟨fun wrong => ?_, fun _ => ⟨?_, ?_, ?_, ?_⟩⟩
      · rw [isNumber] at wrong
        exact absurd wrong (by decide)
      · rw [negated, and_absMask, and_absMask]
      · rw [floatAbs_pack, and_absMask, and_absMask]
      · rw [negated, negated, BitVec.not_not]
      · rw [negated, floatAbs_pack, floatAbs_pack]
    · exact fun wrong => absurd wrong.1 (by decide)

/-- The negative of the quiet one. -/
theorem floatAbs_nan : floatIsNan 0xFFC00000 = 1 ∧ floatAbs 0xFFC00000 = 0x7FC00000 ∧
    ¬ NanKept 0xFFC00000 :=
  ⟨by decide, by decide, fun kept => absurd (kept.nan (by decide)).2.1 (by decide)⟩

end Syseng.BitsAndBytes.FloatBits
