import Mathlib
import Syseng.Support.Table

/-! Products of positive `double`s: each is the nearest one to the exact product, and its integral part is
found by dividing mantissas. -/

namespace Syseng.Support.Double
open Float.Model Float.Model.UnpackedFloat

/-- What is left of the mantissa `p` after `n` bits have gone: the bit below the last one tells whether
half a unit or more is missing, the sticky bit whether this is not exactly so. -/
structure Cut (p n : Nat) (em : ExtendedMantissa) : Prop where
  below : em.mantissa * 2 ^ n ≤ p
  above : p < em.mantissa * 2 ^ n + 2 ^ n
  half : em.roundBit = true ↔ em.mantissa * 2 ^ n * 2 + 2 ^ n ≤ p * 2
  exact_ : em.stickyBit = false → p = em.mantissa * 2 ^ n ∨ p * 2 = em.mantissa * 2 ^ n * 2 + 2 ^ n

theorem cut_start (p : Nat) : Cut p 0 ⟨p, false, false⟩ where
  below := by simp
  above := by simp
  half := by simp
  exact_ := by simp

theorem cut_shiftRightOne {p n : Nat} {em : ExtendedMantissa} (cut : Cut p n em) :
    Cut p (n + 1) em.shiftRightOne := by
  have width : 2 ^ (n + 1) = 2 ^ n * 2 := Nat.pow_succ 2 n
  have split : em.mantissa * 2 ^ n = em.mantissa / 2 * (2 ^ n * 2) + em.mantissa % 2 * 2 ^ n := by
    calc em.mantissa * 2 ^ n = (2 * (em.mantissa / 2) + em.mantissa % 2) * 2 ^ n := by
          rw [Nat.div_add_mod]
      _ = em.mantissa / 2 * (2 ^ n * 2) + em.mantissa % 2 * 2 ^ n := by ring
  obtain ⟨below, above, half, exact_⟩ := cut
  rw [split] at below above half exact_
  rcases Nat.mod_two_eq_zero_or_one em.mantissa with even | odd
  · rw [even, Nat.zero_mul, Nat.add_zero] at below above half exact_
    constructor <;> simp only [ExtendedMantissa.shiftRightOne, width, even]
    · exact below
    · omega
    · simp only [bne_self_eq_false, Bool.false_eq_true, false_iff]
      omega
    · rw [Bool.or_eq_false_iff]
      rintro ⟨round, sticky⟩
      rcases exact_ sticky with nothing | middle
      · exact Or.inl nothing
      · rw [half.mpr (by omega)] at round
        cases round
  · rw [odd, Nat.one_mul] at below above half exact_
    constructor <;> simp only [ExtendedMantissa.shiftRightOne, width, odd]
    · omega
    · omega
    · simp only [Nat.reduceBNe, true_iff]
      omega
    · rw [Bool.or_eq_false_iff]
      rintro ⟨round, sticky⟩
      rcases exact_ sticky with nothing | middle
      · right
        omega
      · rw [half.mpr (by omega)] at round
        cases round

theorem cut_shift (p n : Nat) : Cut p n ((⟨p, false, false⟩ : ExtendedMantissa) >>> n) := by
  induction n with
  | zero => exact cut_start p
  | succ n ih => exact cut_shiftRightOne ih

theorem nearest {p n : Nat} {em : ExtendedMantissa} (cut : Cut p n em) :
    p * 2 ≤ em.roundedMantissa * 2 ^ n * 2 + 2 ^ n ∧ em.roundedMantissa * 2 ^ n * 2 ≤ p * 2 + 2 ^ n := by
  obtain ⟨below, above, half, exact_⟩ := cut
  obtain ⟨m, round, sticky⟩ := em
  have next : (m + 1) * 2 ^ n = m * 2 ^ n + 2 ^ n := Nat.succ_mul m (2 ^ n)
  have unit : 0 < 2 ^ n := Nat.two_pow_pos n
  cases round with
  | false =>
    have short : ¬ m * 2 ^ n * 2 + 2 ^ n ≤ p * 2 := fun long => by
      have set := half.mpr long
      cases set
    have same : (⟨m, false, sticky⟩ : ExtendedMantissa).roundedMantissa = m := by
      cases sticky <;> rfl
    rw [same]
    dsimp only at below
    omega
  | true =>
    have long := half.mp rfl
    cases sticky with
    | true =>
      change p * 2 ≤ (m + 1) * 2 ^ n * 2 + 2 ^ n ∧ (m + 1) * 2 ^ n * 2 ≤ p * 2 + 2 ^ n
      dsimp only at above long
      omega
    | false =>
      -- a tie goes to the even mantissa
      change p * 2 ≤ (m + m % 2) * 2 ^ n * 2 + 2 ^ n ∧ (m + m % 2) * 2 ^ n * 2 ≤ p * 2 + 2 ^ n
      have middle := exact_ rfl
      dsimp only at middle long
      rcases Nat.mod_two_eq_zero_or_one m with even | odd
      · rw [even, Nat.add_zero]
        omega
      · rw [odd]
        omega

/-- A positive number in full precision: `m` has 53 bits. -/
structure Normal (u : UnpackedFloat) (m : Nat) (e : Int) : Prop where
  finite : ∃ pos, u = .finite .positive m e pos
  low : 2 ^ 52 ≤ m
  high : m < 2 ^ 53

theorem log2_eq {m k : Nat} (low : 2 ^ k ≤ m) (high : m < 2 ^ (k + 1)) : m.log2 = k := by
  have nonzero : m ≠ 0 := by
    have positive := Nat.two_pow_pos k
    omega
  exact (Nat.log2_eq_iff nonzero).mpr ⟨low, high⟩

theorem targetExponent_eq {p k : Nat} {e : Int} (low : 2 ^ (52 + k) ≤ p) (high : p < 2 ^ (53 + k))
    (least : -1074 ≤ e) : Format.binary64.targetExponent (totalExponent p e) = e + k := by
  have bits : p.log2 = 52 + k := by
    apply log2_eq low
    rwa [show 52 + k + 1 = 53 + k by omega]
  simp only [Format.targetExponent, totalExponent, bits, Format.mantissaBits, Format.minExponent]
  omega

theorem shift_target {p k : Nat} {e : Int} (low : 2 ^ (52 + k) ≤ p) (high : p < 2 ^ (53 + k))
    (least : -1074 ≤ e) :
    shiftToTargetExponent .binary64 p e .exact = ((⟨p, false, false⟩ : ExtendedMantissa) >>> k, e + k) := by
  have amount : (e + k - e).toNat = k := by omega
  unfold shiftToTargetExponent shiftToExponent
  dsimp only
  rw [targetExponent_eq low high least, amount]
  rfl

/-- The second shift of a rounding makes room for a carry. -/
theorem round_twice {p k r : Nat} {e e' : Int} {em : ExtendedMantissa} (low : 2 ^ (52 + k) ≤ p)
    (high : p < 2 ^ (53 + k)) (least : -1074 ≤ e)
    (rounded : r = ((⟨p, false, false⟩ : ExtendedMantissa) >>> k).roundedMantissa)
    (again : shiftToTargetExponent .binary64 r (e + k) .exact = (em, e')) (some_ : 0 < em.mantissa) :
    roundWithAccuracy .binary64 .positive p e .exact = .finite .positive em.mantissa e' some_ := by
  have nonzero : em.mantissa ≠ 0 := by omega
  subst rounded
  simp [roundWithAccuracy, shift_target low high least, again, nonzero]

theorem round_normal {p k : Nat} {e : Int} (low : 2 ^ (52 + k) ≤ p) (high : p < 2 ^ (53 + k))
    (least : -1074 ≤ e) :
    ∃ r m j : Nat, Normal (roundWithAccuracy .binary64 .positive p e .exact) m (e + k + j) ∧ j ≤ 1 ∧
      m * 2 ^ j = r ∧ p * 2 ≤ r * 2 ^ k * 2 + 2 ^ k ∧ r * 2 ^ k * 2 ≤ p * 2 + 2 ^ k := by
  have near := nearest (cut_shift p k)
  obtain ⟨r, same⟩ : ∃ r, r = ((⟨p, false, false⟩ : ExtendedMantissa) >>> k).roundedMantissa := ⟨_, rfl⟩
  rw [← same] at near
  have unit := Nat.two_pow_pos k
  have low' : 2 ^ 52 * 2 ^ k ≤ p := by rwa [← Nat.pow_add]
  have high' : p < 2 ^ 53 * 2 ^ k := by rwa [← Nat.pow_add]
  have enough : 2 ^ 52 ≤ r := by
    by_contra less
    have scaled := Nat.mul_le_mul_right (2 ^ k) (show r + 1 ≤ 2 ^ 52 by omega)
    rw [Nat.add_mul] at scaled
    omega
  have most : r ≤ 2 ^ 53 := by
    by_contra more
    have scaled := Nat.mul_le_mul_right (2 ^ k) (show 2 ^ 53 + 1 ≤ r by omega)
    rw [Nat.add_mul] at scaled
    omega
  by_cases carried : r = 2 ^ 53
  · rw [carried] at same near
    have again := shift_target (k := 1) (e := e + k) (Nat.le_refl (2 ^ 53)) (by decide) (by omega)
    have rounded := round_twice low high least same again (by decide)
    exact ⟨2 ^ 53, 2 ^ 52, 1, ⟨⟨_, rounded⟩, Nat.le_refl _, by decide⟩, Nat.le_refl 1, rfl, near⟩
  · have again := shift_target (k := 0) (e := e + k) enough (by omega) (by omega)
    have rounded := round_twice low high least same again (Nat.lt_of_lt_of_le (by decide) enough)
    exact ⟨r, r, 0, ⟨⟨_, rounded⟩, enough, by omega⟩, by decide, Nat.mul_one r, near⟩

theorem sign_positive (exponent : BitVec 11) (mantissa : BitVec 52) :
    unpackSign (packComponents .binary64 .positive exponent mantissa) = 0#1 := by
  apply BitVec.eq_of_getLsbD_eq
  intro i below
  have first : i = 0 := by omega
  have top : (0#1 ++ exponent ++ mantissa).getLsbD 63 = false := by
    rw [BitVec.getLsbD_append, BitVec.getLsbD_append]
    simp
  subst first
  simp only [unpackSign, packComponents, Sign.toBitVec, BitVec.getLsbD_cast, BitVec.getLsbD_extractLsb]
  simp only [Nat.add_zero, top, Bool.and_false]
  rfl

theorem packed {m b : Nat} {e : Int} (pos : 0 < m) (low : 2 ^ 52 ≤ m) (high : m < 2 ^ 53)
    (biased : (b : Int) = e + 1075) (most : b < 2047) :
    UnpackedFloat.pack .binary64 (.finite .positive m e pos) =
      packComponents .binary64 .positive (BitVec.ofNat 11 b) (BitVec.ofNat 52 m) := by
  have stored : (e + (1023 : Nat) + (52 : Nat)).toNat = b := by omega
  have bias : Format.binary64.exponentBias = 1023 := by decide
  have normal : (52 : Nat) + 1 = Format.binary64.mantissaBits := by decide
  have inside : ¬ (2 ^ 11 : Nat) ≤ b + 1 := by omega
  simp only [UnpackedFloat.pack, log2_eq low high, bias, stored]
  rw [if_neg inside, if_pos normal]

theorem toNat_leading (mantissa : BitVec 52) : (1#1 ++ mantissa).toNat = 2 ^ 52 + mantissa.toNat := by
  rw [BitVec.toNat_append, ← Nat.shiftLeft_add_eq_or_of_lt mantissa.isLt]
  rfl

theorem unpacked {exponent : BitVec 11} (mantissa : BitVec 52) (some_ : exponent ≠ 0#11)
    (finite : exponent ≠ -1#11) :
    ∃ pos, UnpackedFloat.unpack .binary64 (packComponents .binary64 .positive exponent mantissa) =
      .finite .positive (2 ^ 52 + mantissa.toNat) (exponent.toNat - 1075) pos := by
  have bias : ((Format.binary64.exponentBias : Int) + (52 : Nat)) = 1075 := by decide
  unfold UnpackedFloat.unpack
  simp only [unpackExponent_packComponents, unpackMantissa_packComponents, sign_positive, bias, toNat_leading]
  rw [if_neg finite, if_neg some_]
  exact ⟨by omega, rfl⟩

theorem unpack_pack {u : UnpackedFloat} {m : Nat} {e : Int} (normal : Normal u m e) (least : -1074 ≤ e)
    (most : e ≤ 971) : Normal (Float.Model.pack u).unpack m e := by
  obtain ⟨⟨pos, rfl⟩, low, high⟩ := normal
  obtain ⟨b, biased⟩ : ∃ b : Nat, (b : Int) = e + 1075 := ⟨(e + 1075).toNat, by omega⟩
  have value : (BitVec.ofNat 11 b).toNat = b := by
    rw [BitVec.toNat_ofNat]
    omega
  have some_ : BitVec.ofNat 11 b ≠ 0#11 := fun same => by
    have zero := congrArg BitVec.toNat same
    rw [value] at zero
    change b = 0 at zero
    omega
  have finite : BitVec.ofNat 11 b ≠ -1#11 := fun same => by
    have ones := congrArg BitVec.toNat same
    rw [value] at ones
    change b = 2047 at ones
    omega
  have stored : (BitVec.ofNat 52 m).toNat = m - 2 ^ 52 := by
    rw [BitVec.toNat_ofNat]
    omega
  obtain ⟨pos', same⟩ := unpacked (BitVec.ofNat 52 m) some_ finite
  refine ⟨⟨pos, ?_⟩, low, high⟩
  change UnpackedFloat.unpack .binary64 (UnpackedFloat.pack .binary64 (.finite .positive m e pos)) = _
  rw [packed pos low high biased (by omega), same]
  congr 1 <;> omega

theorem round_exact {m : Nat} {e : Int} (low : 2 ^ 52 ≤ m) (high : m < 2 ^ 53) (least : -1074 ≤ e) :
    Normal (roundWithAccuracy .binary64 .positive m e .exact) m e := by
  obtain ⟨r, p, j, normal, small, value, below, above⟩ := round_normal (k := 0) low high least
  have first : j = 0 := by
    have least_ := normal.low
    by_contra carried
    have one : j = 1 := by omega
    subst one
    omega
  subst first
  have same : p = m := by omega
  rw [same] at normal
  simpa using normal

theorem toFloat_normal {n : UInt64} {s : Nat} (low : 2 ^ 52 ≤ n.toNat * 2 ^ s)
    (high : n.toNat * 2 ^ s < 2 ^ 53) : Normal n.toFloat.toModel.unpack (n.toNat * 2 ^ s) (-s) := by
  have positive : 0 < n.toNat := by
    by_contra none_
    have zero : n.toNat = 0 := by omega
    rw [zero] at low
    omega
  have shift : s ≤ 52 := by
    have below : 2 ^ s < 2 ^ 53 := Nat.lt_of_le_of_lt (Nat.le_mul_of_pos_left _ positive) high
    have less := (Nat.pow_lt_pow_iff_right (by decide)).mp below
    omega
  have halves : 2 ^ (52 - s) * 2 ^ s = 2 ^ 52 := by rw [← Nat.pow_add, Nat.sub_add_cancel shift]
  have bits : n.toNat.log2 = 52 - s := by
    apply log2_eq
    · rw [← halves] at low
      exact Nat.le_of_mul_le_mul_right low (Nat.two_pow_pos s)
    · have doubled : 2 ^ (52 - s + 1) * 2 ^ s = 2 ^ 53 := by
        rw [Nat.pow_succ, Nat.mul_right_comm, halves]
        rfl
      rw [← doubled] at high
      exact Nat.lt_of_mul_lt_mul_right high
  have target : Format.binary64.targetExponent (totalExponent n.toNat 0) = -s := by
    simp only [Format.targetExponent, totalExponent, bits, Format.mantissaBits, Format.minExponent]
    omega
  have converted : n.toFloat.toModel = Float.Model.pack
      (roundWithAccuracy .binary64 .positive (n.toNat * 2 ^ s) (-s) .exact) := by
    have more : compare (n.toNat : Int) 0 = .gt := by
      rw [compare_gt_iff_gt]
      omega
    have amount : (0 - -(s : Int)).toNat = s := by omega
    change Float.Model.pack (UnpackedFloat.normalize .binary64 n.toNat 0 .positive) = _
    simp only [UnpackedFloat.normalize, more, UnpackedFloat.round, Int.toNat_natCast, target, decreaseExponent, amount, Nat.shiftLeft_eq]
    congr 2
    omega
  rw [converted]
  exact unpack_pack (round_exact low high (by omega)) (by omega) (by omega)

theorem mul_normal {a b : Float} {m m' k : Nat} {e e' : Int} (first : Normal a.toModel.unpack m e)
    (second : Normal b.toModel.unpack m' e') (low : 2 ^ (52 + k) ≤ m * m') (high : m * m' < 2 ^ (53 + k))
    (least : -1074 ≤ e + e') (most : e + e' + k ≤ 970) :
    ∃ r p j : Nat, Normal (a * b).toModel.unpack p (e + e' + k + j) ∧ j ≤ 1 ∧ p * 2 ^ j = r ∧
      m * m' * 2 ≤ r * 2 ^ k * 2 + 2 ^ k ∧ r * 2 ^ k * 2 ≤ m * m' * 2 + 2 ^ k := by
  obtain ⟨⟨pos, left⟩, -, -⟩ := first
  obtain ⟨⟨pos', right⟩, -, -⟩ := second
  obtain ⟨r, p, j, normal, small, value, below, above⟩ := round_normal low high least
  have product : (a * b).toModel = Float.Model.pack
      (roundWithAccuracy .binary64 .positive (m * m') (e + e') .exact) := by
    change Float.Model.pack (UnpackedFloat.mul .binary64 a.toModel.unpack b.toModel.unpack) = _
    rw [left, right]
    rfl
  refine ⟨r, p, j, ?_, small, value, below, above⟩
  rw [product]
  exact unpack_pack normal (by omega) (by omega)

theorem toUInt64_normal {x : Float} {m t : Nat} (normal : Normal x.toModel.unpack m (-t)) :
    x.toUInt64.toNat = m / 2 ^ t := by
  obtain ⟨⟨pos, same⟩, low, high⟩ := normal
  have cut := cut_shift m t
  have quotient : ((⟨m, false, false⟩ : ExtendedMantissa) >>> t).mantissa = m / 2 ^ t := by
    have lower := cut.below
    have upper := cut.above
    apply Eq.symm
    apply Nat.div_eq_of_lt_le
    · omega
    · rw [Nat.succ_mul]
      omega
  have whole : roundToInt .positive m (-t) = ((m / 2 ^ t : Nat) : Int) := by
    have kept : (-(t : Int) - 0).toNat = 0 := by omega
    have amount : (0 - (-(t : Int) - (0 : Nat))).toNat = t := by omega
    simp only [roundToInt, decreaseExponent, shiftToExponent, kept, Nat.shiftLeft_zero, amount]
    exact congrArg Int.ofNat quotient
  have below : m / 2 ^ t < 18446744073709551616 := by
    have less := Nat.div_le_self m (2 ^ t)
    omega
  change (x.toModel.unpack.toUInt64).toNat = _
  rw [same]
  change (UInt64.ofNatClamp (roundToInt .positive m (-t)).toNat).toNat = _
  rw [whole, Int.toNat_natCast, UInt64.ofNatClamp, dif_pos below]
  rfl

theorem exists_shift {n : Nat} (some_ : 0 < n) (small : n < 2 ^ 53) :
    ∃ s, 2 ^ 52 ≤ n * 2 ^ s ∧ n * 2 ^ s < 2 ^ 53 := by
  have nonzero : n ≠ 0 := by omega
  have low := Nat.log2_self_le nonzero
  have high := Nat.lt_log2_self (n := n)
  have bits : n.log2 < 53 := (Nat.log2_lt nonzero).mpr small
  refine ⟨52 - n.log2, ?_, ?_⟩
  · calc 2 ^ 52 = 2 ^ n.log2 * 2 ^ (52 - n.log2) := by rw [← Nat.pow_add, Nat.add_sub_of_le (by omega)]
      _ ≤ n * 2 ^ (52 - n.log2) := Nat.mul_le_mul_right _ low
  · calc n * 2 ^ (52 - n.log2) < 2 ^ (n.log2 + 1) * 2 ^ (52 - n.log2) :=
          Nat.mul_lt_mul_of_pos_right high (Nat.two_pow_pos _)
      _ = 2 ^ 53 := by rw [← Nat.pow_add]; congr 1; omega

theorem part_of_product {num den n c s k r : Nat} (positive : 0 < den)
    (above : den * c ≤ num * 2 ^ 53 + den) (below : 4 * (num * 2 ^ 53) ≤ 4 * (den * c) + den)
    (high : n * 2 ^ s < 2 ^ 53) (bits : 2 * den ≤ 2 ^ s) (low : 52 ≤ k) (most : k ≤ 53)
    (up : c * (n * 2 ^ s) * 2 ≤ r * 2 ^ k * 2 + 2 ^ k) (down : r * 2 ^ k * 2 ≤ c * (n * 2 ^ s) * 2 + 2 ^ k) :
    r / 2 ^ (53 + s - k) = num * n / den := by
  obtain ⟨q, same⟩ : ∃ q, q = num * n / den := ⟨_, rfl⟩
  have part : den * q ≤ num * n := by
    rw [same]
    exact Nat.mul_div_le _ _
  have rest : num * n + 1 ≤ den * q + den := by
    rw [same]
    exact Nat.lt_mul_div_succ (num * n) positive
  have whole : 2 ^ (53 + s - k) * 2 ^ k = 2 ^ 53 * 2 ^ s := by
    rw [← Nat.pow_add, ← Nat.pow_add]
    congr 1
    omega
  have unit : 2 ^ 53 ≤ 2 * 2 ^ k := by
    calc 2 ^ 53 = 2 * 2 ^ 52 := by decide
      _ ≤ 2 * 2 ^ k := Nat.mul_le_mul_left 2 (Nat.pow_le_pow_right (by decide) low)
  have wide : 2 ^ k ≤ 2 ^ 53 := Nat.pow_le_pow_right (by decide) most
  rw [← same]
  generalize 2 ^ (53 + s - k) = t at whole ⊢
  generalize 2 ^ k = u at *
  -- everything is compared as a multiple of `den`
  have error := Nat.mul_lt_mul_of_pos_left high positive
  have half : den * 2 ^ 53 ≤ 2 * (den * u) := by
    calc den * 2 ^ 53 ≤ den * (2 * u) := Nat.mul_le_mul_left den unit
      _ = 2 * (den * u) := by ring
  have full := Nat.mul_le_mul_left den wide
  have room : 2 * (den * 2 ^ 53) ≤ t * u := by
    calc 2 * (den * 2 ^ 53) = 2 ^ 53 * (2 * den) := by ring
      _ ≤ 2 ^ 53 * 2 ^ s := Nat.mul_le_mul_left _ bits
      _ = t * u := whole.symm
  have least : 4 * (num * n * (t * u)) ≤ 4 * (den * (c * (n * 2 ^ s))) + den * (n * 2 ^ s) := by
    calc 4 * (num * n * (t * u)) = 4 * (num * 2 ^ 53) * (n * 2 ^ s) := by rw [whole]; ring
      _ ≤ (4 * (den * c) + den) * (n * 2 ^ s) := Nat.mul_le_mul_right _ below
      _ = 4 * (den * (c * (n * 2 ^ s))) + den * (n * 2 ^ s) := by ring
  have greatest : den * (c * (n * 2 ^ s)) ≤ num * n * (t * u) + den * (n * 2 ^ s) := by
    calc den * (c * (n * 2 ^ s)) = den * c * (n * 2 ^ s) := by ring
      _ ≤ (num * 2 ^ 53 + den) * (n * 2 ^ s) := Nat.mul_le_mul_right _ above
      _ = num * n * (t * u) + den * (n * 2 ^ s) := by rw [whole]; ring
  have up' : 2 * (den * (c * (n * 2 ^ s))) ≤ 2 * (den * (r * u)) + den * u := by
    calc 2 * (den * (c * (n * 2 ^ s))) = den * (c * (n * 2 ^ s) * 2) := by ring
      _ ≤ den * (r * u * 2 + u) := Nat.mul_le_mul_left den up
      _ = 2 * (den * (r * u)) + den * u := by ring
  have down' : 2 * (den * (r * u)) ≤ 2 * (den * (c * (n * 2 ^ s))) + den * u := by
    calc 2 * (den * (r * u)) = den * (r * u * 2) := by ring
      _ ≤ den * (c * (n * 2 ^ s) * 2 + u) := Nat.mul_le_mul_left den down
      _ = 2 * (den * (c * (n * 2 ^ s))) + den * u := by ring
  have part' : den * (q * (t * u)) ≤ num * n * (t * u) := by
    calc den * (q * (t * u)) = den * q * (t * u) := by ring
      _ ≤ num * n * (t * u) := Nat.mul_le_mul_right _ part
  have rest' : num * n * (t * u) + t * u ≤ den * (q * (t * u)) + den * (t * u) := by
    calc num * n * (t * u) + t * u = (num * n + 1) * (t * u) := by ring
      _ ≤ (den * q + den) * (t * u) := Nat.mul_le_mul_right _ rest
      _ = den * (q * (t * u)) + den * (t * u) := by ring
  have positive_u : 0 < u := by omega
  apply Nat.div_eq_of_lt_le
  · have scaled : den * (q * t * u) < den * ((r + 1) * u) := by
      calc den * (q * t * u) = den * (q * (t * u)) := by ring
        _ < den * (r * u) + den * u := by omega
        _ = den * ((r + 1) * u) := by ring
    have fewer := Nat.lt_of_mul_lt_mul_right (Nat.lt_of_mul_lt_mul_left scaled)
    omega
  · have scaled : den * (r * u) < den * ((q + 1) * t * u) := by
      calc den * (r * u) < den * (q * (t * u)) + den * (t * u) := by omega
        _ = den * ((q + 1) * t * u) := by ring
    exact Nat.lt_of_mul_lt_mul_right (Nat.lt_of_mul_lt_mul_left scaled)

theorem exists_width {m m' : Nat} (low : 2 ^ 52 ≤ m) (high : m < 2 ^ 53) (low' : 2 ^ 52 ≤ m')
    (high' : m' < 2 ^ 53) : ∃ k, 52 ≤ k ∧ k ≤ 53 ∧ 2 ^ (52 + k) ≤ m * m' ∧ m * m' < 2 ^ (53 + k) := by
  have least : 2 ^ 104 ≤ m * m' := by
    calc 2 ^ 104 = 2 ^ 52 * 2 ^ 52 := by decide
      _ ≤ m * m' := Nat.mul_le_mul low low'
  have most : m * m' < 2 ^ 106 := by
    calc m * m' < 2 ^ 53 * 2 ^ 53 := Nat.mul_lt_mul'' high high'
      _ = 2 ^ 106 := by decide
  by_cases short : m * m' < 2 ^ 105
  · exact ⟨52, by decide, by decide, least, short⟩
  · exact ⟨53, by decide, by decide, by omega, most⟩

/-- A factor close to `num / den`, times a `size_t`: converted back it is the exact quotient. -/
theorem toUInt64_mul {c : Float} {m num den : Nat} (factor : Normal c.toModel.unpack m (-53))
    (positive : 0 < den) (above : den * m ≤ num * 2 ^ 53 + den) (below : 4 * (num * 2 ^ 53) ≤ 4 * (den * m) + den)
    {n : UInt64} (some_ : 0 < n.toNat) (small : 2 * den * n.toNat ≤ 2 ^ 52) :
    (∃ p t : Nat, Normal (c * n.toFloat).toModel.unpack p (-t)) ∧
      (c * n.toFloat).toUInt64.toNat = num * n.toNat / den := by
  have fits : n.toNat < 2 ^ 53 := by
    have scaled := Nat.mul_le_mul_right n.toNat (show 1 ≤ 2 * den by omega)
    omega
  obtain ⟨s, low, high⟩ := exists_shift some_ fits
  obtain ⟨k, least, most, wide, narrow⟩ := exists_width factor.low factor.high low high
  have shift : s ≤ 52 := by
    have less : 2 ^ s < 2 ^ 53 := Nat.lt_of_le_of_lt (Nat.le_mul_of_pos_left _ some_) high
    have exponent := (Nat.pow_lt_pow_iff_right (by decide)).mp less
    omega
  have bits : 2 * den ≤ 2 ^ s := by
    have scaled : n.toNat * (2 * den) ≤ n.toNat * 2 ^ s := by
      rw [Nat.mul_comm]
      omega
    exact Nat.le_of_mul_le_mul_left scaled some_
  obtain ⟨r, p, j, normal, small_, value, up, down⟩ :=
    mul_normal factor (toFloat_normal low high) wide narrow (by omega) (by omega)
  have some_bit : 1 ≤ s := by
    by_contra none_
    have zero : s = 0 := by omega
    rw [zero] at bits
    omega
  have exponent : (-53 : Int) + -s + k + j = -((53 + s - k - j : Nat) : Int) := by omega
  rw [exponent] at normal
  refine ⟨⟨p, _, normal⟩, ?_⟩
  have split : 2 ^ (53 + s - k) = 2 ^ (53 + s - k - j) * 2 ^ j := by
    rw [← Nat.pow_add]
    congr 1
    omega
  calc (c * n.toFloat).toUInt64.toNat = p / 2 ^ (53 + s - k - j) := toUInt64_normal normal
    _ = p * 2 ^ j / (2 ^ (53 + s - k - j) * 2 ^ j) := (Nat.mul_div_mul_right _ _ (Nat.two_pow_pos j)).symm
    _ = r / 2 ^ (53 + s - k) := by rw [value, split]
    _ = num * n.toNat / den := part_of_product positive above below high bits least most up down

def toSize (x : Float) : Except Fault UInt64 :=
  if -1.0 < x ∧ x < 18446744073709551616.0 then .ok x.toUInt64 else .error .outOfRange

theorem lt_of_unpack {x y : Float} (less : UnpackedFloat.lt x.toModel.unpack y.toModel.unpack = true) :
    x < y := by
  change decide (x.toModel < y.toModel) = true
  exact decide_eq_true less

theorem toSize_normal {x : Float} {m t : Nat} (normal : Normal x.toModel.unpack m (-t)) :
    toSize x = .ok x.toUInt64 := by
  obtain ⟨⟨pos, same⟩, -, -⟩ := normal
  have above : -1.0 < x := by
    apply lt_of_unpack
    rw [same]
    rfl
  have below : x < 18446744073709551616.0 := by
    have limit : (18446744073709551616.0 : Float).toModel.unpack =
        .finite .positive (2 ^ 52) 12 (by decide) := rfl
    have less : compare (-(t : Int)) 12 = .lt := by
      rw [compare_lt_iff_lt]
      omega
    apply lt_of_unpack
    rw [same, limit]
    simp [UnpackedFloat.lt, UnpackedFloat.compare, less]
  exact if_pos ⟨above, below⟩

end Syseng.Support.Double
