import Syseng.Support.BitCount
import Syseng.Support.Signed

/-! The functions of `bits.c` on an `int` of 32 bits, whose arithmetic wraps and whose right
shift fills with the sign bit. -/

namespace Syseng.BitsAndBytes.Bits
open Support

def bitNegate (x : Int32) : Int32 := ~~~x + 1

def bitAbs (x : Int32) : Int32 := (x ^^^ (x >>> 31)) - (x >>> 31)

def isPowerOf2 (x : Int32) : Int32 :=
  let v := x &&& (x - 1)
  let notZero := (x ||| (~~~x + 1)) >>> 31
  let notNeg := ~~~(x >>> 31)
  let vZero := ~~~((v ||| (~~~v + 1)) >>> 31)
  vZero &&& notZero &&& notNeg &&& 1

def isNegative (x : Int32) : Int32 := ~~~(x >>> 31) + 1

def addOk (x y : Int32) : Int32 :=
  let inputsDifferentSign := isNegative x ^^^ isNegative y
  let inputsSameSign := bitAbs (~~~inputsDifferentSign)
  let outputOppositeSign := isNegative (x + y) ^^^ isNegative x
  bitAbs ((inputsSameSign &&& outputOppositeSign) - 1)

def conditional (x y z : Int32) : Int32 :=
  let nonZero := (x ||| (~~~x + 1)) >>> 31
  (nonZero &&& y) + (nonZero &&& z) + ((~~~nonZero) &&& z) - (nonZero &&& z)

def bit (x k : Int32) : Int32 := (x >>> k) &&& 1

def bitCount (x : Int32) : Int32 :=
  (x &&& 1) + bit x 1 + bit x 2 + bit x 3 + bit x 4 + bit x 5 + bit x 6 + bit x 7 + bit x 8 +
  bit x 9 + bit x 10 + bit x 11 + bit x 12 + bit x 13 + bit x 14 + bit x 15 + bit x 16 +
  bit x 17 + bit x 18 + bit x 19 + bit x 20 + bit x 21 + bit x 22 + bit x 23 + bit x 24 +
  bit x 25 + bit x 26 + bit x 27 + bit x 28 + bit x 29 + bit x 30 + bit x 31

theorem negative_iff (x : Int32) : x < 0 ↔ x.toInt < 0 := Int32.lt_iff_toInt_lt

theorem sign_mask (x : Int32) : x >>> 31 = if x < 0 then -1 else 0 := by
  have shifted : (x >>> 31).toInt = x.toInt / 2 ^ 31 := by
    have moved : (x >>> 31).toBitVec = x.toBitVec.sshiftRight 31 := rfl
    rw [← Int32.toInt_toBitVec, moved, BitVec.toInt_sshiftRight, Int.shiftRight_eq_div_pow]
    rfl
  have low := x.le_toInt
  have high := x.toInt_lt
  apply Int32.toInt_inj.mp
  rw [shifted]
  by_cases negative : x < 0
  · rw [if_pos negative]
    rw [negative_iff] at negative
    change x.toInt / 2 ^ 31 = -1
    omega
  · rw [if_neg negative]
    rw [negative_iff] at negative
    change x.toInt / 2 ^ 31 = 0
    omega

theorem isNegative_eq (x : Int32) : isNegative x = if x < 0 then 1 else 0 := by
  unfold isNegative
  rw [sign_mask]
  split <;> rfl

theorem bitNegate_eq (x : Int32) : bitNegate x = -x := (Int32.neg_eq_not_add x).symm

theorem bitAbs_eq (x : Int32) : bitAbs x = if x < 0 then -x else x := by
  unfold bitAbs
  rw [sign_mask]
  split
  · rw [Int32.xor_neg_one, Int32.sub_neg, ← Int32.neg_eq_not_add]
  · rw [Int32.xor_zero, Int32.sub_zero]

theorem toInt_neg_exact {x : Int32} (inside : x ≠ Int32.minValue) : (-x).toInt = -x.toInt := by
  have least : x.toInt ≠ -2 ^ 31 := fun same => inside (Int32.toInt_inj.mp same)
  have low := x.le_toInt
  have high := x.toInt_lt
  rw [Int32.toInt_neg, Int.bmod_def]
  split <;> omega

theorem nonzero_mask (x : Int32) : (x ||| (~~~x + 1)) >>> 31 = if x = 0 then 0 else -1 := by
  rw [Int32.shiftRight_or, ← Int32.neg_eq_not_add, sign_mask, sign_mask]
  by_cases zero : x = 0
  · subst zero
    rfl
  · rw [if_neg zero]
    by_cases negative : x < 0
    · rw [if_pos negative, Int32.neg_one_or]
    · have opposite : -x < 0 := by
        have different : x.toInt ≠ 0 := fun same => zero (Int32.toInt_inj.mp same)
        have inside : x ≠ Int32.minValue := fun least => negative (least ▸ (by decide))
        rw [negative_iff] at negative ⊢
        rw [toInt_neg_exact inside]
        omega
      rw [if_neg negative, if_pos opposite, Int32.zero_or]

theorem addOk_eq (x y : Int32) :
    addOk x y = if (x < 0 ↔ y < 0) ∧ ¬ (x + y < 0 ↔ x < 0) then 0 else 1 := by
  unfold addOk
  rw [isNegative_eq, isNegative_eq, isNegative_eq]
  by_cases first : x < 0 <;> by_cases second : y < 0 <;> by_cases sum : x + y < 0 <;>
    simp only [first, second, sum, if_true, if_false, not_true, not_false_eq_true, and_self, and_true,
      iff_self, iff_true, iff_false] <;> rfl

theorem inRange_iff (x y : Int32) :
    Signed.InRange (x.toInt + y.toInt) ↔ ¬ ((x < 0 ↔ y < 0) ∧ ¬ (x + y < 0 ↔ x < 0)) := by
  have lowX := x.le_toInt
  have highX := x.toInt_lt
  have lowY := y.le_toInt
  have highY := y.toInt_lt
  unfold Signed.InRange
  rw [negative_iff, negative_iff, negative_iff, Int32.toInt_add, Int.bmod_def]
  split <;> omega

theorem addOk_one_iff (x y : Int32) : addOk x y = 1 ↔ Signed.InRange (x.toInt + y.toInt) := by
  rw [addOk_eq, inRange_iff]
  split
  · next overflow => exact iff_of_false (by decide) (not_not.mpr overflow)
  · next fits => exact iff_of_true rfl fits

theorem addOk_cases (x y : Int32) : addOk x y = 0 ∨ addOk x y = 1 := by
  rw [addOk_eq]
  split
  · exact Or.inl rfl
  · exact Or.inr rfl

theorem add_ok_decides (x y : Int32) :
    (addOk x y = 0 ∨ addOk x y = 1) ∧ (addOk x y = 1 ↔ Signed.InRange (x.toInt + y.toInt)) ∧
      addOk x y = addOk y x := by
  refine ⟨addOk_cases x y, addOk_one_iff x y, ?_⟩
  have same : addOk x y = 1 ↔ addOk y x = 1 := by
    rw [addOk_one_iff, addOk_one_iff, Int.add_comm]
  rcases addOk_cases x y with zero | one
  · rcases addOk_cases y x with zero' | one'
    · rw [zero, zero']
    · rw [zero, one'] at same
      cases same.mpr rfl
  · rw [one, same.mp one]

theorem conditional_eq (x y z : Int32) : conditional x y z = if x = 0 then z else y := by
  unfold conditional
  rw [nonzero_mask]
  by_cases zero : x = 0
  · simp only [if_pos zero, Int32.zero_and, Int32.zero_add, Int32.sub_zero]
    exact Int32.neg_one_and
  · simp only [if_neg zero, Int32.neg_one_and]
    have cleared : ~~~(-1 : Int32) &&& z = 0 := Int32.zero_and
    rw [cleared, Int32.add_zero, Int32.add_sub_cancel]

theorem bitAbs_magnitude {x : Int32} (inside : x ≠ Int32.minValue) :
    (bitAbs x).toInt = |x.toInt| := by
  rw [bitAbs_eq]
  split
  · next negative =>
    rw [negative_iff] at negative
    rw [abs_of_neg negative, toInt_neg_exact inside]
  · next nonneg =>
    rw [negative_iff] at nonneg
    rw [abs_of_nonneg (by omega)]

theorem bitAbs_negate (x : Int32) : bitAbs (-x) = bitAbs x := by
  by_cases least : x = Int32.minValue
  · subst least
    rfl
  · have least' : -x ≠ Int32.minValue := by
      intro same
      rw [← Int32.neg_neg (a := x), same] at least
      exact least rfl
    apply Int32.toInt_inj.mp
    rw [bitAbs_magnitude least, bitAbs_magnitude least', toInt_neg_exact least, abs_neg]

theorem select_is_conditional (x y z : Int32) :
    conditional x y z = (if x ≠ 0 then y else z) ∧
    bitAbs x = conditional (isNegative x) (bitNegate x) x ∧
    (bitAbs x).toInt = (if x = Int32.minValue then x.toInt else |x.toInt|) ∧
    bitAbs (bitNegate x) = bitAbs x := by
  refine ⟨?_, ?_, ?_, ?_⟩
  · rw [conditional_eq]
    exact (ite_not ..).symm
  · rw [conditional_eq, isNegative_eq, bitAbs_eq, bitNegate_eq]
    split
    · rfl
    · rfl
  · split
    · next least =>
      rw [least]
      rfl
    · next inside => exact bitAbs_magnitude inside
  · rw [bitNegate_eq, bitAbs_negate]

theorem bit_eq (x : Int32) {k : Nat} (below : k < 32) :
    bit x (Int32.ofNat k) = Int32.ofNat (x.toBitVec.getLsbD k).toNat := by
  have position : ∀ j : Fin 32, ((Int32.ofNat j).toBitVec.smod 32#32).toNat = j := by decide
  have shifted : (x >>> Int32.ofNat k).toBitVec = x.toBitVec.sshiftRight k :=
    congrArg x.toBitVec.sshiftRight (position ⟨k, below⟩)
  apply Int32.toBitVec_inj.mp
  unfold bit
  rw [Int32.toBitVec_and, shifted]
  change x.toBitVec.sshiftRight k &&& 1#32 = BitVec.ofNat 32 (x.toBitVec.getLsbD k).toNat
  rw [BitVec.and_one_eq_setWidth_ofBool_getLsbD, BitVec.getLsbD_sshiftRight]
  simp only [below, Nat.add_zero, if_true]
  cases x.toBitVec.getLsbD k <;> rfl

theorem bitCount_fold (x : Int32) :
    bitCount x = (List.range 31).foldl (fun sum k => sum + bit x (Int32.ofNat (k + 1))) (x &&& 1) :=
  rfl

theorem bitCount_eq (x : Int32) : (bitCount x).toInt = x.toBitVec.cpop.toNat := by
  have summed : ∀ n, n ≤ 31 →
      (List.range n).foldl (fun sum k => sum + bit x (Int32.ofNat (k + 1))) (x &&& 1) =
        Int32.ofNat (x.toBitVec.cpopNatRec (n + 1) 0) := by
    intro n short
    induction n with
    | zero =>
      have first := bit_eq x (k := 0) (by decide)
      rw [BitCount.cpopNatRec_next, BitVec.cpopNatRec_zero_self, Nat.zero_add, ← first]
      exact congrArg (· &&& 1) Int32.shiftRight_zero.symm
    | succ n ih =>
      rw [List.range_succ, List.foldl_append, ih (by omega), List.foldl_cons, List.foldl_nil,
        bit_eq x (by omega), ← Int32.ofNat_add, ← BitCount.cpopNatRec_next]
  have bound := x.toBitVec.toNat_cpop_le
  rw [bitCount_fold, summed 31 (by decide), ← BitVec.toNat_cpop]
  exact Int32.toInt_ofNat_of_lt (by omega)

theorem isPowerOf2_eq (x : Int32) :
    isPowerOf2 x = if 0 < x ∧ x &&& (x - 1) = 0 then 1 else 0 := by
  have positive : 0 < x ↔ ¬ x = 0 ∧ ¬ x < 0 := by
    rw [negative_iff, Int32.lt_iff_toInt_lt, ← Int32.toInt_inj]
    change 0 < x.toInt ↔ ¬ x.toInt = 0 ∧ ¬ x.toInt < 0
    omega
  unfold isPowerOf2
  simp only [nonzero_mask]
  simp only [sign_mask, positive]
  by_cases zero : x = 0
  · rw [zero]
    rfl
  · by_cases negative : x < 0 <;> by_cases cleared : x &&& (x - 1) = 0 <;>
      simp only [zero, negative, cleared, if_true, if_false, not_true, not_false_eq_true, and_self,
        and_false, false_and] <;> rfl

theorem isPowerOf2_one_iff (x : Int32) : isPowerOf2 x = 1 ↔ 0 < x ∧ x.toBitVec.cpop.toNat = 1 := by
  have cleared : x &&& (x - 1) = 0 ↔ x.toBitVec &&& (x.toBitVec - 1#32) = 0#32 :=
    Int32.toBitVec_inj.symm
  have nonzero : 0 < x → x.toBitVec ≠ 0#32 := by
    intro positive zero
    have same : x = 0 := Int32.toBitVec_inj.mp zero
    rw [same] at positive
    exact absurd positive (by decide)
  rw [isPowerOf2_eq, BitCount.cpop_eq_one, ← cleared]
  split
  · next both => exact iff_of_true rfl ⟨both.1, nonzero both.1, both.2⟩
  · next other => exact iff_of_false (by decide) fun both => other ⟨both.1, both.2.2⟩

theorem one_bit_iff (x : Int32) :
    0 < x ∧ x.toBitVec.cpop.toNat = 1 ↔ ∃ k ≤ 30, x.toInt = 2 ^ k := by
  rw [BitCount.cpop_eq_one_iff_twoPow, Int32.lt_iff_toInt_lt]
  change 0 < x.toInt ∧ _ ↔ _
  constructor
  · rintro ⟨positive, k, below, same⟩
    have value := congrArg BitVec.toInt same
    rw [Int32.toInt_toBitVec, BitVec.toInt_twoPow, if_neg (by omega)] at value
    by_cases sign : k + 1 = 32
    · rw [if_pos sign] at value
      have power := Nat.two_pow_pos k
      omega
    · rw [if_neg sign] at value
      exact ⟨k, by omega, value⟩
  · rintro ⟨k, short, value⟩
    refine ⟨by rw [value]; exact Int.pow_pos (by decide), k, by omega, BitVec.toInt_inj.mp ?_⟩
    rw [Int32.toInt_toBitVec, value, BitVec.toInt_twoPow, if_neg (by omega), if_neg (by omega)]

theorem bitCount_one_iff (x : Int32) : bitCount x = 1 ↔ x.toBitVec.cpop.toNat = 1 := by
  rw [← Int32.toInt_inj, bitCount_eq]
  change (x.toBitVec.cpop.toNat : Int) = 1 ↔ _
  omega

theorem power_and_count (x y : Int32) :
    (isPowerOf2 x = 1 ↔ 0 < x ∧ bitCount x = 1) ∧
    (isPowerOf2 x = 1 ↔ ∃ k ≤ 30, x.toInt = 2 ^ k) ∧
    (isPowerOf2 x = 0 ∨ isPowerOf2 x = 1) ∧
    (bitCount x).toInt = (List.range 32).countP x.toBitVec.getLsbD ∧
    (bitCount (x ||| y)).toInt + (bitCount (x &&& y)).toInt = (bitCount x).toInt + (bitCount y).toInt ∧
    (bitCount x).toInt + (bitCount (~~~x)).toInt = 32 ∧
    (x ≠ 0 → (bitCount (x &&& (x - 1))).toInt = (bitCount x).toInt - 1) := by
  refine ⟨?_, ?_, ?_, ?_, ?_, ?_, ?_⟩
  · rw [isPowerOf2_one_iff, bitCount_one_iff]
  · rw [isPowerOf2_one_iff, one_bit_iff]
  · rw [isPowerOf2_eq]
    split
    · exact Or.inr rfl
    · exact Or.inl rfl
  · rw [bitCount_eq, BitCount.cpop_eq_countP]
  · have counted := BitCount.cpop_or_add_cpop_and x.toBitVec y.toBitVec
    simp only [bitCount_eq, Int32.toBitVec_or, Int32.toBitVec_and]
    omega
  · have counted := BitCount.cpop_add_cpop_not x.toBitVec
    simp only [bitCount_eq, Int32.toBitVec_not]
    omega
  · intro nonzero
    have fewer := BitCount.cpop_and_sub_one (x := x.toBitVec) fun zero => nonzero (Int32.toBitVec_inj.mp zero)
    simp only [bitCount_eq, Int32.toBitVec_and, Int32.toBitVec_sub]
    change ((x.toBitVec &&& (x.toBitVec - 1#32)).cpop.toNat : Int) = _
    omega

theorem power_and_count_twelve : (bitCount (12 &&& (12 - 1))).toInt = (bitCount 12).toInt - 1 :=
  (power_and_count 12 5).2.2.2.2.2.2 (by decide)

end Syseng.BitsAndBytes.Bits
