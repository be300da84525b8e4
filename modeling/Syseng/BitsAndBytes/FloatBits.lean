import Syseng.Support.BinaryFloat

/-! Single-precision floats handled as their bit patterns. -/

namespace Syseng.BitsAndBytes
open Support

abbrev FloatBits := UInt32

namespace FloatBits

def signMask : UInt32 := 0x80000000
def fracMask : UInt32 := 0x007FFFFF
def expShift : UInt32 := 23

def floatNegate (f : FloatBits) : FloatBits :=
  let exp := (f >>> expShift) &&& 0xFF
  let frac := f &&& fracMask
  if exp = 0xFF ∧ frac ≠ 0 then f else f ^^^ signMask

def floatAbs (f : FloatBits) : FloatBits := f &&& 0x7FFFFFFF

/-- `exponent` stays below 256, so no step of it leaves the range of an `int`. -/
def floatTwice (f : FloatBits) : FloatBits :=
  let exponent : Int32 := ((f &&& 0x7F800000) >>> 23).toInt32
  if exponent = 0 then
    let isNegative : Int32 := (f &&& 0x80000000).toInt32
    let f := f <<< 1
    let f := f &&& 0x7FFFFFFF
    f ||| isNegative.toUInt32
  else if exponent = 0xFF then f
  else
    let exponent := exponent + 1
    let exponent := exponent <<< 23
    let f := f &&& ~~~0x7F800000
    f ||| exponent.toUInt32

def floatHalf (f : FloatBits) : FloatBits :=
  let exponent : Int32 := ((f &&& 0x7F800000) >>> 23).toInt32
  if exponent = 0 then
    let isNegative : Int32 := (f &&& 0x80000000).toInt32
    let f := f >>> 1
    let f := f &&& 0x7FFFFFFF
    let f := f &&& 0xBFFFFFFF
    f ||| isNegative.toUInt32
  else if exponent = 0xFF then f
  else
    let exponent := exponent - 1
    let exponent := exponent <<< 23
    let f := f &&& ~~~0x7F800000
    f ||| exponent.toUInt32

def floatIsNan (f : FloatBits) : Int32 :=
  let exponent : Int32 := ((f &&& 0x7F800000) >>> 23).toInt32
  let mantissa : Int32 := (f &&& 0x007FFFFF).toInt32
  if exponent = 0xFF ∧ mantissa ≠ 0 then 1 else 0

def fields (f : FloatBits) : BinaryFloat 8 23 := .decode f.toBitVec

def pack (s : BitVec 1) (e : BitVec 8) (m : BitVec 23) : FloatBits :=
  .ofBitVec (BinaryFloat.mk s e m).encode

@[simp] theorem fields_pack (s : BitVec 1) (e : BitVec 8) (m : BitVec 23) :
    fields (pack s e m) = ⟨s, e, m⟩ :=
  BinaryFloat.decode_encode _

theorem pack_fields (f : FloatBits) :
    pack (fields f).sign (fields f).exponent (fields f).mantissa = f := by
  have whole : (fields f).encode = f.toBitVec := @BinaryFloat.encode_decode 8 23 f.toBitVec
  exact congrArg UInt32.ofBitVec whole

theorem exists_pack (f : FloatBits) : ∃ s e m, f = pack s e m :=
  ⟨_, _, _, (pack_fields f).symm⟩

theorem pack_inj {s s' : BitVec 1} {e e' : BitVec 8} {m m' : BitVec 23} :
    pack s e m = pack s' e' m' ↔ s = s' ∧ e = e' ∧ m = m' := by
  constructor
  · intro same
    have parts := congrArg fields same
    rw [fields_pack, fields_pack] at parts
    exact BinaryFloat.mk.inj parts
  · rintro ⟨rfl, rfl, rfl⟩
    rfl

theorem toNat_pack (s : BitVec 1) (e : BitVec 8) (m : BitVec 23) :
    (pack s e m).toNat = s.toNat * 2 ^ 31 + e.toNat * 2 ^ 23 + m.toNat := by
  have same : (pack s e m).toNat = (s ++ e ++ m).toNat := rfl
  rw [same, BitVec.toNat_append, BitVec.toNat_append, ← Nat.shiftLeft_add_eq_or_of_lt e.isLt,
    ← Nat.shiftLeft_add_eq_or_of_lt m.isLt, Nat.shiftLeft_eq, Nat.shiftLeft_eq]
  omega

theorem pack_and (s s' : BitVec 1) (e e' : BitVec 8) (m m' : BitVec 23) :
    pack s e m &&& pack s' e' m' = pack (s &&& s') (e &&& e') (m &&& m') := by
  apply UInt32.toBitVec_inj.mp
  change (s ++ e ++ m) &&& (s' ++ e' ++ m') = _
  rw [BitVec.and_append, BitVec.and_append]
  rfl

theorem pack_or (s s' : BitVec 1) (e e' : BitVec 8) (m m' : BitVec 23) :
    pack s e m ||| pack s' e' m' = pack (s ||| s') (e ||| e') (m ||| m') := by
  apply UInt32.toBitVec_inj.mp
  change (s ++ e ++ m) ||| (s' ++ e' ++ m') = _
  rw [BitVec.or_append, BitVec.or_append]
  rfl

theorem pack_xor (s s' : BitVec 1) (e e' : BitVec 8) (m m' : BitVec 23) :
    pack s e m ^^^ pack s' e' m' = pack (s ^^^ s') (e ^^^ e') (m ^^^ m') := by
  apply UInt32.toBitVec_inj.mp
  change (s ++ e ++ m) ^^^ (s' ++ e' ++ m') = _
  rw [BitVec.xor_append, BitVec.xor_append]
  rfl

theorem expMask_eq : (0x7F800000 : UInt32) = pack 0#1 (.allOnes 8) 0#23 := by decide
theorem notExpMask_eq : (~~~0x7F800000 : UInt32) = pack (.allOnes 1) 0#8 (.allOnes 23) := by decide
theorem signMask_eq : (0x80000000 : UInt32) = pack (.allOnes 1) 0#8 0#23 := by decide
theorem fracMask_eq : (0x007FFFFF : UInt32) = pack 0#1 0#8 (.allOnes 23) := by decide
theorem halfMask_eq : (0xBFFFFFFF : UInt32) = pack (.allOnes 1) 127#8 (.allOnes 23) := by decide
theorem absMask_eq : (0x7FFFFFFF : UInt32) = pack 0#1 (.allOnes 8) (.allOnes 23) := by decide

variable (s : BitVec 1) (e : BitVec 8) (m : BitVec 23)

theorem and_expMask : pack s e m &&& 0x7F800000 = pack 0#1 e 0#23 := by
  rw [expMask_eq, pack_and]
  simp only [BitVec.and_allOnes, BitVec.and_zero]

theorem and_notExpMask : pack s e m &&& ~~~0x7F800000 = pack s 0#8 m := by
  rw [notExpMask_eq, pack_and]
  simp only [BitVec.and_allOnes, BitVec.and_zero]

theorem and_signMask : pack s e m &&& 0x80000000 = pack s 0#8 0#23 := by
  rw [signMask_eq, pack_and]
  simp only [BitVec.and_allOnes, BitVec.and_zero]

theorem and_fracMask : pack s e m &&& 0x007FFFFF = pack 0#1 0#8 m := by
  rw [fracMask_eq, pack_and]
  simp only [BitVec.and_allOnes, BitVec.and_zero]

theorem and_absMask : pack s e m &&& 0x7FFFFFFF = pack 0#1 e m := by
  rw [absMask_eq, pack_and]
  simp only [BitVec.and_allOnes, BitVec.and_zero]

theorem and_halfMask : pack s e m &&& 0xBFFFFFFF = pack s (e &&& 127#8) m := by
  rw [halfMask_eq, pack_and]
  simp only [BitVec.and_allOnes]

theorem floatAbs_pack : floatAbs (pack s e m) = pack 0#1 e m := and_absMask s e m

theorem exponent_shifted : (pack s e m &&& 0x7F800000) >>> 23 = .ofNat e.toNat := by
  apply UInt32.toNat_inj.mp
  have small := e.isLt
  rw [and_expMask, UInt32.toNat_shiftRight, toNat_pack]
  simp [Nat.shiftRight_eq_div_pow]
  omega

theorem exponent_eq : ((pack s e m &&& 0x7F800000) >>> 23).toInt32 = .ofNat e.toNat :=
  congrArg UInt32.toInt32 (exponent_shifted s e m)

theorem ofNat_inj {j k : Nat} (left : j < 256) (right : k < 256) :
    Int32.ofNat j = Int32.ofNat k ↔ j = k := by
  constructor
  · intro same
    have numbers := congrArg Int32.toInt same
    rw [Int32.toInt_ofNat_of_lt (by omega), Int32.toInt_ofNat_of_lt (by omega)] at numbers
    omega
  · exact congrArg Int32.ofNat

theorem toNat_succ {e : BitVec 8} (finite : e ≠ .allOnes 8) : (e + 1#8).toNat = e.toNat + 1 := by
  have small := e.isLt
  have below : e.toNat ≠ 255 := fun top => finite (BitVec.eq_of_toNat_eq top)
  rw [BitVec.toNat_add]
  exact Nat.mod_eq_of_lt (show e.toNat + 1 < 256 by omega)

theorem toNat_pred {e : BitVec 8} (positive : e ≠ 0#8) : (e - 1#8).toNat + 1 = e.toNat := by
  have some_left : e.toNat ≠ 0 := fun zero => positive (BitVec.eq_of_toNat_eq zero)
  have least : 1#8 ≤ e := BitVec.le_def.mpr (Nat.pos_of_ne_zero some_left)
  rw [BitVec.toNat_sub_of_le least]
  exact Nat.sub_add_cancel (Nat.pos_of_ne_zero some_left)

theorem exponent_zero_iff : Int32.ofNat e.toNat = 0 ↔ e = 0#8 := by
  have numbers := ofNat_inj e.isLt (show 0 < 256 by decide)
  rw [← BitVec.toNat_inj]
  exact numbers

theorem exponent_special_iff : Int32.ofNat e.toNat = 0xFF ↔ e = .allOnes 8 := by
  have numbers := ofNat_inj e.isLt (show 255 < 256 by decide)
  rw [← BitVec.toNat_inj]
  exact numbers

theorem exponent_placed (k : BitVec 8) : (Int32.ofNat k.toNat <<< 23).toUInt32 = pack 0#1 k 0#23 := by
  have same : (Int32.ofNat k.toNat <<< 23).toUInt32 = UInt32.ofNat k.toNat <<< 23 := rfl
  apply UInt32.toNat_inj.mp
  have small := k.isLt
  rw [same, UInt32.toNat_shiftLeft, toNat_pack]
  simp [Nat.shiftLeft_eq]
  omega

theorem tiny_shiftLeft : pack s 0#8 m <<< 1 =
    pack 0#1 (if m.toNat < 2 ^ 22 then 0#8 else 1#8) (m <<< 1) := by
  apply UInt32.toNat_inj.mp
  have sign := s.isLt
  have small := m.isLt
  rw [UInt32.toNat_shiftLeft, toNat_pack, toNat_pack, BitVec.toNat_shiftLeft]
  simp only [Nat.shiftLeft_eq, BitVec.toNat_zero]
  have one : (1 : UInt32).toNat % 32 = 1 := rfl
  rw [one]
  split
  · simp
    omega
  · simp
    omega

theorem tiny_shiftRight : pack s 0#8 m >>> 1 = pack 0#1 (s.setWidth 8 <<< 7) (m >>> 1) := by
  apply UInt32.toNat_inj.mp
  have sign := s.isLt
  have small := m.isLt
  rw [UInt32.toNat_shiftRight, toNat_pack, toNat_pack, BitVec.toNat_ushiftRight]
  simp [Nat.shiftLeft_eq, Nat.shiftRight_eq_div_pow]
  omega

theorem sign_cleared : (s.setWidth 8 <<< 7) &&& 127#8 = 0#8 := by
  revert s
  decide

theorem floatTwice_tiny :
    floatTwice (pack s 0#8 m) = pack s (if m.toNat < 2 ^ 22 then 0#8 else 1#8) (m <<< 1) := by
  unfold floatTwice
  simp only [exponent_eq]
  rw [if_pos (show Int32.ofNat (0#8).toNat = 0 by decide), tiny_shiftLeft, and_absMask,
    and_signMask, UInt32.toUInt32_toInt32, pack_or, BitVec.or_zero, BitVec.zero_or, BitVec.or_zero]

theorem floatTwice_special : floatTwice (pack s (.allOnes 8) m) = pack s (.allOnes 8) m := by
  unfold floatTwice
  simp only [exponent_eq]
  rfl

theorem floatTwice_normal (positive : e ≠ 0#8) (finite : e ≠ .allOnes 8) :
    floatTwice (pack s e m) = pack s (e + 1#8) m := by
  have next : (e + 1#8).toNat = e.toNat + 1 := toNat_succ finite
  have raised : Int32.ofNat e.toNat + 1 = Int32.ofNat (e + 1#8).toNat := by
    rw [next, Int32.ofNat_add]
    rfl
  unfold floatTwice
  simp only [exponent_eq, exponent_zero_iff, exponent_special_iff, if_neg positive, if_neg finite,
    and_notExpMask, raised, exponent_placed, pack_or, BitVec.or_zero, BitVec.zero_or]

theorem floatHalf_tiny : floatHalf (pack s 0#8 m) = pack s 0#8 (m >>> 1) := by
  unfold floatHalf
  simp only [exponent_eq]
  rw [if_pos (show Int32.ofNat (0#8).toNat = 0 by decide), tiny_shiftRight, and_absMask,
    and_halfMask, and_signMask, UInt32.toUInt32_toInt32, pack_or, BitVec.or_zero, BitVec.zero_or,
    BitVec.or_zero, sign_cleared]

theorem floatHalf_special : floatHalf (pack s (.allOnes 8) m) = pack s (.allOnes 8) m := by
  unfold floatHalf
  simp only [exponent_eq]
  rfl

theorem floatHalf_normal (positive : e ≠ 0#8) (finite : e ≠ .allOnes 8) :
    floatHalf (pack s e m) = pack s (e - 1#8) m := by
  have back : (e - 1#8).toNat + 1 = e.toNat := toNat_pred positive
  have lowered : Int32.ofNat e.toNat - 1 = Int32.ofNat (e - 1#8).toNat := by
    rw [← back, Int32.ofNat_add]
    exact Int32.add_sub_cancel _ _
  unfold floatHalf
  simp only [exponent_eq, exponent_zero_iff, exponent_special_iff, if_neg positive, if_neg finite,
    and_notExpMask, lowered, exponent_placed, pack_or, BitVec.or_zero, BitVec.zero_or]

theorem mantissa_zero_iff : pack 0#1 0#8 m = 0 ↔ m = 0#23 := by
  rw [← UInt32.toNat_inj, toNat_pack, ← BitVec.toNat_inj]
  simp

theorem exponent_masked : (pack s e m >>> expShift) &&& 0xFF = .ofNat e.toNat := by
  have small := e.isLt
  have fraction := m.isLt
  have shift : expShift.toNat % 32 = 23 := rfl
  have mask : (0xFF : UInt32).toNat = 2 ^ 8 - 1 := rfl
  apply UInt32.toNat_inj.mp
  rw [UInt32.toNat_and, UInt32.toNat_shiftRight, toNat_pack, shift, mask,
    Nat.and_two_pow_sub_one_eq_mod, Nat.shiftRight_eq_div_pow]
  simp
  omega

theorem floatNegate_pack : floatNegate (pack s e m) =
    if e = .allOnes 8 ∧ m ≠ 0#23 then pack s e m else pack (~~~s) e m := by
  have frac : pack s e m &&& fracMask = pack 0#1 0#8 m := and_fracMask s e m
  have flipped : pack s e m ^^^ signMask = pack (~~~s) e m := by
    have mask : signMask = pack (.allOnes 1) 0#8 0#23 := signMask_eq
    rw [mask, pack_xor, BitVec.xor_allOnes, BitVec.xor_zero, BitVec.xor_zero]
  have special : UInt32.ofNat e.toNat = 0xFF ↔ e = .allOnes 8 := by
    rw [← exponent_special_iff]
    exact ⟨congrArg UInt32.toInt32, congrArg Int32.toUInt32⟩
  unfold floatNegate
  simp only [exponent_masked, frac, flipped, special, ne_eq, mantissa_zero_iff]

theorem floatIsNan_pack : floatIsNan (pack s e m) = if e = .allOnes 8 ∧ m ≠ 0#23 then 1 else 0 := by
  have zero : (pack 0#1 0#8 m).toInt32 = 0 ↔ m = 0#23 := by
    rw [← mantissa_zero_iff]
    exact ⟨congrArg Int32.toUInt32, congrArg UInt32.toInt32⟩
  unfold floatIsNan
  simp only [exponent_eq, exponent_special_iff, and_fracMask, ne_eq, zero]

end FloatBits
end Syseng.BitsAndBytes
