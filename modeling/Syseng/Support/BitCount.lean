import Mathlib.Algebra.Order.Ring.Nat

/-! The number of one bits in a word. A word is taken apart at its lowest bit, where a
borrow starts. -/

namespace Syseng.Support.BitCount
variable {w : Nat}

theorem concat_true_sub_one (x : BitVec w) : x.concat true - 1#(w + 1) = x.concat false := by
  rw [BitVec.sub_eq_iff_eq_add]
  apply BitVec.eq_of_toNat_eq
  have bound := x.isLt
  rw [BitVec.toNat_add, BitVec.toNat_concat, BitVec.toNat_concat, BitVec.toNat_ofNat, Nat.add_mod_mod,
    Nat.mod_eq_of_lt]
  · rfl
  · rw [Nat.pow_succ, Bool.toNat_false]
    omega

theorem concat_false_sub_one (x : BitVec w) :
    x.concat false - 1#(w + 1) = (x - 1#w).concat true := by
  rw [BitVec.sub_eq_iff_eq_add]
  apply BitVec.eq_of_toNat_eq
  have back : ((x - 1#w).toNat + 1) % 2 ^ w = x.toNat := by
    have cancelled := congrArg BitVec.toNat (BitVec.sub_add_cancel x 1#w)
    rwa [BitVec.toNat_add, BitVec.toNat_ofNat, Nat.add_mod_mod] at cancelled
  rw [BitVec.toNat_add, BitVec.toNat_concat, BitVec.toNat_concat, BitVec.toNat_ofNat, Nat.add_mod_mod,
    Nat.pow_succ]
  calc x.toNat * 2 + false.toNat
      = ((x - 1#w).toNat + 1) % 2 ^ w * 2 := by rw [back, Bool.toNat_false, Nat.add_zero]
    _ = ((x - 1#w).toNat + 1) * 2 % (2 ^ w * 2) := (Nat.mul_mod_mul_right _ _ _).symm
    _ = ((x - 1#w).toNat * 2 + true.toNat + 1) % (2 ^ w * 2) := by
      congr 1
      rw [Bool.toNat_true]
      omega

theorem cpopNatRec_next (x : BitVec w) (n : Nat) :
    x.cpopNatRec (n + 1) 0 = x.cpopNatRec n 0 + (x.getLsbD n).toNat := by
  rw [BitVec.cpopNatRec_succ, BitVec.cpopNatRec_eq, Nat.zero_add]

theorem cpop_eq_countP (x : BitVec w) : x.cpop.toNat = (List.range w).countP x.getLsbD := by
  have counted : ∀ n, x.cpopNatRec n 0 = (List.range n).countP x.getLsbD := by
    intro n
    induction n with
    | zero => rfl
    | succ n ih =>
      rw [cpopNatRec_next, ih, List.range_succ, List.countP_append, List.countP_singleton]
      cases x.getLsbD n <;> rfl
  rw [BitVec.toNat_cpop, counted]

theorem cpop_and_sub_one {x : BitVec w} (nonzero : x ≠ 0#w) :
    (x &&& (x - 1#w)).cpop.toNat + 1 = x.cpop.toNat := by
  induction x using BitVec.concat_induction with
  | nil => exact absurd rfl nonzero
  | concat x b ih =>
    cases b with
    | true =>
      rw [concat_true_sub_one, BitVec.concat_and_concat, BitVec.and_self, BitVec.toNat_cpop_concat,
        BitVec.toNat_cpop_concat, Bool.true_and, Bool.toNat_true, Bool.toNat_false]
      omega
    | false =>
      have rest : x ≠ 0 := by
        rintro rfl
        exact nonzero BitVec.zero_concat_false
      rw [concat_false_sub_one, BitVec.concat_and_concat, BitVec.toNat_cpop_concat,
        BitVec.toNat_cpop_concat, Bool.false_and, Nat.add_assoc, ih rest]

theorem cpop_eq_zero {x : BitVec w} : x.cpop.toNat = 0 ↔ x = 0#w := by
  constructor
  · intro none_set
    by_contra nonzero
    have fewer := cpop_and_sub_one nonzero
    omega
  · rintro rfl
    simp

theorem cpop_eq_one {x : BitVec w} : x.cpop.toNat = 1 ↔ x ≠ 0#w ∧ x &&& (x - 1#w) = 0#w := by
  by_cases zero : x = 0#w
  · subst zero
    simp
  · have fewer := cpop_and_sub_one zero
    rw [← cpop_eq_zero (x := x &&& (x - 1#w))]
    simp only [ne_eq, zero, not_false_eq_true, true_and]
    omega

theorem twoPow_zero_concat : (0#w).concat true = BitVec.twoPow (w + 1) 0 := by
  rw [BitVec.zero_concat_true, BitVec.twoPow_zero]

theorem twoPow_concat {k : Nat} (below : k < w) :
    (BitVec.twoPow w k).concat false = BitVec.twoPow (w + 1) (k + 1) := by
  apply BitVec.eq_of_toNat_eq
  rw [BitVec.toNat_concat, BitVec.toNat_twoPow_of_lt below,
    BitVec.toNat_twoPow_of_lt (Nat.succ_lt_succ below), Nat.pow_succ]
  rfl

theorem cpop_twoPow {k : Nat} (below : k < w) : (BitVec.twoPow w k).cpop.toNat = 1 := by
  induction w generalizing k with
  | zero => cases below
  | succ w ih =>
    cases k with
    | zero => rw [← twoPow_zero_concat, BitVec.toNat_cpop_concat, BitVec.cpop_zero, BitVec.toNat_zero]; rfl
    | succ k =>
      have inside := Nat.lt_of_succ_lt_succ below
      rw [← twoPow_concat inside, BitVec.toNat_cpop_concat, ih inside, Bool.toNat_false]

theorem cpop_eq_one_iff_twoPow {x : BitVec w} :
    x.cpop.toNat = 1 ↔ ∃ k < w, x = BitVec.twoPow w k := by
  constructor
  · intro one
    induction x using BitVec.concat_induction with
    | nil => cases one
    | concat x b ih =>
      rw [BitVec.toNat_cpop_concat] at one
      cases b with
      | true =>
        have rest : x = 0 := cpop_eq_zero.mp (by rw [Bool.toNat_true] at one; omega)
        exact ⟨0, Nat.succ_pos _, rest ▸ twoPow_zero_concat⟩
      | false =>
        obtain ⟨k, below, rfl⟩ := ih (by rwa [Bool.toNat_false, Nat.zero_add] at one)
        exact ⟨k + 1, Nat.succ_lt_succ below, twoPow_concat below⟩
  · rintro ⟨k, below, rfl⟩
    exact cpop_twoPow below

theorem cpop_or_add_cpop_and (x y : BitVec w) :
    (x ||| y).cpop.toNat + (x &&& y).cpop.toNat = x.cpop.toNat + y.cpop.toNat := by
  have counted : ∀ n, (x ||| y).cpopNatRec n 0 + (x &&& y).cpopNatRec n 0 =
      x.cpopNatRec n 0 + y.cpopNatRec n 0 := by
    intro n
    induction n with
    | zero => rfl
    | succ n ih =>
      have here : (x.getLsbD n || y.getLsbD n).toNat + (x.getLsbD n && y.getLsbD n).toNat =
          (x.getLsbD n).toNat + (y.getLsbD n).toNat := by
        cases x.getLsbD n <;> cases y.getLsbD n <;> rfl
      simp only [cpopNatRec_next, BitVec.getLsbD_or, BitVec.getLsbD_and]
      omega
  simp only [BitVec.toNat_cpop, counted]

theorem cpop_add_cpop_not (x : BitVec w) : x.cpop.toNat + (~~~x).cpop.toNat = w := by
  have bound := x.toNat_cpop_le
  rw [BitVec.toNat_cpop_not]
  omega

theorem exists_mask {n : BitVec w} (pow : n &&& (n - 1#w) = 0#w) :
    ∃ k ≤ w, (n - 1#w).toNat + 1 = 2 ^ k := by
  by_cases zero : n = 0#w
  · subst zero
    refine ⟨w, Nat.le_refl w, ?_⟩
    rw [BitVec.zero_sub, BitVec.neg_one_eq_allOnes, BitVec.toNat_allOnes]
    exact Nat.sub_add_cancel (Nat.two_pow_pos w)
  · obtain ⟨k, below, rfl⟩ := cpop_eq_one_iff_twoPow.mp (cpop_eq_one.mpr ⟨zero, pow⟩)
    refine ⟨k, Nat.le_of_lt below, ?_⟩
    have positive := Nat.two_pow_pos k
    have bound := Nat.pow_lt_pow_right (by decide : 1 < 2) below
    have one : (1#w).toNat = 1 := BitVec.toNat_one (by omega)
    have least : 1#w ≤ BitVec.twoPow w k := by
      rw [BitVec.le_def, BitVec.toNat_twoPow_of_lt below, one]
      exact positive
    rw [BitVec.toNat_sub_of_le least, BitVec.toNat_twoPow_of_lt below, one]
    exact Nat.sub_add_cancel positive

theorem toNat_and_mask {n : BitVec w} (pow : n &&& (n - 1#w) = 0#w) (x : BitVec w) :
    (x &&& (n - 1#w)).toNat = x.toNat % ((n - 1#w).toNat + 1) := by
  obtain ⟨k, -, mask⟩ := exists_mask pow
  have ones : (n - 1#w).toNat = 2 ^ k - 1 := by omega
  rw [BitVec.toNat_and, ones, Nat.and_two_pow_sub_one_eq_mod, Nat.sub_add_cancel (Nat.two_pow_pos k)]

end Syseng.Support.BitCount
