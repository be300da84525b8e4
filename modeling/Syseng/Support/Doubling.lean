import Mathlib.Order.Bounds.Basic
import Mathlib.Algebra.Order.Ring.Nat

/-! Growth by doubling: a capacity that starts at some size and doubles when it is
outgrown is determined by that size and the largest demand so far. -/

namespace Syseng.Support

/-- The first of `base`, `2 * base`, `4 * base`, .. that covers `peak`. -/
def Doubled (base peak capacity : Nat) : Prop :=
  ∃ k, capacity = base * 2 ^ k ∧ IsLeast {j | peak ≤ base * 2 ^ j} k

namespace Doubled
variable {base peak capacity : Nat}

theorem start (base : Nat) : Doubled base 0 base :=
  ⟨0, by simp, by simp, fun j _ => Nat.zero_le j⟩

theorem covers (doubled : Doubled base peak capacity) : peak ≤ capacity := by
  obtain ⟨k, rfl, least⟩ := doubled
  exact least.1

theorem keep (doubled : Doubled base peak capacity) {more : Nat} (grows : peak ≤ more)
    (fits : more ≤ capacity) : Doubled base more capacity := by
  obtain ⟨k, rfl, least⟩ := doubled
  exact ⟨k, rfl, fits, fun j enough => least.2 (Nat.le_trans grows enough)⟩

theorem double (doubled : Doubled base capacity capacity) (positive : 0 < capacity) :
    Doubled base (capacity + 1) (capacity * 2) := by
  obtain ⟨k, same, least⟩ := doubled
  refine ⟨k + 1, by rw [same, Nat.pow_succ, Nat.mul_assoc], ?_, ?_⟩
  · change capacity + 1 ≤ base * 2 ^ (k + 1)
    rw [Nat.pow_succ, ← Nat.mul_assoc, ← same]
    omega
  · intro j enough
    by_contra below
    have short : base * 2 ^ j ≤ base * 2 ^ k :=
      Nat.mul_le_mul_left base (Nat.pow_le_pow_right (by decide) (by omega))
    have tall : capacity + 1 ≤ base * 2 ^ j := enough
    omega

theorem unique {other : Nat} (doubled : Doubled base peak capacity) (doubled' : Doubled base peak other) :
    capacity = other := by
  obtain ⟨k, rfl, least⟩ := doubled
  obtain ⟨j, rfl, least'⟩ := doubled'
  rw [least.unique least']

theorem lt_two_mul (doubled : Doubled base peak capacity) (grown : capacity ≠ base) :
    capacity < 2 * peak := by
  obtain ⟨k, rfl, least⟩ := doubled
  cases k with
  | zero => simp at grown
  | succ j =>
    have short : ¬ peak ≤ base * 2 ^ j := fun enough => by
      have bound := least.2 enough
      omega
    calc base * 2 ^ (j + 1) = 2 * (base * 2 ^ j) := by rw [Nat.pow_succ]; ac_rfl
      _ < 2 * peak := by omega

end Doubled
end Syseng.Support
