import Mathlib.Order.Lattice
import Mathlib.Data.List.Perm.Basic
import Mathlib.Algebra.Order.Ring.Nat

/-! Quantiles of a list: an element by its rank in the sorted list, and by how many others it leaves below
it. -/

namespace Syseng.Support
variable {α β : Type*} [LinearOrder β]

/-- More than `num` in `den` elements come up to `v`, and no more than `num` in `den` stay below. -/
structure Quantile (f : α → β) (xs : List α) (num den : Nat) (v : α) : Prop where
  member : v ∈ xs
  reached : num * xs.length < den * xs.countP fun x => decide (f x ≤ f v)
  passed : den * xs.countP (fun x => decide (f x < f v)) ≤ num * xs.length

namespace Quantile
variable {f : α → β} {xs ys : List α} {num den : Nat} {v w : α}

theorem of_perm (quantile : Quantile f xs num den v) (perm : xs.Perm ys) : Quantile f ys num den v where
  member := perm.mem_iff.mp quantile.member
  reached := by
    rw [← perm.length_eq, ← perm.countP_eq]
    exact quantile.reached
  passed := by
    rw [← perm.length_eq, ← perm.countP_eq]
    exact quantile.passed

section Sorted
variable (sorted : xs.Pairwise fun x y => f x ≤ f y) {i j : Nat}
include sorted

theorem rank_le (before : i ≤ j) (here : xs[i]? = some v) (there : xs[j]? = some w) : f v ≤ f w := by
  obtain ⟨inside, rfl⟩ := List.getElem?_eq_some_iff.mp here
  obtain ⟨inside', rfl⟩ := List.getElem?_eq_some_iff.mp there
  rcases Nat.lt_or_eq_of_le before with earlier | rfl
  · exact List.pairwise_iff_getElem.mp sorted i j inside inside' earlier
  · exact le_refl _

theorem lt_countP (here : xs[i]? = some v) : i < xs.countP fun x => decide (f x ≤ f v) := by
  obtain ⟨inside, -⟩ := List.getElem?_eq_some_iff.mp here
  have front : (xs.take (i + 1)).countP (fun x => decide (f x ≤ f v)) = i + 1 := by
    calc (xs.take (i + 1)).countP (fun x => decide (f x ≤ f v)) = (xs.take (i + 1)).length := by
          apply List.countP_eq_length.mpr
          intro x member
          obtain ⟨k, below, rfl⟩ := List.mem_take_iff_getElem.mp member
          apply decide_eq_true
          exact rank_le sorted (by omega) (List.getElem?_eq_getElem _) here
      _ = i + 1 := by
          rw [List.length_take]
          omega
  rw [← List.take_append_drop (i + 1) xs, List.countP_append, front]
  omega

theorem countP_le (here : xs[i]? = some v) : xs.countP (fun x => decide (f x < f v)) ≤ i := by
  have back : (xs.drop i).countP (fun x => decide (f x < f v)) = 0 := by
    apply List.countP_eq_zero.mpr
    intro x member
    obtain ⟨k, inside, rfl⟩ := List.mem_drop_iff_getElem.mp member
    have above := rank_le sorted (Nat.le_add_right i k) here (List.getElem?_eq_getElem (by omega))
    simpa using above
  calc xs.countP (fun x => decide (f x < f v))
      = (xs.take i).countP (fun x => decide (f x < f v)) + (xs.drop i).countP (fun x => decide (f x < f v)) := by
        rw [← List.countP_append, List.take_append_drop]
    _ ≤ (xs.take i).length := by
        rw [back, Nat.add_zero]
        exact List.countP_le_length
    _ ≤ i := by
        rw [List.length_take]
        omega

/-- The element at the rank `num / den` of the way is the quantile. -/
theorem of_rank (positive : 0 < den) (here : xs[num * xs.length / den]? = some v) :
    Quantile f xs num den v where
  member := List.mem_of_getElem? here
  reached := by
    have more := lt_countP sorted here
    calc num * xs.length < den * (num * xs.length / den + 1) := Nat.lt_mul_div_succ _ positive
      _ ≤ den * xs.countP (fun x => decide (f x ≤ f v)) := Nat.mul_le_mul_left den more
  passed := by
    calc den * xs.countP (fun x => decide (f x < f v)) ≤ den * (num * xs.length / den) :=
          Nat.mul_le_mul_left den (countP_le sorted here)
      _ ≤ num * xs.length := Nat.mul_div_le _ _

end Sorted
end Quantile
end Syseng.Support
