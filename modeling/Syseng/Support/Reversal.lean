import Mathlib.Data.List.Basic
import Mathlib.Order.Lattice

/-! Lists seen from both of their ends. -/

namespace Syseng.Support.Reversal
variable {α β : Type}

theorem short_or_ends (xs : List α) :
    (xs.length < 2 ∧ xs.reverse = xs) ∨ ∃ x inner y, xs = x :: (inner ++ [y]) := by
  cases xs with
  | nil => exact Or.inl ⟨Nat.two_pos, rfl⟩
  | cons x rest =>
    rcases List.eq_nil_or_concat' rest with rfl | ⟨inner, y, rfl⟩
    · exact Or.inl ⟨Nat.lt_succ_self 1, rfl⟩
    · exact Or.inr ⟨x, inner, y, rfl⟩

theorem reverse_ends {x y : α} {inner : List α} :
    (x :: (inner ++ [y])).reverse = x :: (inner ++ [y]) ↔ x = y ∧ inner.reverse = inner := by
  rw [List.reverse_cons, List.reverse_append, List.reverse_singleton, List.singleton_append,
    List.cons_append, List.cons.injEq]
  constructor
  · rintro ⟨rfl, rest⟩
    exact ⟨rfl, List.append_cancel_right rest⟩
  · rintro ⟨rfl, own⟩
    exact ⟨rfl, by rw [own]⟩

section Maxima
variable [LinearOrder β] {f : α → β} {xs : List α} {i : Nat} {x : α}

/-- At the index `i` there is `x`, the greatest element, and those before it are less. -/
def LeftmostMax (f : α → β) (xs : List α) (i : Nat) (x : α) : Prop :=
  ∃ front back, xs = front ++ x :: back ∧ front.length = i ∧ (∀ y ∈ front, f y < f x) ∧ ∀ y ∈ back, f y ≤ f x

def RightmostMax (f : α → β) (xs : List α) (i : Nat) (x : α) : Prop :=
  ∃ front back, xs = front ++ x :: back ∧ front.length = i ∧ (∀ y ∈ front, f y ≤ f x) ∧ ∀ y ∈ back, f y < f x

theorem leftmostMax_singleton (x : α) : LeftmostMax f [x] 0 x := ⟨[], [], rfl, rfl, by simp, by simp⟩

theorem LeftmostMax.keep (leftmost : LeftmostMax f xs i x) {y : α} (small : f y ≤ f x) :
    LeftmostMax f (xs ++ [y]) i x := by
  obtain ⟨front, back, rfl, rfl, less, rest⟩ := leftmost
  refine ⟨front, back ++ [y], by simp, rfl, less, fun z member => ?_⟩
  rcases List.mem_append.mp member with inside | last
  · exact rest z inside
  · rw [List.mem_singleton.mp last]
    exact small

theorem LeftmostMax.replace (leftmost : LeftmostMax f xs i x) {y : α} (large : f x < f y) :
    LeftmostMax f (xs ++ [y]) xs.length y := by
  obtain ⟨front, back, rfl, rfl, less, rest⟩ := leftmost
  refine ⟨_, [], rfl, rfl, fun z member => ?_, by simp⟩
  rcases List.mem_append.mp member with early | late
  · exact (less z early).trans large
  · rcases List.mem_cons.mp late with rfl | later
    · exact large
    · exact (rest z later).trans_lt large

theorem LeftmostMax.of_reverse (leftmost : LeftmostMax f xs.reverse i x) :
    ∃ j, RightmostMax f xs j x ∧ xs.length = i + 1 + j := by
  obtain ⟨front, back, same, rfl, less, rest⟩ := leftmost
  have turned : xs = back.reverse ++ x :: front.reverse := by
    rw [← List.reverse_reverse xs, same]
    simp
  refine ⟨back.length, ⟨back.reverse, front.reverse, turned, List.length_reverse, ?_, ?_⟩, ?_⟩
  · exact fun y member => rest y (List.mem_reverse.mp member)
  · exact fun y member => less y (List.mem_reverse.mp member)
  · rw [turned]
    simp only [List.length_append, List.length_cons, List.length_reverse]
    omega

end Maxima
end Syseng.Support.Reversal
