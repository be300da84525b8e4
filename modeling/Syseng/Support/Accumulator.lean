import Mathlib.Algebra.BigOperators.Group.List.Basic
import Mathlib.Algebra.Order.Ring.Int
import Mathlib.Tactic.Ring
import Syseng.Support.Signed

/-! Running sums of `int`s. The type of the accumulator decides how far a sum can go. -/

namespace Syseng.Support

/-- Adding gives the exact sum, or is a fault where the type does not hold it. -/
structure Accumulator (σ : Type) where
  zero : σ
  add : σ → Int32 → Except Fault σ
  value : σ → Int
  fits : Int → Prop
  value_zero : value zero = 0
  fits_zero : fits 0
  add_fits : ∀ s x, fits (value s + x.toInt) → ∃ t, add s x = .ok t ∧ value t = value s + x.toInt
  add_far : ∀ s x, ¬ fits (value s + x.toInt) → ∃ fault, add s x = .error fault

namespace Accumulator
variable {σ : Type}

def int : Accumulator Int32 where
  zero := 0
  add := Signed.add
  value := Int32.toInt
  fits := Signed.InRange
  value_zero := rfl
  fits_zero := by decide
  add_fits _ _ inside := Signed.check_ok inside
  add_far _ _ outside := ⟨_, Signed.check_far outside⟩

def longLong : Accumulator Int64 where
  zero := 0
  add s x := if -2 ^ 63 ≤ s.toInt + x.toInt ∧ s.toInt + x.toInt < 2 ^ 63 then
    .ok (Int64.ofInt (s.toInt + x.toInt)) else .error .outOfRange
  value := Int64.toInt
  fits n := -2 ^ 63 ≤ n ∧ n < 2 ^ 63
  value_zero := rfl
  fits_zero := by decide
  add_fits _ _ inside := ⟨_, if_pos inside, Int64.toInt_ofInt_of_le inside.1 inside.2⟩
  add_far _ _ outside := ⟨_, if_neg outside⟩

def exact : Accumulator Int where
  zero := 0
  add s x := .ok (s + x.toInt)
  value := id
  fits _ := True
  value_zero := rfl
  fits_zero := trivial
  add_fits s x _ := ⟨s + x.toInt, rfl, rfl⟩
  add_far _ _ outside := absurd trivial outside

def total (acc : Accumulator σ) (xs : List Int32) : Except Fault σ := xs.foldlM acc.add acc.zero

def sum (xs : List Int32) : Int := (xs.map Int32.toInt).sum

@[simp] theorem sum_nil : sum [] = 0 := rfl

@[simp] theorem sum_cons (x : Int32) (xs : List Int32) : sum (x :: xs) = x.toInt + sum xs := by
  simp [sum]

theorem sum_append (xs ys : List Int32) : sum (xs ++ ys) = sum xs + sum ys := by
  simp [sum]

theorem sum_perm {xs ys : List Int32} (perm : xs.Perm ys) : sum xs = sum ys :=
  (perm.map Int32.toInt).sum_eq

theorem sum_nonneg {xs : List Int32} (nonneg : ∀ x ∈ xs, 0 ≤ x.toInt) : 0 ≤ sum xs := by
  induction xs with
  | nil => exact Int.le_refl 0
  | cons x xs ih =>
    obtain ⟨first, rest⟩ := List.forall_mem_cons.mp nonneg
    rw [sum_cons]
    exact Int.add_nonneg first (ih rest)

theorem sum_distinct_le {n : Nat} {xs : List Int32} (distinct : xs.Nodup)
    (between : ∀ x ∈ xs, 0 ≤ x.toInt ∧ x.toInt < n) :
    2 * sum xs ≤ xs.length * (2 * n - xs.length - 1) := by
  induction n generalizing xs with
  | zero =>
    cases xs with
    | nil => decide
    | cons x xs =>
      have none_ := between x List.mem_cons_self
      omega
  | succ n ih =>
    by_cases top : ∃ x ∈ xs, x.toInt = n
    · obtain ⟨x, member, value⟩ := top
      have perm := List.perm_cons_erase member
      have rest := ih (distinct.erase x) fun y inside => by
        obtain ⟨differs, known⟩ := distinct.mem_erase_iff.mp inside
        obtain ⟨low, high⟩ := between y known
        have apart : y.toInt ≠ x.toInt := fun same => differs (Int32.toInt_inj.mp same)
        omega
      have counted : xs.length = (xs.erase x).length + 1 := perm.length_eq
      rw [sum_perm perm, sum_cons, value, counted]
      push_cast
      calc 2 * ((n : Int) + sum (xs.erase x)) = 2 * n + 2 * sum (xs.erase x) := by ring
        _ ≤ 2 * n + (xs.erase x).length * (2 * n - (xs.erase x).length - 1) := by omega
        _ = ((xs.erase x).length + 1) * (2 * (n + 1) - ((xs.erase x).length + 1) - 1) := by ring
    · have rest := ih distinct fun x inside => by
        have bounds := between x inside
        have below : x.toInt ≠ n := fun same => top ⟨x, inside, same⟩
        omega
      apply Int.le_trans rest
      apply Int.mul_le_mul_of_nonneg_left _ (Int.natCast_nonneg _)
      omega

def Ends (acc : Accumulator σ) (r : Except Fault σ) (n : Int) : Prop := ∃ s, r = .ok s ∧ acc.value s = n

/-- Of numbers that are not negative it is the whole sum that decides, in whatever order. -/
theorem foldlM_ends_iff {acc : Accumulator σ} (downward : ∀ m n, 0 ≤ m → m ≤ n → acc.fits n → acc.fits m)
    {xs : List Int32} (nonneg : ∀ x ∈ xs, 0 ≤ x.toInt) {s : σ} (low : 0 ≤ acc.value s)
    (start : acc.fits (acc.value s)) :
    acc.Ends (xs.foldlM acc.add s) (acc.value s + sum xs) ↔ acc.fits (acc.value s + sum xs) := by
  induction xs generalizing s with
  | nil =>
    rw [sum_nil, Int.add_zero]
    exact iff_of_true ⟨s, rfl, rfl⟩ start
  | cons x xs ih =>
    obtain ⟨first, rest⟩ := List.forall_mem_cons.mp nonneg
    have later := sum_nonneg rest
    rw [sum_cons, ← Int.add_assoc, List.foldlM_cons]
    by_cases inside : acc.fits (acc.value s + x.toInt)
    · obtain ⟨t, added, value⟩ := acc.add_fits s x inside
      rw [← value] at inside ⊢
      rw [added]
      exact ih rest (by omega) inside
    · obtain ⟨fault, refused⟩ := acc.add_far s x inside
      apply iff_of_false
      · rintro ⟨t, done, -⟩
        rw [refused] at done
        cases done
      · exact fun whole => inside (downward _ _ (by omega) (by omega) whole)

theorem total_ends_iff {acc : Accumulator σ} (downward : ∀ m n, 0 ≤ m → m ≤ n → acc.fits n → acc.fits m)
    {xs : List Int32} (nonneg : ∀ x ∈ xs, 0 ≤ x.toInt) :
    acc.Ends (acc.total xs) (sum xs) ↔ acc.fits (sum xs) := by
  have from_zero := foldlM_ends_iff downward nonneg (acc.value_zero ▸ Int.le_refl 0)
    (acc.value_zero ▸ acc.fits_zero)
  rwa [acc.value_zero, Int.zero_add] at from_zero

theorem int_downward (m n : Int) (low : 0 ≤ m) (below : m ≤ n) (fits : int.fits n) : int.fits m := by
  obtain ⟨-, high⟩ := fits
  change _ ≤ m ∧ m ≤ _
  omega

theorem longLong_downward (m n : Int) (low : 0 ≤ m) (below : m ≤ n) (fits : longLong.fits n) :
    longLong.fits m := by
  obtain ⟨-, high⟩ := fits
  change _ ≤ m ∧ m < _
  omega

theorem foldlM_exact (xs : List Int32) (s : Int) : xs.foldlM exact.add s = .ok (s + sum xs) := by
  induction xs generalizing s with
  | nil => rw [sum_nil, Int.add_zero]; rfl
  | cons x xs ih =>
    rw [List.foldlM_cons, sum_cons, ← Int.add_assoc]
    exact ih (s + x.toInt)

theorem total_exact (xs : List Int32) : exact.total xs = .ok (sum xs) := by
  have from_zero := foldlM_exact xs 0
  rwa [Int.zero_add] at from_zero

end Accumulator
end Syseng.Support
