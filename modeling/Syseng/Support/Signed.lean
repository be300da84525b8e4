import Mathlib.Algebra.Order.Ring.Int
import Syseng.Support.Table

/-! Arithmetic on `int`. A result that the type cannot hold has no meaning; a conversion to
or from `size_t` keeps the low bits. -/

namespace Syseng.Support.Signed

def InRange (n : Int) : Prop := -2147483648 ≤ n ∧ n ≤ 2147483647

instance (n : Int) : Decidable (InRange n) := inferInstanceAs (Decidable (_ ∧ _))

def check (n : Int) : Except Fault Int32 :=
  if InRange n then .ok (Int32.ofInt n) else .error .outOfRange

def add (x y : Int32) : Except Fault Int32 := check (x.toInt + y.toInt)

def sub (x y : Int32) : Except Fault Int32 := check (x.toInt - y.toInt)

/-- It rounds towards zero. -/
def div (x y : Int32) : Except Fault Int32 :=
  if y = 0 then .error .outOfRange else check (x.toInt.tdiv y.toInt)

def abs (x : Int32) : Except Fault Int32 := check |x.toInt|

def ofSize (n : UInt64) : Int32 := Int32.ofInt n.toNat

def toSize (x : Int32) : UInt64 := UInt64.ofInt x.toInt

theorem toInt_ofInt {n : Int} (inside : InRange n) : (Int32.ofInt n).toInt = n := by
  have low : -2 ^ 31 ≤ n := inside.1
  have high : n < 2 ^ 31 := Int.lt_add_one_of_le inside.2
  exact Int32.toInt_ofInt_of_le low high

theorem check_ok {n : Int} (inside : InRange n) : ∃ r, check n = .ok r ∧ r.toInt = n :=
  ⟨_, if_pos inside, toInt_ofInt inside⟩

theorem check_cases {n : Int} {r : Int32} (made : check n = .ok r) : r.toInt = n ∧ InRange n := by
  unfold check at made
  by_cases inside : InRange n
  · rw [if_pos inside] at made
    cases made
    exact ⟨toInt_ofInt inside, inside⟩
  · rw [if_neg inside] at made
    cases made

theorem check_far {n : Int} (outside : ¬ InRange n) : check n = .error .outOfRange := if_neg outside

theorem add_cases {x y r : Int32} (made : add x y = .ok r) : r.toInt = x.toInt + y.toInt :=
  (check_cases made).1

theorem sub_cases {x y r : Int32} (made : sub x y = .ok r) : r.toInt = x.toInt - y.toInt :=
  (check_cases made).1

theorem add_one_cases (i : Int32) :
    (∃ next, add i 1 = .ok next ∧ next.toInt = i.toInt + 1) ∨
      (add i 1 = .error .outOfRange ∧ 2147483647 < i.toInt + 1) := by
  have low := i.le_toInt
  have one : (1 : Int32).toInt = 1 := rfl
  unfold add
  rw [one]
  by_cases inside : InRange (i.toInt + 1)
  · exact Or.inl (check_ok inside)
  · refine Or.inr ⟨check_far inside, ?_⟩
    unfold InRange at inside
    omega

theorem add_one_below {i n : Int32} (below : i < n) :
    ∃ next, add i 1 = .ok next ∧ next.toInt = i.toInt + 1 := by
  have less := Int32.lt_iff_toInt_lt.mp below
  have bound := n.toInt_lt
  rcases add_one_cases i with made | ⟨-, large⟩
  · exact made
  · omega

theorem toInt_ofSize (n : UInt64) :
    (ofSize n).toInt = if n.toNat % 2 ^ 32 < 2 ^ 31 then (n.toNat % 2 ^ 32 : Int)
      else n.toNat % 2 ^ 32 - 2 ^ 32 := by
  unfold ofSize
  rw [Int32.toInt_ofInt, Int.bmod_def]
  split <;> split <;> simp only [Int32.size] at * <;> omega

theorem toNat_toSize (x : Int32) : ((toSize x).toNat : Int) = x.toInt % 2 ^ 64 := by
  change ((UInt64.ofNat (x.toInt % 2 ^ 64).toNat).toNat : Int) = x.toInt % 2 ^ 64
  rw [UInt64.toNat_ofNat']
  omega

end Syseng.Support.Signed
