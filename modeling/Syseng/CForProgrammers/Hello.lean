import Syseng.CForProgrammers.EntityStatus

/-! The functions of `hello.c` on single numbers, and `fizzbuzz`, which prints into a buffer. -/

namespace Syseng.CForProgrammers.Hello
open Support Strings Entity

def maxOf (a b : Int32) : Int32 := if a > b then a else b

def minOf (a b : Int32) : Int32 := if a > b then b else a

def clamp (val lo hi : Int32) : Int32 :=
  if val < lo then lo
  else if val > hi then hi
  else val

def fizzbuzz (mem : Bytes) (n : Int32) (buf : CharPtr) : Except Fault Bytes :=
  if n % 15 = 0 then sprintf mem buf [.text "FizzBuzz"]
  else if n % 5 = 0 then sprintf mem buf [.text "Buzz"]
  else if n % 3 = 0 then sprintf mem buf [.text "Fizz"]
  else sprintf mem buf [.d n]

section Scalars
variable {a b val lo hi x : Int32}

theorem toInt_maxOf : (maxOf a b).toInt = max a.toInt b.toInt := by
  unfold maxOf
  split
  · next more =>
    have above := Int32.lt_iff_toInt_lt.mp more
    omega
  · next most =>
    have above := Int32.le_iff_toInt_le.mp (Int32.not_lt.mp most)
    omega

theorem toInt_minOf : (minOf a b).toInt = min a.toInt b.toInt := by
  unfold minOf
  split
  · next more =>
    have above := Int32.lt_iff_toInt_lt.mp more
    omega
  · next most =>
    have above := Int32.le_iff_toInt_le.mp (Int32.not_lt.mp most)
    omega

theorem toInt_clamp : (clamp val lo hi).toInt =
    if val.toInt < lo.toInt then lo.toInt else min val.toInt hi.toInt := by
  unfold clamp
  simp only [gt_iff_lt, Int32.lt_iff_toInt_lt]
  split
  · rfl
  · split <;> omega

theorem clamp_eq (ordered : lo ≤ hi) : clamp val lo hi = maxOf lo (minOf val hi) := by
  have bounds := Int32.le_iff_toInt_le.mp ordered
  apply Int32.toInt_inj.mp
  rw [toInt_clamp, toInt_maxOf, toInt_minOf]
  split <;> omega

theorem clamp_nearest (low : lo ≤ x) (high : x ≤ hi) :
    (val.toInt - (clamp val lo hi).toInt).natAbs ≤ (val.toInt - x.toInt).natAbs := by
  have above := Int32.le_iff_toInt_le.mp low
  have below := Int32.le_iff_toInt_le.mp high
  rw [toInt_clamp]
  split <;> omega

end Scalars

def word (n : Int) : List UInt8 :=
  if 3 ∣ n ∧ 5 ∣ n then Text.ascii "FizzBuzz"
  else if 3 ∣ n then Text.ascii "Fizz"
  else if 5 ∣ n then Text.ascii "Buzz"
  else Text.decimal n

theorem mod_eq_zero (n m : Int32) : n % m = 0 ↔ m.toInt ∣ n.toInt := by
  rw [← Int32.toInt_inj, Int32.toInt_mod]
  exact Int.dvd_iff_tmod_eq_zero.symm

theorem fizzbuzz_eq (mem : Bytes) (n : Int32) (buf : CharPtr) :
    fizzbuzz mem n buf = mem.storeAll buf (word n.toInt ++ [0]) := by
  have both : (15 : Int) ∣ n.toInt ↔ 3 ∣ n.toInt ∧ 5 ∣ n.toInt := by omega
  have fifteen : n % 15 = 0 ↔ (15 : Int) ∣ n.toInt := mod_eq_zero n 15
  have five : n % 5 = 0 ↔ (5 : Int) ∣ n.toInt := mod_eq_zero n 5
  have three : n % 3 = 0 ↔ (3 : Int) ∣ n.toInt := mod_eq_zero n 3
  unfold fizzbuzz word
  rw [both] at fifteen
  simp only [fifteen, five, three, sprintf, List.flatMap_cons, List.flatMap_nil, List.append_nil, Piece.bytes]
  by_cases fizz : 3 ∣ n.toInt
  · by_cases buzz : 5 ∣ n.toInt
    · simp only [fizz, buzz, and_self, if_true]
    · simp only [fizz, buzz, and_false, if_false, if_true]
  · by_cases buzz : 5 ∣ n.toInt
    · simp only [fizz, buzz, false_and, if_false, if_true]
    · simp only [fizz, buzz, and_self, if_false]

theorem length_word (n : Int32) : (word n.toInt).length ≤ 11 := by
  have number := length_int n
  unfold word
  split
  · decide
  · split
    · decide
    · split
      · decide
      · exact number

theorem word_noNul (n : Int32) : 0 ∉ word n.toInt := by
  unfold word
  split
  · decide
  · split
    · decide
    · split
      · decide
      · exact not_in_decimal n (by decide) (by decide)

theorem fizzbuzz_ok_iff (mem : Bytes) (n : Int32) (buf : CharPtr) :
    (∃ u, fizzbuzz mem n buf = .ok u ∧ Holds u buf ⟨word n.toInt, word_noNul n⟩ ∧
      mem.Touches u (fun _ => False) (buf.Covers ((word n.toInt).length + 1))) ↔
      mem.Room buf ((word n.toInt).length + 1) := by
  have length : (word n.toInt ++ [0]).length = (word n.toInt).length + 1 := List.length_append
  rw [fizzbuzz_eq, ← length]
  constructor
  · rintro ⟨u, done, -⟩
    exact Memory.storeAll_room done
  · exact Memory.storeAll_ok (word n.toInt ++ [0])

theorem fizzbuzz_fits {mem : Bytes} {buf : CharPtr} (room : mem.Room buf 12) (n : Int32) :
    ∃ u, fizzbuzz mem n buf = .ok u ∧ Holds u buf ⟨word n.toInt, word_noNul n⟩ := by
  have short := length_word n
  obtain ⟨u, done, holds, -⟩ := (fizzbuzz_ok_iff mem n buf).mpr (Memory.Room.shorter room (by omega))
  exact ⟨u, done, holds⟩

end Syseng.CForProgrammers.Hello
