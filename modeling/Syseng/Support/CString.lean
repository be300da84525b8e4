import Mathlib.Data.List.Basic

/-! Strings that end at their first zero byte. -/

namespace Syseng.Support

/-- What a pointer to a string points to, up to the terminator. -/
structure CString where
  bytes : List UInt8
  noNul : 0 ∉ bytes

namespace CString

@[ext] theorem ext {a b : CString} (same : a.bytes = b.bytes) : a = b := by
  cases a
  cases b
  cases same
  rfl

def stored (s : CString) : List UInt8 := s.bytes ++ [0]

@[simp] theorem length_stored (s : CString) : s.stored.length = s.bytes.length + 1 := by
  simp [stored]

def append (a b : CString) : CString where
  bytes := a.bytes ++ b.bytes
  noNul := by simp [a.noNul, b.noNul]

theorem length_append (a b : CString) :
    (a.append b).bytes.length = a.bytes.length + b.bytes.length :=
  List.length_append

theorem append_assoc (a b c : CString) : (a.append b).append c = a.append (b.append c) := by
  ext1
  exact List.append_assoc ..

def empty : CString := ⟨[], List.not_mem_nil⟩

theorem append_empty (a : CString) : a.append empty = a := by
  ext1
  exact List.append_nil _

theorem empty_append (a : CString) : empty.append a = a := by
  ext1
  exact List.nil_append _

def reverse (a : CString) : CString where
  bytes := a.bytes.reverse
  noNul := by simp [a.noNul]

theorem reverse_reverse (a : CString) : a.reverse.reverse = a := by
  ext1
  exact List.reverse_reverse _

theorem length_reverse (a : CString) : a.reverse.bytes.length = a.bytes.length :=
  List.length_reverse

def take (a : CString) (i : Nat) : CString where
  bytes := a.bytes.take i
  noNul := mt List.mem_of_mem_take a.noNul

def drop (a : CString) (i : Nat) : CString where
  bytes := a.bytes.drop i
  noNul := mt List.mem_of_mem_drop a.noNul

theorem take_append_drop (a : CString) (i : Nat) : (a.take i).append (a.drop i) = a := by
  ext1
  exact List.take_append_drop i a.bytes

theorem length_take {a : CString} {i : Nat} (inside : i ≤ a.bytes.length) : (a.take i).bytes.length = i :=
  List.length_take_of_le inside

def common : List UInt8 → List UInt8 → Nat
  | x :: xs, y :: ys => if x = y then common xs ys + 1 else 0
  | _, _ => 0

theorem common_le (xs ys : List UInt8) : common xs ys ≤ xs.length ∧ common xs ys ≤ ys.length := by
  induction xs generalizing ys with
  | nil => exact ⟨Nat.zero_le _, Nat.zero_le _⟩
  | cons x xs ih =>
    cases ys with
    | nil => exact ⟨Nat.zero_le _, Nat.zero_le _⟩
    | cons y ys =>
      have shorter := ih ys
      simp only [common, List.length_cons]
      split <;> omega

theorem common_self (xs : List UInt8) : common xs xs = xs.length := by
  induction xs with
  | nil => rfl
  | cons x xs ih => rw [common, if_pos rfl, ih, List.length_cons]

/-- How the two bytes differ in the first place where the strings do. A string that has ended
has a zero there. -/
def difference : List UInt8 → List UInt8 → Int
  | [], [] => 0
  | [], y :: _ => -y.toNat
  | x :: _, [] => x.toNat
  | x :: xs, y :: ys => if x = y then difference xs ys else x.toNat - y.toNat

theorem difference_common (xs ys : List UInt8) :
    difference xs ys = (xs.getD (common xs ys) 0).toNat - (ys.getD (common xs ys) 0).toNat := by
  induction xs generalizing ys with
  | nil => cases ys <;> simp [difference, common]
  | cons x xs ih =>
    cases ys with
    | nil => simp [difference, common]
    | cons y ys =>
      unfold difference common
      split
      · rw [ih, List.getD_cons_succ, List.getD_cons_succ]
      · rfl

theorem difference_swap (xs ys : List UInt8) : difference ys xs = -difference xs ys := by
  induction xs generalizing ys with
  | nil => cases ys <;> simp [difference]
  | cons x xs ih =>
    cases ys with
    | nil => rfl
    | cons y ys =>
      unfold difference
      by_cases same : x = y
      · rw [if_pos same, if_pos same.symm, ih]
      · rw [if_neg same, if_neg (Ne.symm same)]
        omega

theorem difference_append (ps xs ys : List UInt8) :
    difference (ps ++ xs) (ps ++ ys) = difference xs ys := by
  induction ps with
  | nil => rfl
  | cons p ps ih =>
    rw [List.cons_append, List.cons_append, difference, if_pos rfl, ih]

theorem difference_neg_iff {xs ys : List UInt8} (noNul : 0 ∉ ys) : difference xs ys < 0 ↔ xs < ys := by
  induction xs generalizing ys with
  | nil =>
    cases ys with
    | nil => simp [difference]
    | cons y ys =>
      have nonzero : y.toNat ≠ 0 := fun zero =>
        noNul (List.mem_cons.mpr (Or.inl (UInt8.toNat_inj.mp zero).symm))
      simp only [difference, List.nil_lt_cons, iff_true]
      omega
  | cons x xs ih =>
    cases ys with
    | nil =>
      simp only [difference, List.not_lt_nil, iff_false]
      omega
    | cons y ys =>
      rw [List.cons_lt_cons_iff, difference]
      by_cases same : x = y
      · rw [if_pos same, ih (mt (List.mem_cons_of_mem y) noNul)]
        simp [same]
      · rw [if_neg same, UInt8.lt_iff_toNat_lt]
        simp only [same, false_and, or_false]
        omega

theorem difference_eq_zero_iff {xs ys : List UInt8} (noNulX : 0 ∉ xs) (noNulY : 0 ∉ ys) :
    difference xs ys = 0 ↔ xs = ys := by
  induction xs generalizing ys with
  | nil =>
    cases ys with
    | nil => exact iff_of_true rfl rfl
    | cons y ys =>
      have before : difference [] (y :: ys) < 0 := (difference_neg_iff noNulY).mpr (List.nil_lt_cons y ys)
      exact iff_of_false (by omega) (List.cons_ne_nil y ys).symm
  | cons x xs ih =>
    cases ys with
    | nil =>
      have behind : difference [] (x :: xs) < 0 := (difference_neg_iff noNulX).mpr (List.nil_lt_cons x xs)
      rw [difference_swap] at behind
      exact iff_of_false (by omega) (List.cons_ne_nil x xs)
    | cons y ys =>
      rw [difference, List.cons.injEq]
      by_cases same : x = y
      · rw [if_pos same, ih (mt (List.mem_cons_of_mem x) noNulX) (mt (List.mem_cons_of_mem y) noNulY)]
        simp [same]
      · have apart : x.toNat ≠ y.toNat := fun equal => same (UInt8.toNat_inj.mp equal)
        rw [if_neg same]
        simp only [same, false_and, iff_false]
        omega

theorem common_ends_iff {xs ys : List UInt8} (noNulX : 0 ∉ xs) (noNulY : 0 ∉ ys) :
    (xs.getD (common xs ys) 0 = 0 ∧ ys.getD (common xs ys) 0 = 0) ↔ xs = ys := by
  constructor
  · rintro ⟨endX, endY⟩
    apply (difference_eq_zero_iff noNulX noNulY).mp
    rw [difference_common, endX, endY]
    rfl
  · rintro rfl
    simp [common_self]

section Order
variable {xs ys zs : List UInt8}

theorem difference_trans (noNulY : 0 ∉ ys) (noNulZ : 0 ∉ zs) (first : difference xs ys < 0)
    (second : difference ys zs < 0) : difference xs zs < 0 := by
  rw [difference_neg_iff noNulZ]
  rw [difference_neg_iff noNulY] at first
  rw [difference_neg_iff noNulZ] at second
  exact List.lt_trans first second

theorem difference_trans_le (noNulX : 0 ∉ xs) (noNulY : 0 ∉ ys) (noNulZ : 0 ∉ zs)
    (first : difference xs ys ≤ 0) (second : difference ys zs ≤ 0) : difference xs zs ≤ 0 := by
  by_cases left : difference xs ys = 0
  · rwa [(difference_eq_zero_iff noNulX noNulY).mp left]
  · by_cases right : difference ys zs = 0
    · rwa [← (difference_eq_zero_iff noNulY noNulZ).mp right]
    · exact Int.le_of_lt (difference_trans noNulY noNulZ (by omega) (by omega))

end Order

/-- `strncpy` writes `n` bytes: the string, and then zeros. -/
def strncpy {size : Nat} (dst : Vector UInt8 size) (src : CString) (n : Nat) : Vector UInt8 size :=
  Vector.ofFn fun i => if i.val < n then src.bytes.getD i.val 0 else dst[i]

theorem strncpy_terminated {size : Nat} (dst : Vector UInt8 (size + 1)) (src : CString) :
    ((strncpy dst src size).set size 0).toList =
      src.bytes.take size ++ List.replicate (size + 1 - min size src.bytes.length) 0 := by
  apply List.ext_getElem
  · simp only [Vector.length_toList, List.length_append, List.length_take, List.length_replicate]
    omega
  · intro i inside inside'
    rw [Vector.length_toList] at inside
    have element : ((strncpy dst src size).set size 0).toList[i] =
        if i < size then src.bytes.getD i 0 else 0 := by
      rw [Vector.getElem_toList, Vector.getElem_set]
      split
      · next last => rw [if_neg (by omega)]
      · next other =>
        have below : i < size := by omega
        unfold strncpy
        simp only [Vector.getElem_ofFn, below, if_true]
    rw [element]
    by_cases char : i < (src.bytes.take size).length
    · rw [List.getElem_append_left char, List.getElem_take]
      rw [List.length_take] at char
      rw [if_pos (by omega), List.getD_eq_getElem?_getD, List.getElem?_eq_getElem (by omega), Option.getD_some]
    · rw [List.getElem_append_right (Nat.not_lt.mp char), List.getElem_replicate]
      rw [List.length_take] at char
      split
      · rw [List.getD_eq_getElem?_getD, List.getElem?_eq_none (by omega), Option.getD_none]
      · rfl

theorem takeWhile_terminated {xs : List UInt8} (noNul : 0 ∉ xs) (n : Nat) :
    (xs ++ List.replicate n 0).takeWhile (· ≠ 0) = xs := by
  have chars : ∀ x ∈ xs, decide (x ≠ 0) = true :=
    fun x member => decide_eq_true fun zero => noNul (zero ▸ member)
  rw [List.takeWhile_append_of_pos chars]
  cases n with
  | zero => simp
  | succ n => simp [List.replicate_succ]

end CString
end Syseng.Support
