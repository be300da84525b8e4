import Mathlib.Algebra.Order.Ring.Nat
import Mathlib.Data.List.Basic

/-! Numbers written in a text, and a text taken apart again from its right end. -/

namespace Syseng.Support.Text

def byte (c : Char) : UInt8 := c.toNat.toUInt8

def ascii (s : String) : List UInt8 := s.toList.map byte

def digits (n : Nat) : List UInt8 := (Nat.toDigits 10 n).map byte

def decimal (n : Int) : List UInt8 := if n < 0 then byte '-' :: digits n.natAbs else digits n.natAbs

/-- At least `width` bytes, with blanks in front. -/
def padded (width : Nat) (n : Int) : List UInt8 :=
  List.replicate (width - (decimal n).length) (byte ' ') ++ decimal n

def zeroPadded (width n : Nat) : List UInt8 :=
  List.replicate (width - (digits n).length) (byte '0') ++ digits n

def hexDigit (n : Nat) : UInt8 := ((ascii "0123456789ABCDEF")[n]?).getD (byte '0')

def hex : Nat → Nat → List UInt8
  | 0, _ => []
  | width + 1, n => hex width (n / 16) ++ [hexDigit (n % 16)]

def number (ds : List UInt8) : Option Nat :=
  if ds ≠ [] ∧ ds.all fun d => 48 ≤ d.toNat ∧ d.toNat ≤ 57 then
    some (Nat.ofDigitChars 10 (ds.map fun c => Char.ofNat c.toNat) 0)
  else none

theorem digit_range {n : Nat} {c : Char} (member : c ∈ Nat.toDigits 10 n) :
    48 ≤ c.toNat ∧ c.toNat ≤ 57 := by
  have digit := Nat.isDigit_of_mem_toDigits (by decide) (by decide) member
  simp only [Char.isDigit, Bool.and_eq_true, decide_eq_true_eq, UInt32.le_iff_toNat_le] at digit
  exact digit

theorem digits_range {n : Nat} {c : UInt8} (member : c ∈ digits n) : 48 ≤ c.toNat ∧ c.toNat ≤ 57 := by
  obtain ⟨d, inside, rfl⟩ := List.mem_map.mp member
  have range := digit_range inside
  rw [byte, Nat.toUInt8_eq, UInt8.toNat_ofNat']
  omega

theorem digits_back (n : Nat) : (digits n).map (fun c => Char.ofNat c.toNat) = Nat.toDigits 10 n := by
  rw [digits, List.map_map]
  conv_rhs => rw [← List.map_id (Nat.toDigits 10 n)]
  apply List.map_congr_left
  intro c member
  have range := digit_range member
  change Char.ofNat c.toNat.toUInt8.toNat = c
  rw [Nat.toUInt8_eq, UInt8.toNat_ofNat', Nat.mod_eq_of_lt (by omega), Char.ofNat_toNat]

theorem digits_injective {n m : Nat} (same : digits n = digits m) : n = m := by
  have chars : Nat.toDigits 10 n = Nat.toDigits 10 m := by
    rw [← digits_back n, same, digits_back m]
  have values := congrArg (fun cs => Nat.ofDigitChars 10 cs 0) chars
  simpa using values

theorem length_digits {n k : Nat} (positive : 0 < k) (small : n < 10 ^ k) : (digits n).length ≤ k := by
  rw [digits, List.length_map]
  exact (Nat.length_toDigits_le_iff (by decide) positive).mpr small

theorem digits_ne_nil (n : Nat) : digits n ≠ [] := by
  rw [digits, Ne, List.map_eq_nil_iff]
  exact Nat.toDigits_ne_nil

theorem number_digits (n : Nat) : number (digits n) = some n := by
  have written : digits n ≠ [] ∧ (digits n).all fun d => 48 ≤ d.toNat ∧ d.toNat ≤ 57 := by
    refine ⟨digits_ne_nil n, List.all_eq_true.mpr fun d member => ?_⟩
    exact decide_eq_true (digits_range member)
  rw [number, if_pos written, digits_back, Nat.ofDigitChars_toDigits (by decide) (by decide)]

theorem length_zeroPadded {width n : Nat} (positive : 0 < width) (small : n < 10 ^ width) :
    (zeroPadded width n).length = width := by
  have short := length_digits positive small
  rw [zeroPadded, List.length_append, List.length_replicate]
  omega

theorem decimal_range {n : Int} {c : UInt8} (member : c ∈ decimal n) :
    c = byte '-' ∨ 48 ≤ c.toNat ∧ c.toNat ≤ 57 := by
  unfold decimal at member
  split at member
  · rcases List.mem_cons.mp member with rfl | inside
    · exact Or.inl rfl
    · exact Or.inr (digits_range inside)
  · exact Or.inr (digits_range member)

theorem padded_range {width : Nat} {n : Int} {c : UInt8} (member : c ∈ padded width n) :
    c = byte ' ' ∨ c = byte '-' ∨ 48 ≤ c.toNat ∧ c.toNat ≤ 57 := by
  rcases List.mem_append.mp member with blank | inside
  · exact Or.inl (List.eq_of_mem_replicate blank)
  · exact Or.inr (decimal_range inside)

theorem decimal_injective {n m : Int} (same : decimal n = decimal m) : n = m := by
  have no_sign : ∀ i j : Nat, byte '-' :: digits i ≠ digits j := by
    intro i j same
    have member : byte '-' ∈ digits j := same ▸ List.mem_cons_self
    exact absurd (digits_range member).1 (by decide)
  unfold decimal at same
  split at same
  · split at same
    · have values := digits_injective (List.cons.inj same).2
      omega
    · exact absurd same (no_sign _ _)
  · split at same
    · exact absurd same.symm (no_sign _ _)
    · have values := digits_injective same
      omega

theorem filter_padded (width : Nat) (n : Int) : (padded width n).filter (· != byte ' ') = decimal n := by
  have blanks : (List.replicate (width - (decimal n).length) (byte ' ')).filter (· != byte ' ') = [] := by
    rw [List.filter_replicate_of_neg (by decide)]
  have kept : (decimal n).filter (· != byte ' ') = decimal n := by
    apply List.filter_eq_self.mpr
    intro c member
    apply bne_iff_ne.mpr
    rintro rfl
    exact absurd (decimal_range member) (by decide)
  rw [padded, List.filter_append, blanks, kept, List.nil_append]

theorem padded_injective {width : Nat} {n m : Int} (same : padded width n = padded width m) : n = m := by
  apply decimal_injective
  rw [← filter_padded width n, same, filter_padded]

theorem length_decimal {n : Int} {k : Nat} (positive : 0 < k) (small : n.natAbs < 10 ^ k) :
    (decimal n).length ≤ k + 1 := by
  have short := length_digits positive small
  unfold decimal
  split
  · exact Nat.succ_le_succ short
  · exact Nat.le_succ_of_le short

theorem hexDigit_mem (n : Nat) : hexDigit n ∈ ascii "0123456789ABCDEF" := by
  unfold hexDigit
  cases here : (ascii "0123456789ABCDEF")[n]? with
  | none => decide
  | some c => exact List.mem_of_getElem? here

theorem hexDigit_injective : ∀ n < 16, ∀ m < 16, hexDigit n = hexDigit m → n = m := by decide

theorem hex_mem {width n : Nat} {c : UInt8} (member : c ∈ hex width n) : c ∈ ascii "0123456789ABCDEF" := by
  induction width generalizing n with
  | zero => cases member
  | succ width ih =>
    rcases List.mem_append.mp member with front | last
    · exact ih front
    · rw [List.mem_singleton.mp last]
      exact hexDigit_mem _

theorem hex_injective {width n m : Nat} (small : n < 16 ^ width) (small' : m < 16 ^ width)
    (same : hex width n = hex width m) : n = m := by
  induction width generalizing n m with
  | zero => omega
  | succ width ih =>
    obtain ⟨front, last⟩ := List.append_inj' same rfl
    rw [Nat.pow_succ] at small small'
    have high := ih (Nat.div_lt_of_lt_mul (by omega)) (Nat.div_lt_of_lt_mul (by omega)) front
    have low := hexDigit_injective (n % 16) (by omega) (m % 16) (by omega) (List.cons.inj last).1
    omega

theorem split_last {α : Type} {c : α} {xs xs' ys ys' : List α} (last : c ∉ ys) (last' : c ∉ ys')
    (same : xs ++ c :: ys = xs' ++ c :: ys') : xs = xs' ∧ ys = ys' := by
  have one : ∀ {zs zs' as : List α}, c ∉ zs → c :: zs = as ++ c :: zs' → as = [] ∧ zs = zs' := by
    intro zs zs' as absent equal
    cases as with
    | nil => exact ⟨rfl, (List.cons.inj equal).2⟩
    | cons a as =>
      have tail := (List.cons.inj equal).2
      rw [tail] at absent
      exact absurd (List.mem_append_right as List.mem_cons_self) absent
  rcases List.append_eq_append_iff.mp same with ⟨as, front, back⟩ | ⟨as, front, back⟩
  · obtain ⟨rfl, equal⟩ := one last back
    exact ⟨by simpa using front.symm, equal⟩
  · obtain ⟨rfl, equal⟩ := one last' back
    exact ⟨by simpa using front, equal.symm⟩

theorem split_first {α : Type} {c : α} {xs xs' ys ys' : List α} (first : c ∉ xs) (first' : c ∉ xs')
    (same : xs ++ c :: ys = xs' ++ c :: ys') : xs = xs' ∧ ys = ys' := by
  induction xs generalizing xs' with
  | nil =>
    cases xs' with
    | nil => exact ⟨rfl, (List.cons.inj same).2⟩
    | cons x xs' => exact absurd ((List.cons.inj same).1 ▸ List.mem_cons_self) first'
  | cons x xs ih =>
    cases xs' with
    | nil => exact absurd ((List.cons.inj same).1 ▸ List.mem_cons_self) first
    | cons x' xs' =>
      obtain ⟨here, there⟩ := List.cons.inj same
      obtain ⟨fronts, rests⟩ := ih (fun later => first (List.mem_cons_of_mem _ later))
        (fun later => first' (List.mem_cons_of_mem _ later)) there
      exact ⟨by rw [here, fronts], rests⟩

/-- Records that are each ended by a byte that none of them holds. -/
theorem records_injective {α : Type} {c : α} {xs ys : List (List α)} (clean : ∀ x ∈ xs, c ∉ x)
    (clean' : ∀ y ∈ ys, c ∉ y) (same : xs.flatMap (· ++ [c]) = ys.flatMap (· ++ [c])) : xs = ys := by
  induction xs generalizing ys with
  | nil =>
    cases ys with
    | nil => rfl
    | cons y ys => simp at same
  | cons x xs ih =>
    cases ys with
    | nil => simp at same
    | cons y ys =>
      obtain ⟨here, others⟩ := List.forall_mem_cons.mp clean
      obtain ⟨here', others'⟩ := List.forall_mem_cons.mp clean'
      rw [List.flatMap_cons, List.flatMap_cons, List.append_assoc, List.append_assoc] at same
      obtain ⟨first, rest⟩ := split_first here here' same
      rw [first, ih others others' rest]

def line {α : Type} : List α → List (α × List α) → List α
  | body, [] => body
  | body, (c, field) :: fields => line (body ++ c :: field) fields

theorem mem_line {α : Type} {c : α} {body : List α} {fields : List (α × List α)} :
    c ∈ line body fields ↔ c ∈ body ∨ ∃ f ∈ fields, c = f.1 ∨ c ∈ f.2 := by
  induction fields generalizing body with
  | nil => simp [line]
  | cons f fields ih => simp [line, ih, or_assoc]

theorem line_injective {α : Type} {body body' : List α} {fields fields' : List (α × List α)}
    (separators : fields.map Prod.fst = fields'.map Prod.fst) (absent : ∀ f ∈ fields, f.1 ∉ f.2)
    (absent' : ∀ f ∈ fields', f.1 ∉ f.2) (same : line body fields = line body' fields') :
    body = body' ∧ fields = fields' := by
  induction fields generalizing body body' fields' with
  | nil =>
    cases fields' with
    | nil => exact ⟨same, rfl⟩
    | cons f fields' => cases separators
  | cons f fields ih =>
    cases fields' with
    | nil => cases separators
    | cons f' fields' =>
      obtain ⟨c, field⟩ := f
      obtain ⟨c', field'⟩ := f'
      rw [List.map_cons, List.map_cons, List.cons.injEq] at separators
      obtain ⟨here, there⟩ := separators
      change c = c' at here
      subst here
      obtain ⟨last, others⟩ := List.forall_mem_cons.mp absent
      obtain ⟨last', others'⟩ := List.forall_mem_cons.mp absent'
      obtain ⟨front, rest⟩ := ih there others others' same
      obtain ⟨bodies, contents⟩ := split_last last last' front
      change field = field' at contents
      exact ⟨bodies, by rw [contents, rest]⟩

end Syseng.Support.Text
