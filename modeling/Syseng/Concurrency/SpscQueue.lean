import Mathlib.Data.Nat.ModEq
import Syseng.Support.BitCount

/-! What the queue of one producer and one consumer says of itself: its size, and whether it is empty or
full, by the two indices. -/

namespace Syseng.Concurrency
open Support

/-- `pow` is the assertion of the class, which takes 0 for a power of two. -/
structure SPSCQueue (N : UInt64) where
  head : UInt64
  tail : UInt64
  pow : N &&& (N - 1) = 0

namespace SPSCQueue
variable {N : UInt64}

def init (pow : N &&& (N - 1) = 0) : SPSCQueue N := { head := 0, tail := 0, pow }

def size (q : SPSCQueue N) : UInt64 := (q.head - q.tail) &&& (N - 1)

def empty (q : SPSCQueue N) : Bool := q.head == q.tail

def full (q : SPSCQueue N) : Bool := ((q.head + 1) &&& (N - 1)) == (q.tail &&& (N - 1))

def places (N : UInt64) : Nat := (N - 1).toNat + 1

theorem places_eq (some_ : N ≠ 0) : places N = N.toNat := by
  have positive : 1 ≤ N := by
    rw [UInt64.le_iff_toNat_le]
    by_contra none_
    have zero : N.toNat = 0 := by
      change ¬ 1 ≤ N.toNat at none_
      omega
    exact some_ (UInt64.toNat_inj.mp zero)
  have least : 1 ≤ N.toNat := UInt64.le_iff_toNat_le.mp positive
  rw [places, UInt64.toNat_sub_of_le _ _ positive]
  exact Nat.sub_add_cancel least

def Next (N i j : UInt64) : Prop := j = i + 1 ∨ j = (i + 1) &&& (N - 1)

section Masks
variable (pow : N &&& (N - 1) = 0)
include pow

theorem toNat_mask (x : UInt64) : (x &&& (N - 1)).toNat = x.toNat % places N :=
  BitCount.toNat_and_mask (congrArg UInt64.toBitVec pow) x.toBitVec

theorem places_dvd : places N ∣ 2 ^ 64 := by
  obtain ⟨k, small, same⟩ := BitCount.exists_mask (congrArg UInt64.toBitVec pow)
  change places N = 2 ^ k at same
  rw [same]
  exact Nat.pow_dvd_pow 2 small

theorem add_mod (x y : UInt64) : (x + y).toNat ≡ x.toNat + y.toNat [MOD places N] := by
  rw [UInt64.toNat_add]
  exact (Nat.mod_modEq (x.toNat + y.toNat) (2 ^ 64)).of_dvd (places_dvd pow)

theorem mask_mod (x : UInt64) : (x &&& (N - 1)).toNat ≡ x.toNat [MOD places N] := by
  rw [toNat_mask pow]
  exact Nat.mod_modEq _ _

theorem next_mod {i j : UInt64} (next : Next N i j) : j.toNat ≡ i.toNat + 1 [MOD places N] := by
  rcases next with rfl | rfl
  · exact add_mod pow i 1
  · exact (mask_mod pow _).trans (add_mod pow i 1)

end Masks

theorem size_init (pow : N &&& (N - 1) = 0) : (init pow).size = 0 := by
  change (0 - 0 : UInt64) &&& (N - 1) = 0
  rw [UInt64.sub_self, UInt64.zero_and]

theorem size_lt (q : SPSCQueue N) : q.size.toNat < places N := by
  rw [size, toNat_mask q.pow]
  exact Nat.mod_lt _ (Nat.succ_pos _)

theorem tail_add_size (q : SPSCQueue N) : q.tail.toNat + q.size.toNat ≡ q.head.toNat [MOD places N] := by
  have back : q.tail + (q.head - q.tail) = q.head := by
    rw [UInt64.add_comm, UInt64.sub_add_cancel]
  calc q.tail.toNat + q.size.toNat
      ≡ q.tail.toNat + (q.head - q.tail).toNat [MOD places N] := (mask_mod q.pow _).add_left _
    _ ≡ (q.tail + (q.head - q.tail)).toNat [MOD places N] := (add_mod q.pow _ _).symm
    _ ≡ q.head.toNat [MOD places N] := by rw [back]

theorem size_eq (q : SPSCQueue N) {n : Nat} (small : n < places N)
    (leads : q.tail.toNat + n ≡ q.head.toNat [MOD places N]) : q.size.toNat = n := by
  have same := (q.tail_add_size.trans leads.symm).add_left_cancel' _
  exact same.eq_of_lt_of_lt q.size_lt small

theorem full_iff_next (q : SPSCQueue N) : q.full ↔ q.head.toNat + 1 ≡ q.tail.toNat [MOD places N] := by
  have next := add_mod q.pow q.head 1
  rw [full, beq_iff_eq, ← UInt64.toNat_inj, toNat_mask q.pow, toNat_mask q.pow]
  exact ⟨fun same => next.symm.trans same, fun same => next.trans same⟩

theorem full_iff_size (q : SPSCQueue N) : q.full ↔ q.size.toNat + 1 = places N := by
  have leads := q.tail_add_size.add_right 1
  have bound := q.size_lt
  rw [full_iff_next]
  constructor
  · intro around
    have zero : q.size.toNat + 1 ≡ 0 [MOD places N] := (leads.trans around).add_left_cancel' q.tail.toNat
    have whole := Nat.le_of_dvd (Nat.succ_pos _) ((Nat.modEq_zero_iff_dvd).mp zero)
    omega
  · intro last
    calc q.head.toNat + 1 ≡ q.tail.toNat + q.size.toNat + 1 [MOD places N] := leads.symm
      _ = q.tail.toNat + places N := by rw [Nat.add_assoc, last]
      _ ≡ q.tail.toNat [MOD places N] := Nat.add_modEq_right

theorem size_pushed (q : SPSCQueue N) {h : UInt64} (next : Next N q.head h) :
    ({ q with head := h } : SPSCQueue N).size.toNat = if q.full then 0 else q.size.toNat + 1 := by
  have moved := next_mod q.pow next
  have bound := q.size_lt
  apply size_eq
  · split
    · exact Nat.succ_pos _
    · next vacant =>
      rw [full_iff_size] at vacant
      omega
  · split
    · next around => exact ((full_iff_next q).mp around).symm.trans moved.symm
    · exact (q.tail_add_size.add_right 1).trans moved.symm

theorem size_popped (q : SPSCQueue N) {t : UInt64} (next : Next N q.tail t) :
    ({ q with tail := t } : SPSCQueue N).size.toNat =
      if q.size = 0 then places N - 1 else q.size.toNat - 1 := by
  have moved := next_mod q.pow next
  have bound := q.size_lt
  have leads := q.tail_add_size
  apply size_eq
  · split
    · omega
    · omega
  · split
    · next none_ =>
      have zero : q.size.toNat = 0 := congrArg UInt64.toNat none_
      rw [zero, Nat.add_zero] at leads
      calc t.toNat + (places N - 1) ≡ q.tail.toNat + 1 + (places N - 1) [MOD places N] := moved.add_right _
        _ = q.tail.toNat + places N := by omega
        _ ≡ q.tail.toNat [MOD places N] := Nat.add_modEq_right
        _ ≡ q.head.toNat [MOD places N] := leads
    · next some_ =>
      have positive : q.size.toNat ≠ 0 := fun zero => some_ (UInt64.toNat_inj.mp zero)
      calc t.toNat + (q.size.toNat - 1) ≡ q.tail.toNat + 1 + (q.size.toNat - 1) [MOD places N] :=
            moved.add_right _
        _ = q.tail.toNat + q.size.toNat := by omega
        _ ≡ q.head.toNat [MOD places N] := leads

/-- What the three queries promise each other and whoever moves an index. The two values need not have been
there at the same time. -/
structure Observed (q : SPSCQueue N) : Prop where
  ring : N ≠ 0 → places N = N.toNat
  below : q.size.toNat < places N
  leads : q.tail.toNat + q.size.toNat ≡ q.head.toNat [MOD places N]
  empty : q.empty → q.size = 0
  full : q.full ↔ q.size.toNat + 1 = places N
  pushed : ∀ h, Next N q.head h →
    ({ q with head := h } : SPSCQueue N).size.toNat = if q.full then 0 else q.size.toNat + 1
  popped : ∀ t, Next N q.tail t →
    ({ q with tail := t } : SPSCQueue N).size.toNat = if q.size = 0 then places N - 1 else q.size.toNat - 1

theorem queries_agree (q : SPSCQueue N) : Observed q where
  ring := places_eq
  below := q.size_lt
  leads := q.tail_add_size
  empty same := by
    have equal : q.head = q.tail := eq_of_beq same
    rw [size, equal, UInt64.sub_self, UInt64.zero_and]
  full := q.full_iff_size
  pushed _ next := q.size_pushed next
  popped _ next := q.size_popped next

example : ({ head := 2, tail := 18446744073709551613, pow := by decide } : SPSCQueue 8).size = 5 := by decide

end SPSCQueue
end Syseng.Concurrency
