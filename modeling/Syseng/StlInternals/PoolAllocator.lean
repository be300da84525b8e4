import Syseng.Support.Machine
import Mathlib.Order.Interval.Set.Disjoint
import Mathlib.Order.CompletePartialOrder
import Mathlib.Algebra.Order.Ring.Nat

/-! `PoolAllocator<T>`, the bump allocator. All instances and element types share one
offset into one slab, and every size is computed modulo 2^64. -/

namespace Syseng.StlInternals.PoolAllocator
open Support

def poolSize : UInt64 := 4 * 1024 * 1024

structure Pool where
  gOffset : UInt64
  deriving DecidableEq, Repr

/-- `sizeofT` is the element size of the instance that is called. -/
inductive Call where
  | allocate (sizeofT n : UInt64)
  | deallocate (p : Nat) (n : UInt64)
  | reset
  deriving DecidableEq, Repr

inductive Value where
  | pointer (p : Nat)
  | threw
  | done
  deriving DecidableEq, Repr

def allocate (gPool : Nat) (s : Pool) (sizeofT n : UInt64) : Pool × Value :=
  let bytes := n * sizeofT
  let offset := s.gOffset
  if offset + bytes > poolSize then (s, .threw)
  else ({ s with gOffset := offset + bytes }, .pointer (gPool + offset.toNat))

def deallocate (s : Pool) (_p : Nat) (_n : UInt64) : Pool := s

def reset (s : Pool) : Pool := { s with gOffset := 0 }

def start : Pool := { gOffset := 0 }

def step (gPool : Nat) (s : Pool) : Call → Pool × Value
  | .allocate sizeofT n => allocate gPool s sizeofT n
  | .deallocate p n => (deallocate s p n, .done)
  | .reset => (reset s, .done)

/-- What `std::vector` keeps to. -/
def allowed (_ : Pool) : Call → Prop
  | .allocate sizeofT n => n.toNat * sizeofT.toNat < 2 ^ 63
  | _ => True

def machine (gPool : Nat) : Machine Pool Call Value Empty where
  allowed := allowed
  step := fun s e => .ok (step gPool s e)

instance (s : Pool) (e : Call) : Decidable (allowed s e) := by
  cases e <;> unfold allowed <;> infer_instance

instance (gPool : Nat) (s : Pool) (e : Call) : Decidable ((machine gPool).allowed s e) :=
  inferInstanceAs (Decidable (allowed s e))

/-- What a call of `allocate` handed out. -/
structure Region where
  start : Nat
  length : Nat
  deriving DecidableEq, Repr

def Region.cells (r : Region) : Set Nat := Set.Ico r.start (r.start + r.length)

def handed (regions : List Region) : Call → Value → List Region
  | .allocate sizeofT n, .pointer p => ⟨p, n.toNat * sizeofT.toNat⟩ :: regions
  | .reset, _ => []
  | _, _ => regions

def sinceReset (regions : List Region) : List Call → List Value → List Region
  | e :: es, v :: vs => sinceReset (handed regions e v) es vs
  | _, _ => regions

/-- The regions lie below the offset, without overlap. -/
structure Laid (gPool : Nat) (s : Pool) (regions : List Region) : Prop where
  bounded : s.gOffset ≤ poolSize
  below : ∀ r ∈ regions, gPool ≤ r.start ∧ r.start + r.length ≤ gPool + s.gOffset.toNat
  apart : regions.Pairwise fun r t => Disjoint r.cells t.cells

theorem guard_exact {offset sizeofT n : UInt64} (bounded : offset ≤ poolSize)
    (fits : n.toNat * sizeofT.toNat < 2 ^ 63) :
    (offset + n * sizeofT).toNat = offset.toNat + n.toNat * sizeofT.toNat := by
  have small : offset.toNat ≤ 4194304 := UInt64.le_iff_toNat_le.mp bounded
  have bytes : (n * sizeofT).toNat = n.toNat * sizeofT.toNat := by
    rw [UInt64.toNat_mul]
    exact Nat.mod_eq_of_lt (by omega)
  rw [UInt64.toNat_add, bytes]
  exact Nat.mod_eq_of_lt (by omega)

theorem allocate_cases (gPool : Nat) {s : Pool} {sizeofT n : UInt64} (bounded : s.gOffset ≤ poolSize)
    (fits : n.toNat * sizeofT.toNat < 2 ^ 63) :
    allocate gPool s sizeofT n = (s, .threw) ∧
        poolSize.toNat < s.gOffset.toNat + n.toNat * sizeofT.toNat ∨
      ∃ t, allocate gPool s sizeofT n = (t, .pointer (gPool + s.gOffset.toNat)) ∧
        t.gOffset.toNat = s.gOffset.toNat + n.toNat * sizeofT.toNat ∧ t.gOffset ≤ poolSize := by
  have exact_sum := guard_exact bounded fits
  by_cases beyond : s.gOffset + n * sizeofT > poolSize
  · left
    refine ⟨if_pos beyond, ?_⟩
    rw [← exact_sum]
    exact UInt64.lt_iff_toNat_lt.mp beyond
  · right
    exact ⟨_, if_neg beyond, exact_sum, UInt64.not_lt.mp beyond⟩

theorem Laid.fresh {gPool : Nat} {s : Pool} {regions : List Region} (laid : Laid gPool s regions)
    (length : Nat) : ∀ r ∈ regions, Disjoint (Region.cells ⟨gPool + s.gOffset.toNat, length⟩) r.cells := by
  intro r member
  apply Disjoint.symm
  exact Set.Ico_disjoint_Ico.mpr (le_trans (min_le_left _ _)
    (le_trans (laid.below r member).2 (le_max_right _ _)))

theorem step_laid {gPool : Nat} {s : Pool} {regions : List Region} (laid : Laid gPool s regions)
    {e : Call} (may : allowed s e) :
    Laid gPool (step gPool s e).1 (handed regions e (step gPool s e).2) := by
  cases e with
  | allocate sizeofT n =>
    rcases allocate_cases gPool laid.bounded may with ⟨threw, -⟩ | ⟨t, done, offset, bounded⟩
    · rw [step, threw]
      exact laid
    · rw [step, done]
      refine ⟨bounded, ?_, List.pairwise_cons.mpr ⟨laid.fresh _, laid.apart⟩⟩
      intro r member
      rcases List.mem_cons.mp member with rfl | old
      · simp only [offset]
        omega
      · have before := laid.below r old
        simp only [offset]
        omega
  | deallocate p n => exact laid
  | reset =>
    have empty : (0 : UInt64) ≤ poolSize := by decide
    exact ⟨empty, by simp [handed], List.Pairwise.nil⟩

theorem run_laid {gPool : Nat} {s t : Pool} {regions : List Region} {es : List Call}
    {vs : List Value} (run : (machine gPool).Run s es vs t) (laid : Laid gPool s regions) :
    Laid gPool t (sinceReset regions es vs) := by
  induction run generalizing regions with
  | nil s => exact laid
  | cons may now later ih =>
    have stepped := step_laid laid may
    have result : step gPool _ _ = _ := Except.ok.inj now
    rw [result] at stepped
    exact ih stepped

theorem start_laid (gPool : Nat) : Laid gPool start [] :=
  ⟨by decide, by simp, List.Pairwise.nil⟩

/-- What holds between calls, `regions` being those handed out since the last reset. -/
structure Shared (gPool : Nat) (s : Pool) (regions : List Region) : Prop where
  bounded : s.gOffset ≤ poolSize
  grows : ∀ e, allowed s e → e ≠ .reset → s.gOffset ≤ (step gPool s e).1.gOffset
  inside : ∀ r ∈ regions, r.cells ⊆ Set.Ico gPool (gPool + poolSize.toNat)
  apart : regions.Pairwise fun r t => Disjoint r.cells t.cells
  returned : ∀ sizeofT n p, allowed s (.allocate sizeofT n) →
    (allocate gPool s sizeofT n).2 = .pointer p →
      Region.cells ⟨p, n.toNat * sizeofT.toNat⟩ ⊆ Set.Ico gPool (gPool + poolSize.toNat) ∧
      ∀ r ∈ regions, Disjoint (Region.cells ⟨p, n.toNat * sizeofT.toNat⟩) r.cells
  deallocated : ∀ p n, (step gPool s (.deallocate p n)).1 = s
  threw : ∀ sizeofT n, (allocate gPool s sizeofT n).2 = .threw →
    (allocate gPool s sizeofT n).1 = s

theorem Laid.shared {gPool : Nat} {s : Pool} {regions : List Region} (laid : Laid gPool s regions) :
    Shared gPool s regions := by
  have small : s.gOffset.toNat ≤ poolSize.toNat := UInt64.le_iff_toNat_le.mp laid.bounded
  constructor
  · exact laid.bounded
  · intro e may going
    cases e with
    | allocate sizeofT n =>
      rcases allocate_cases gPool laid.bounded may with ⟨threw, -⟩ | ⟨t, done, offset, -⟩
      · rw [step, threw]
        exact UInt64.le_refl _
      · rw [step, done, UInt64.le_iff_toNat_le, offset]
        exact Nat.le_add_right _ _
    | deallocate p n => exact UInt64.le_refl _
    | reset => exact absurd rfl going
  · intro r member
    have placed := laid.below r member
    exact Set.Ico_subset_Ico placed.1 (by omega)
  · exact laid.apart
  · intro sizeofT n p may returned
    rcases allocate_cases gPool laid.bounded may with ⟨threw, -⟩ | ⟨t, done, offset, bounded⟩
    · rw [threw] at returned
      cases returned
    · rw [done] at returned
      cases returned
      have top : t.gOffset.toNat ≤ poolSize.toNat := UInt64.le_iff_toNat_le.mp bounded
      refine ⟨Set.Ico_subset_Ico (Nat.le_add_right _ _) ?_, laid.fresh _⟩
      change gPool + s.gOffset.toNat + n.toNat * sizeofT.toNat ≤ gPool + poolSize.toNat
      omega
  · exact fun p n => rfl
  · intro sizeofT n threw
    unfold allocate at threw ⊢
    by_cases beyond : s.gOffset + n * sizeofT > poolSize
    · rw [if_pos beyond]
    · rw [if_neg beyond] at threw
      cases threw

/-- Over every run the regions since the last reset share the slab out without overlap. -/
theorem pool_shared {gPool : Nat} {es : List Call} {vs : List Value} {s : Pool}
    (run : (machine gPool).Run start es vs s) : Shared gPool s (sinceReset [] es vs) :=
  (run_laid run (start_laid gPool)).shared

theorem pool_shared_exhausted : ∃ s, (machine 4096).Run start
    [.allocate 8 524287, .allocate 16 1, .allocate 4 2, .deallocate 4096 524287, .allocate 1 1, .reset,
      .allocate 4 3, .allocate 8 1]
    [.pointer 4096, .threw, .pointer 4198392, .done, .threw, .done, .pointer 4096, .pointer 4108] s ∧
    Shared 4096 s (sinceReset []
      [.allocate 8 524287, .allocate 16 1, .allocate 4 2, .deallocate 4096 524287, .allocate 1 1,
        .reset, .allocate 4 3, .allocate 8 1]
      [.pointer 4096, .threw, .pointer 4198392, .done, .threw, .done, .pointer 4096, .pointer 4108]) :=
  Machine.exists_run (by decide) fun _ run => pool_shared run

/-- A request is refused where its exact size does not fit, and else takes exactly that. -/
structure Refuses (gPool : Nat) (s : Pool) (sizeofT n : UInt64) : Prop where
  threw : (allocate gPool s sizeofT n).2 = .threw ↔
    poolSize.toNat < s.gOffset.toNat + n.toNat * sizeofT.toNat
  unchanged : (allocate gPool s sizeofT n).2 = .threw → (allocate gPool s sizeofT n).1 = s
  grown : (allocate gPool s sizeofT n).2 ≠ .threw →
    (allocate gPool s sizeofT n).1.gOffset.toNat = s.gOffset.toNat + n.toNat * sizeofT.toNat

theorem guard_mod (offset sizeofT n : UInt64) :
    (offset + n * sizeofT).toNat = (offset.toNat + n.toNat * sizeofT.toNat) % 2 ^ 64 := by
  rw [UInt64.toNat_add, UInt64.toNat_mul, Nat.add_mod_mod]

/-- The guard is right as long as the exact sum does not wrap to one that fits. -/
theorem allocate_refuses_iff (gPool : Nat) (s : Pool) (sizeofT n : UInt64) :
    Refuses gPool s sizeofT n ↔ s.gOffset.toNat + n.toNat * sizeofT.toNat < 2 ^ 64 ∨
      poolSize.toNat < (s.gOffset.toNat + n.toNat * sizeofT.toNat) % 2 ^ 64 := by
  have wrapped := guard_mod s.gOffset sizeofT n
  have size : poolSize.toNat < 2 ^ 64 := poolSize.toNat_lt
  by_cases beyond : s.gOffset + n * sizeofT > poolSize
  · have threw : allocate gPool s sizeofT n = (s, .threw) := if_pos beyond
    have above : poolSize.toNat < (s.gOffset + n * sizeofT).toNat := UInt64.lt_iff_toNat_lt.mp beyond
    have less := Nat.mod_le (s.gOffset.toNat + n.toNat * sizeofT.toNat) (2 ^ 64)
    apply iff_of_true
    · refine ⟨?_, fun _ => by rw [threw], fun returned => ?_⟩
      · rw [threw]
        exact iff_of_true rfl (by omega)
      · rw [threw] at returned
        exact absurd rfl returned
    · exact Or.inr (wrapped ▸ above)
  · have done : allocate gPool s sizeofT n =
        ({ s with gOffset := s.gOffset + n * sizeofT }, .pointer (gPool + s.gOffset.toNat)) :=
      if_neg beyond
    have below : ¬ poolSize.toNat < (s.gOffset + n * sizeofT).toNat :=
      mt UInt64.lt_iff_toNat_lt.mpr beyond
    rw [or_iff_left (wrapped ▸ below)]
    constructor
    · intro refuses
      have fits := mt refuses.threw.mpr (by simp [done])
      omega
    · intro small
      rw [Nat.mod_eq_of_lt small] at wrapped
      refine ⟨?_, fun thrown => ?_, fun _ => ?_⟩
      · rw [done]
        exact iff_of_false (by simp) (by omega)
      · rw [done] at thrown
        cases thrown
      · rw [done]
        exact wrapped

/-- 2^61 elements of 8 bytes, handed out from an empty pool without taking a byte of it. -/
theorem allocate_wraps : allocate 4096 start 8 2305843009213693952 = (start, .pointer 4096) ∧
    ¬ Refuses 4096 start 8 2305843009213693952 := by
  refine ⟨by decide, fun refuses => ?_⟩
  have thrown := refuses.threw.mpr (by decide)
  exact absurd thrown (by decide)

end Syseng.StlInternals.PoolAllocator
