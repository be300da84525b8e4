import Syseng.Support.Double
import Syseng.Support.Quantile

/-! The statistics that `common.hpp` prints of measured times: the median, the percentiles and the
average. -/

namespace Syseng.Tools.Bench
open Support

def sort (samples : List Int64) : List Int64 := samples.mergeSort fun x y => decide (x ≤ y)

def size (samples : List Int64) : UInt64 := samples.length.toUInt64

/-- `static_cast<double>` of a `long long`. -/
def toDouble (x : Int64) : Float := .ofModel (.ofInt64 x)

def at_ (samples : List Int64) (idx : UInt64) : Except Fault Int64 :=
  match samples[idx.toNat]? with
  | some x => .ok x
  | none => .error .outOfRange

def times (elapsed : Nat → Int64) (iterations : Int32) : List Int64 :=
  (List.range iterations.toInt.toNat).map elapsed

/-- There is no result when `reserve` is asked for more than a vector can hold, and throws. -/
def medianNs (elapsed : Nat → Int64) (iterations : Int32) : Except Fault (Option Float) :=
  if iterations < 0 then .ok none
  else do
    let samples := sort (times elapsed iterations)
    let x ← at_ samples (size samples / 2)
    return some (toDouble x)

def percentile (sorted : List Int64) (p : Float) : Except Fault Float := do
  let idx ← Double.toSize (p / 100.0 * (size sorted).toFloat)
  let idx := if idx ≥ size sorted then size sorted - 1 else idx
  let x ← at_ sorted idx
  return toDouble x

def plus (sum x : Int64) : Except Fault Int64 :=
  if -2 ^ 63 ≤ sum.toInt + x.toInt ∧ sum.toInt + x.toInt < 2 ^ 63 then .ok (Int64.ofInt (sum.toInt + x.toInt))
  else .error .outOfRange

def accumulate (samples : List Int64) : Except Fault Int64 := samples.foldlM plus 0

structure LatencyDist where
  avg : Float
  p50 : Float
  p99 : Float
  p999 : Float

def printLatencyDist (samples : List Int64) : Except Fault (Option LatencyDist) :=
  if samples.isEmpty then .ok none
  else do
    let samples := sort samples
    let p50 ← percentile samples 50.0
    let p99 ← percentile samples 99.0
    let p999 ← percentile samples 99.9
    let sum ← accumulate samples
    let avg := toDouble sum / (size samples).toFloat
    return some { avg, p50, p99, p999 }

theorem sort_perm (samples : List Int64) : (sort samples).Perm samples := List.mergeSort_perm samples _

theorem sort_pairwise (samples : List Int64) : (sort samples).Pairwise fun x y => x.toInt ≤ y.toInt := by
  have trans : ∀ a b c : Int64, decide (a ≤ b) = true → decide (b ≤ c) = true → decide (a ≤ c) = true := by
    intro a b c first second
    rw [decide_eq_true_iff] at first second ⊢
    exact Int64.le_trans first second
  have total : ∀ a b : Int64, (decide (a ≤ b) || decide (b ≤ a)) = true := by
    intro a b
    rw [Bool.or_eq_true, decide_eq_true_iff, decide_eq_true_iff]
    exact Int64.le_total a b
  apply (List.pairwise_mergeSort trans total samples).imp
  intro a b before
  exact Int64.le_iff_toInt_le.mp (of_decide_eq_true before)

theorem toNat_size {samples : List Int64} (small : samples.length < 2 ^ 64) :
    (size samples).toNat = samples.length := by
  rw [size, Nat.toUInt64_eq, UInt64.toNat_ofNat']
  omega

theorem at_ok (samples : List Int64) {idx : UInt64} {i : Nat} (same : idx.toNat = i)
    (inside : i < samples.length) : ∃ x, samples[i]? = some x ∧ at_ samples idx = .ok x := by
  have here : samples[i]? = some samples[i] := List.getElem?_eq_getElem inside
  exact ⟨_, here, by simp [at_, same, here]⟩

theorem percentile_rank {sorted : List Int64} {p : Float} {m num den : Nat}
    (factor : Double.Normal (p / 100.0).toModel.unpack m (-53)) (part : num < den)
    (above : den * m ≤ num * 2 ^ 53 + den) (below : 4 * (num * 2 ^ 53) ≤ 4 * (den * m) + den)
    (some_ : sorted ≠ []) (small : 2 * den * sorted.length ≤ 2 ^ 52) :
    ∃ x, sorted[num * sorted.length / den]? = some x ∧ percentile sorted p = .ok (toDouble x) := by
  have positive := List.length_pos_iff.mpr some_
  have short : sorted.length < 2 ^ 64 := by
    have scaled := Nat.mul_le_mul_right sorted.length (show 1 ≤ 2 * den by omega)
    omega
  have count := toNat_size short
  obtain ⟨⟨q, t, normal⟩, rank⟩ :=
    Double.toUInt64_mul (n := size sorted) factor (by omega) above below (by omega) (by rwa [count])
  rw [count] at rank
  have inside : num * sorted.length / den < sorted.length := by
    apply Nat.div_lt_of_lt_mul
    exact Nat.mul_lt_mul_of_pos_right part positive
  obtain ⟨x, here, found⟩ := at_ok sorted rank inside
  refine ⟨x, here, ?_⟩
  have unclamped : ¬ (p / 100.0 * (size sorted).toFloat).toUInt64 ≥ size sorted := by
    rw [ge_iff_le, UInt64.le_iff_toNat_le]
    omega
  rw [percentile, Double.toSize_normal normal, ok_bind]
  simp only [if_neg unclamped, found]
  rfl

theorem factor_50 : Double.Normal (50.0 / 100.0 : Float).toModel.unpack 4503599627370496 (-53) where
  finite := ⟨_, rfl⟩
  low := by decide
  high := by decide

theorem factor_99 : Double.Normal (99.0 / 100.0 : Float).toModel.unpack 8917127262193582 (-53) where
  finite := ⟨_, rfl⟩
  low := by decide
  high := by decide

theorem factor_999 : Double.Normal (99.9 / 100.0 : Float).toModel.unpack 8998192055486252 (-53) where
  finite := ⟨_, rfl⟩
  low := by decide
  high := by decide

def total (samples : List Int64) : Int := (samples.map Int64.toInt).sum

theorem total_cons (x : Int64) (samples : List Int64) : total (x :: samples) = x.toInt + total samples := by
  rw [total, List.map_cons, List.sum_cons, total]

theorem total_nonneg {samples : List Int64} (forward : ∀ x ∈ samples, 0 ≤ x.toInt) : 0 ≤ total samples := by
  induction samples with
  | nil => exact Int.le_refl 0
  | cons x samples ih =>
    obtain ⟨first, rest⟩ := List.forall_mem_cons.mp forward
    have later := ih rest
    rw [total_cons]
    omega

theorem plus_ok {s x : Int64} (low : -2 ^ 63 ≤ s.toInt + x.toInt) (high : s.toInt + x.toInt < 2 ^ 63) :
    ∃ t, plus s x = .ok t ∧ t.toInt = s.toInt + x.toInt :=
  ⟨_, if_pos ⟨low, high⟩, Int64.toInt_ofInt_of_le low high⟩

theorem toInt_plus {s x t : Int64} (added : plus s x = .ok t) : t.toInt = s.toInt + x.toInt := by
  unfold plus at added
  split at added
  · next inside =>
    cases added
    exact Int64.toInt_ofInt_of_le inside.1 inside.2
  · cases added

theorem toInt_foldlM {samples : List Int64} {s sum : Int64} (done : samples.foldlM plus s = .ok sum) :
    sum.toInt = s.toInt + total samples := by
  induction samples generalizing s with
  | nil =>
    cases done
    exact (Int.add_zero _).symm
  | cons x samples ih =>
    rw [List.foldlM_cons] at done
    cases added : plus s x with
    | error e =>
      rw [added] at done
      cases done
    | ok t =>
      rw [added] at done
      calc sum.toInt = t.toInt + total samples := ih done
        _ = s.toInt + total (x :: samples) := by rw [toInt_plus added, total_cons, Int.add_assoc]

theorem foldlM_ok {samples : List Int64} (forward : ∀ x ∈ samples, 0 ≤ x.toInt) {s : Int64}
    (low : 0 ≤ s.toInt) (fits : s.toInt + total samples < 2 ^ 63) :
    ∃ sum, samples.foldlM plus s = .ok sum := by
  induction samples generalizing s with
  | nil => exact ⟨s, rfl⟩
  | cons x samples ih =>
    obtain ⟨first, rest⟩ := List.forall_mem_cons.mp forward
    have later := total_nonneg rest
    rw [total_cons] at fits
    obtain ⟨t, added, value⟩ := plus_ok (s := s) (x := x) (by omega) (by omega)
    rw [List.foldlM_cons, added]
    exact ih rest (by omega) (by omega)

theorem total_perm {samples sorted : List Int64} (perm : sorted.Perm samples) : total sorted = total samples :=
  (perm.map Int64.toInt).sum_eq

theorem accumulate_sort_ok {samples : List Int64} {sum : Int64} (done : accumulate (sort samples) = .ok sum) :
    sum.toInt = total samples := by
  rw [toInt_foldlM done, total_perm (sort_perm samples)]
  exact Int.zero_add _

theorem accumulate_sort_fits {samples : List Int64} (forward : ∀ x ∈ samples, 0 ≤ x.toInt)
    (fits : total samples < 2 ^ 63) : ∃ sum, accumulate (sort samples) = .ok sum := by
  have perm := sort_perm samples
  have zero : Int64.toInt 0 = 0 := rfl
  apply foldlM_ok (s := 0) (fun x member => forward x (perm.mem_iff.mp member)) (Int.le_refl 0)
  rwa [zero, Int.zero_add, total_perm perm]

/-- What is printed of a list of times. -/
structure Shown (samples : List Int64) (d : LatencyDist) : Prop where
  avg : ∃ sum : Int64, sum.toInt = total samples ∧ d.avg = toDouble sum / (size samples).toFloat
  p50 : ∃ x, Quantile Int64.toInt samples 1 2 x ∧ d.p50 = toDouble x
  p99 : ∃ x, Quantile Int64.toInt samples 99 100 x ∧ d.p99 = toDouble x
  p999 : ∃ x, Quantile Int64.toInt samples 999 1000 x ∧ d.p999 = toDouble x

theorem sort_ne_nil {samples : List Int64} (some_ : samples ≠ []) : sort samples ≠ [] := by
  apply List.ne_nil_of_length_pos
  rw [(sort_perm samples).length_eq]
  exact List.length_pos_of_ne_nil some_

theorem percentile_quantile {samples : List Int64} {p : Float} {m num den : Nat}
    (factor : Double.Normal (p / 100.0).toModel.unpack m (-53)) (part : num < den)
    (above : den * m ≤ num * 2 ^ 53 + den) (below : 4 * (num * 2 ^ 53) ≤ 4 * (den * m) + den)
    (some_ : samples ≠ []) (small : 2 * den * samples.length ≤ 2 ^ 52) :
    ∃ x, Quantile Int64.toInt samples num den x ∧ percentile (sort samples) p = .ok (toDouble x) := by
  have perm := sort_perm samples
  obtain ⟨x, here, found⟩ :=
    percentile_rank factor part above below (sort_ne_nil some_) (by rwa [perm.length_eq])
  exact ⟨x, (Quantile.of_rank (sort_pairwise samples) (by omega) here).of_perm perm, found⟩

/-- The distribution of no more than `2 ^ 41` times comes out as long as their sum fits, and rounding never
moves a percentile to another rank. -/
theorem latency_dist_shown {samples : List Int64} (some_ : samples ≠ []) (small : samples.length ≤ 2 ^ 41)
    (forward : ∀ x ∈ samples, 0 ≤ x.toInt) :
    ((∃ d, printLatencyDist samples = .ok (some d)) ↔ total samples < 2 ^ 63) ∧
      ∀ d, printLatencyDist samples = .ok (some d) → Shown samples d := by
  obtain ⟨x, half, p50⟩ :=
    percentile_quantile factor_50 (by decide : 1 < 2) (by decide) (by decide) some_ (by omega)
  obtain ⟨y, late, p99⟩ :=
    percentile_quantile factor_99 (by decide : 99 < 100) (by decide) (by decide) some_ (by omega)
  obtain ⟨z, latest, p999⟩ :=
    percentile_quantile factor_999 (by decide : 999 < 1000) (by decide) (by decide) some_ (by omega)
  have count : size (sort samples) = size samples := by
    rw [size, size, (sort_perm samples).length_eq]
  have listed : ¬ samples.isEmpty = true := by
    rwa [List.isEmpty_iff]
  rw [printLatencyDist, if_neg listed]
  simp only [p50, p99, p999, count, ok_bind]
  cases done : accumulate (sort samples) with
  | ok sum =>
    have value := accumulate_sort_ok done
    apply And.intro (iff_of_true ⟨_, rfl⟩ (value ▸ sum.toInt_lt))
    intro d shown
    cases shown
    exact ⟨⟨sum, value, rfl⟩, ⟨x, half, rfl⟩, ⟨y, late, rfl⟩, ⟨z, latest, rfl⟩⟩
  | error e =>
    constructor
    · apply iff_of_false
      · rintro ⟨d, shown⟩
        cases shown
      · intro fits
        obtain ⟨sum, found⟩ := accumulate_sort_fits forward fits
        rw [done] at found
        cases found
    · intro d shown
      cases shown

theorem latency_dist_shown_three :
    ((∃ d, printLatencyDist [120, 95, 310] = .ok (some d)) ↔ total [120, 95, 310] < 2 ^ 63) ∧
      ∀ d, printLatencyDist [120, 95, 310] = .ok (some d) → Shown [120, 95, 310] d :=
  latency_dist_shown (by decide) (by decide) (by simp)

theorem middle_percentile {samples : List Int64} (some_ : samples ≠ []) (small : samples.length ≤ 2 ^ 41) :
    ∃ x, Quantile Int64.toInt samples 1 2 x ∧ at_ (sort samples) (size (sort samples) / 2) = .ok x ∧
      percentile (sort samples) 50.0 = .ok (toDouble x) := by
  have perm := sort_perm samples
  have positive := List.length_pos_of_ne_nil some_
  rw [← perm.length_eq] at small positive
  obtain ⟨x, here, found⟩ := percentile_rank factor_50 (by decide : 1 < 2) (by decide) (by decide)
    (sort_ne_nil some_) (by omega)
  have half : (size (sort samples) / 2).toNat = (sort samples).length / 2 := by
    rw [UInt64.toNat_div, toNat_size (by omega)]
    rfl
  obtain ⟨y, there, middle⟩ := at_ok (sort samples) half (by omega)
  rw [Nat.one_mul, there] at here
  cases here
  rw [← Nat.one_mul (sort samples).length] at there
  exact ⟨x, (Quantile.of_rank (sort_pairwise samples) (by decide) there).of_perm perm, middle, found⟩

/-- The median of `median_ns`, found without any `double`, is what `percentile` finds of the same times. -/
theorem median_percentile {iterations : Int32} (some_ : 0 < iterations) (elapsed : Nat → Int64) :
    ∃ x, Quantile Int64.toInt (times elapsed iterations) 1 2 x ∧
      medianNs elapsed iterations = .ok (some (toDouble x)) ∧
      percentile (sort (times elapsed iterations)) 50.0 = .ok (toDouble x) := by
  have positive : 0 < iterations.toInt := Int32.lt_iff_toInt_lt.mp some_
  have bound := iterations.toInt_lt
  have count : (times elapsed iterations).length = iterations.toInt.toNat := by
    rw [times, List.length_map, List.length_range]
  have listed : times elapsed iterations ≠ [] := by
    apply List.ne_nil_of_length_pos
    omega
  have forward : ¬ iterations < 0 := by
    rw [Int32.lt_iff_toInt_lt]
    exact Int.not_lt.mpr (Int.le_of_lt positive)
  obtain ⟨x, quantile, middle, found⟩ := middle_percentile listed (by omega)
  refine ⟨x, quantile, ?_, found⟩
  rw [medianNs, if_neg forward]
  simp only [middle]
  rfl

theorem median_percentile_three :
    ∃ x, Quantile Int64.toInt (times (fun i => if i = 1 then 70 else 50) 3) 1 2 x ∧
      medianNs (fun i => if i = 1 then 70 else 50) 3 = .ok (some (toDouble x)) ∧
      percentile (sort (times (fun i => if i = 1 then 70 else 50) 3)) 50.0 = .ok (toDouble x) :=
  median_percentile (by decide) _

end Syseng.Tools.Bench
