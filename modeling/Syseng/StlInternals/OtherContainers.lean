import Syseng.StlInternals.ContainerBenchmark

/-! The lists, the deques and the other maps of the benchmark. The lookups that scan a list or a deque ask
only the first queries, and scale the measured time to all of them. -/

namespace Syseng.StlInternals.ContainerBenchmark
open Support

/-- `std::find`. -/
def scanFor (l : List Int32) (val : Int32) : Option Int32 := l.find? fun x => x == val

def linearScanCap : Int32 := 1000

def size (q : List Int32) : Int32 := Signed.ofSize q.length.toUInt64

/-- `std::min((int)q.size(), LINEAR_SCAN_CAP)`. -/
def scanLimit (q : List Int32) : Int32 := if linearScanCap < size q then linearScanCap else size q

/-- A factor of type `int` for a time of type `long long`. -/
def scaled (ns : Int64) (factor : Int32) : Except Fault Int64 :=
  if -2 ^ 63 ≤ ns.toInt * factor.toInt ∧ ns.toInt * factor.toInt < 2 ^ 63 then
    .ok (Int64.ofInt (ns.toInt * factor.toInt))
  else .error .outOfRange

section Loops
variable {σ : Type}

def benchIterUmap (acc : Accumulator σ) (H : FiniteMap Int32 Int32) (h : H.Carrier) : Except Fault σ :=
  acc.total ((H.elements h).map Prod.snd)

def benchIterList (acc : Accumulator σ) (l : List Int32) : Except Fault σ := acc.total l

def benchIterDeque (acc : Accumulator σ) (d : List Int32) : Except Fault σ := acc.total d

def benchLookupFlatmap (acc : Accumulator σ) (F : FiniteMap Int32 Int32) (m : F.Carrier) (q : List Int32) :
    Except Fault σ :=
  lookupLoop acc (F.find m) q

def benchIterFlatmap (acc : Accumulator σ) (F : FiniteMap Int32 Int32) (m : F.Carrier) : Except Fault σ :=
  acc.total ((F.elements m).map Prod.snd)

def benchLookupNodeMap (acc : Accumulator σ) (U : FiniteMap Int32 Int32) (h : U.Carrier) (q : List Int32) :
    Except Fault σ :=
  lookupLoop acc (U.find h) q

def benchIterNodeMap (acc : Accumulator σ) (U : FiniteMap Int32 Int32) (h : U.Carrier) : Except Fault σ :=
  acc.total ((U.elements h).map Prod.snd)

def scanLoop (acc : Accumulator σ) (find : Int32 → Option Int32) (q : List Int32) (limit : Int32) :
    Except Fault σ :=
  (List.range limit.toInt.toNat).foldlM (fun sum i =>
    match q[i]? with
    | some val =>
      match find val with
      | some x => acc.add sum x
      | none => .ok sum
    | none => .error .outOfRange) acc.zero

def benchLookupList (acc : Accumulator σ) (l q : List Int32) (ns : Int64) : Except Fault (σ × Int64) := do
  let sum ← scanLoop acc (scanFor l) q (scanLimit q)
  let factor ← Signed.div (size q) (scanLimit q)
  let total ← scaled ns factor
  return (sum, total)

def benchLookupDeque (acc : Accumulator σ) (d q : List Int32) (ns : Int64) : Except Fault (σ × Int64) := do
  let sum ← scanLoop acc (scanFor d) q (scanLimit q)
  let factor ← Signed.div (size q) (scanLimit q)
  let total ← scaled ns factor
  return (sum, total)

theorem foldlM_indices {f : σ → Int32 → Except Fault σ} {q : List Int32} {n : Nat} (inside : n ≤ q.length)
    (s : σ) : (List.range n).foldlM (fun sum i =>
      match q[i]? with
      | some val => f sum val
      | none => .error .outOfRange) s = (q.take n).foldlM f s := by
  induction n with
  | zero => rfl
  | succ n ih =>
    have here : q[n]? = some q[n] := List.getElem?_eq_getElem inside
    rw [List.range_succ, List.foldlM_append, List.take_add_one, here, Option.toList_some, List.foldlM_append,
      ih (by omega)]
    simp only [List.foldlM_cons, List.foldlM_nil, here]

theorem scanLoop_take (acc : Accumulator σ) (find : Int32 → Option Int32) {q : List Int32} {limit : Int32}
    (inside : limit.toInt.toNat ≤ q.length) :
    scanLoop acc find q limit = lookupLoop acc find (q.take limit.toInt.toNat) :=
  foldlM_indices inside acc.zero

end Loops

theorem scanFor_finds (keys : List Int32) : ∀ val ∈ keys, scanFor keys val = some val := by
  intro val known
  unfold scanFor
  cases found : keys.find? fun x => x == val with
  | none =>
    have missed := List.find?_eq_none.mp found val known
    simp at missed
  | some x =>
    have same := List.find?_some found
    rw [eq_of_beq same]

section Limits
variable {q : List Int32}

theorem size_value (small : q.length < 2 ^ 31) : (size q).toInt = q.length := by
  have narrow : q.length.toUInt64.toNat = q.length := by
    rw [Nat.toUInt64_eq, UInt64.toNat_ofNat']
    omega
  rw [size, Signed.toInt_ofSize, narrow, if_pos (by omega)]
  omega

theorem scanLimit_value (small : q.length < 2 ^ 31) : (scanLimit q).toInt = min q.length 1000 := by
  have value := size_value small
  have cap : linearScanCap.toInt = 1000 := by decide
  unfold scanLimit
  by_cases above : linearScanCap < size q
  · have more := Int32.lt_iff_toInt_lt.mp above
    rw [if_pos above]
    omega
  · have less := Int32.le_iff_toInt_le.mp (Int32.not_lt.mp above)
    rw [if_neg above]
    omega

def scale (q : List Int32) : Nat := q.length / min q.length 1000

theorem factor_value (small : q.length < 2 ^ 31) (some_ : q ≠ []) :
    ∃ factor, Signed.div (size q) (scanLimit q) = .ok factor ∧ factor.toInt = scale q := by
  have length := List.length_pos_iff.mpr some_
  have value := size_value small
  have limit := scanLimit_value small
  have positive : scanLimit q ≠ 0 := by
    intro zero
    have nothing := congrArg Int32.toInt zero
    rw [limit] at nothing
    change _ = (0 : Int) at nothing
    omega
  have quotient : (size q).toInt.tdiv (scanLimit q).toInt = scale q := by
    rw [value, limit]
    rfl
  have below : scale q ≤ q.length := Nat.div_le_self _ _
  have inside : Signed.InRange ((size q).toInt.tdiv (scanLimit q).toInt) := by
    rw [quotient]
    constructor <;> omega
  obtain ⟨factor, made, same⟩ := Signed.check_ok inside
  exact ⟨factor, by rw [Signed.div, if_neg positive, made], by rw [same, quotient]⟩

theorem scale_covers_iff (some_ : q ≠ []) :
    scale q * min q.length 1000 = q.length ↔ q.length ≤ 1000 ∨ 1000 ∣ q.length := by
  have length := List.length_pos_iff.mpr some_
  unfold scale
  by_cases few : q.length ≤ 1000
  · rw [Nat.min_eq_left few, Nat.div_self length, Nat.one_mul]
    exact iff_of_true rfl (Or.inl few)
  · rw [Nat.min_eq_right (by omega)]
    omega

end Limits

def Scanned (q : List Int32) (ns : Int64) (r : Except Fault (Int32 × Int64)) : Prop :=
  ∃ sum total, r = .ok (sum, total) ∧ sum.toInt = Accumulator.sum (q.take 1000) ∧
    total.toInt = ns.toInt * scale q

theorem benchLookupDeque_eq {σ : Type} (acc : Accumulator σ) (d q : List Int32) (ns : Int64) :
    benchLookupDeque acc d q ns = benchLookupList acc d q ns := rfl

section Sums
variable {N : Int32} {keys queries : List Int32} {ns : Int64}

theorem length_iota (N : Int32) : (iota N).length = N.toInt.toNat := by
  simp [iota]

theorem iota_lt (N : Int32) : ∀ x ∈ iota N, x.toInt < N.toInt := by
  intro x member
  obtain ⟨k, below, rfl⟩ := List.mem_map.mp member
  have inside := List.mem_range.mp below
  have bound := N.toInt_lt
  rw [Int32.toInt_ofNat_of_lt (by omega)]
  omega

theorem take_total (small : queries.length < 2 ^ 31) (known : ∀ val ∈ queries, val ∈ keys) :
    scanLoop .int (scanFor keys) queries (scanLimit queries) = Accumulator.int.total (queries.take 1000) := by
  have limit := scanLimit_value small
  have asked : queries.take (scanLimit queries).toInt.toNat = queries.take 1000 := by
    rw [limit, Int.toNat_natCast, List.take_eq_take_iff]
    omega
  rw [scanLoop_take _ _ (by omega), asked, lookupLoop_total,
    filterMap_present (fun val member => known val (List.mem_of_mem_take member)) (scanFor_finds keys)]

theorem scaled_iff (forward : 0 ≤ ns.toInt) (factor : Int32) (low : 0 ≤ factor.toInt) :
    (∃ total, scaled ns factor = .ok total ∧ total.toInt = ns.toInt * factor.toInt) ↔
      ns.toInt * factor.toInt < 2 ^ 63 := by
  have product := Int.mul_nonneg forward low
  unfold scaled
  by_cases high : ns.toInt * factor.toInt < 2 ^ 63
  · rw [if_pos ⟨by omega, high⟩]
    exact iff_of_true ⟨_, rfl, Int64.toInt_ofInt_of_le (by omega) high⟩ high
  · rw [if_neg fun both => high both.2]
    apply iff_of_false _ high
    rintro ⟨total, done, -⟩
    cases done

theorem scanned_iff (small : queries.length < 2 ^ 31) (some_ : queries ≠ [])
    (known : ∀ val ∈ queries, val ∈ keys) (nonneg : ∀ val ∈ queries, 0 ≤ val.toInt)
    (forward : 0 ≤ ns.toInt) :
    Scanned queries ns (benchLookupList .int keys queries ns) ↔
      Accumulator.int.fits (Accumulator.sum (queries.take 1000)) ∧ ns.toInt * scale queries < 2 ^ 63 := by
  obtain ⟨factor, divided, quotient⟩ := factor_value small some_
  have values : ∀ x ∈ queries.take 1000, 0 ≤ x.toInt := fun x member =>
    nonneg x (List.mem_of_mem_take member)
  have sums := Accumulator.total_ends_iff Accumulator.int_downward values
  have times := scaled_iff forward factor (by omega)
  rw [← sums, ← quotient, ← times]
  unfold Scanned benchLookupList
  rw [take_total small known, divided]
  constructor
  · rintro ⟨sum, total, done, exact_, time⟩
    obtain ⟨sum', summed, rest⟩ := bind_ok done
    rw [ok_bind] at rest
    obtain ⟨total', multiplied, same⟩ := bind_ok rest
    cases same
    exact ⟨⟨sum, summed, exact_⟩, total, multiplied, by rw [time, quotient]⟩
  · rintro ⟨⟨sum, summed, exact_⟩, total, multiplied, time⟩
    refine ⟨sum, total, ?_, exact_, by rw [time, quotient]⟩
    rw [summed, ok_bind, ok_bind, multiplied]
    rfl

theorem sum_greatest (many : 1000 ≤ N.toInt) :
    Accumulator.sum ((iota N).reverse.take 1000) = 1000 * N.toInt - 500500 := by
  have bound := N.toInt_lt
  have last : (iota N).reverse.take 1000 = ((iota N).drop (N.toInt.toNat - 1000)).reverse := by
    rw [List.take_reverse, length_iota]
  have first : (iota N).take (N.toInt.toNat - 1000) =
      (List.range (N.toInt.toNat - 1000)).map Int32.ofNat := by
    rw [iota, ← List.map_take, List.take_range, Nat.min_eq_left (by omega)]
  have whole := congrArg Accumulator.sum (List.take_append_drop (N.toInt.toNat - 1000) (iota N))
  rw [Accumulator.sum_append, first] at whole
  have all : 2 * Accumulator.sum (iota N) = _ := sum_range (n := N.toInt.toNat) (by omega)
  have some_ := sum_range (n := N.toInt.toNat - 1000) (by omega)
  have count : (N.toInt.toNat : Int) = N.toInt := Int.toNat_of_nonneg (by omega)
  have fewer : ((N.toInt.toNat - 1000 : Nat) : Int) = N.toInt - 1000 := by omega
  rw [count] at all
  rw [fewer] at some_
  rw [last, Accumulator.sum_perm (List.reverse_perm _)]
  have difference : N.toInt * (N.toInt - 1) - (N.toInt - 1000) * (N.toInt - 1000 - 1) =
      2 * (1000 * N.toInt - 500500) := by ring
  omega

theorem sum_asked_le (perm : queries.Perm (iota N)) :
    2 * Accumulator.sum (queries.take 1000) ≤
      (queries.take 1000).length * (2 * N.toInt - (queries.take 1000).length - 1) := by
  have distinct := (perm.nodup_iff.mpr (iota_nodup N)).sublist (List.take_sublist 1000 queries)
  have between : ∀ x ∈ queries.take 1000, 0 ≤ x.toInt ∧ x.toInt < N.toInt.toNat := by
    intro x member
    have inside := perm.mem_iff.mp (List.mem_of_mem_take member)
    have low := iota_nonneg N x inside
    have high := iota_lt N x inside
    omega
  have bound := Accumulator.sum_distinct_le distinct between
  by_cases none_ : queries.take 1000 = []
  · simp [none_]
  · have member := List.head_mem none_
    have low := (between _ member).1
    have high := iota_lt N _ (perm.mem_iff.mp (List.mem_of_mem_take member))
    rwa [Int.toNat_of_nonneg (by omega)] at bound

/-- In whatever order the queries come, up to 2147984 of them the sums of the first ones fit. -/
theorem asked_fits_iff (positive : 0 < N.toInt) :
    (∀ queries : List Int32, queries.Perm (iota N) →
      Accumulator.int.fits (Accumulator.sum (queries.take 1000))) ↔ N.toInt ≤ 2147984 := by
  constructor
  · intro always
    by_contra many
    have greatest := always _ (List.reverse_perm (iota N))
    rw [sum_greatest (by omega)] at greatest
    obtain ⟨-, high⟩ := greatest
    omega
  · intro few queries perm
    have bound := sum_asked_le perm
    have low : 0 ≤ Accumulator.sum (queries.take 1000) := Accumulator.sum_nonneg fun x member =>
      iota_nonneg N x (perm.mem_iff.mp (List.mem_of_mem_take member))
    have count : (queries.take 1000).length = min 1000 N.toInt.toNat := by
      rw [List.length_take, perm.length_eq, length_iota]
    have product : ((queries.take 1000).length : Int) * (2 * N.toInt - (queries.take 1000).length - 1) ≤
        1000 * (2 * 2147984 - 1000 - 1) := by
      by_cases less : N.toInt ≤ 1000
      · have all : ((queries.take 1000).length : Int) = N.toInt := by omega
        rw [all]
        calc N.toInt * (2 * N.toInt - N.toInt - 1) ≤ 1000 * 1000 :=
              Int.mul_le_mul less (by omega) (by omega) (by decide)
          _ ≤ _ := by decide
      · have all : ((queries.take 1000).length : Int) = 1000 := by omega
        rw [all]
        omega
    change _ ≤ _ ∧ _ ≤ _
    omega

/-- However the keys and the queries are shuffled, both scans end with the exact sum and the scaled
time. -/
def ScansExact (N : Int32) (ns : Int64) : Prop :=
  ∀ shuffle reshuffle : List Int32 → List Int32, (∀ xs, (shuffle xs).Perm xs) →
    (∀ xs, (reshuffle xs).Perm xs) →
    let keys := generateKeys shuffle N
    let queries := generateShuffled reshuffle keys
    Scanned queries ns (benchLookupList .int keys queries ns) ∧
      Scanned queries ns (benchLookupDeque .int keys queries ns)

theorem scans_exact_iff (positive : 0 < N.toInt) (forward : 0 ≤ ns.toInt) :
    ScansExact N ns ↔ N.toInt ≤ 2147984 ∧ ns.toInt * (N.toInt / min N.toInt 1000) < 2 ^ 63 := by
  have bound := N.toInt_lt
  have each : ∀ keys queries : List Int32, keys.Perm (iota N) → queries.Perm keys →
      (Scanned queries ns (benchLookupList .int keys queries ns) ↔
        Accumulator.int.fits (Accumulator.sum (queries.take 1000)) ∧
          ns.toInt * (N.toInt / min N.toInt 1000) < 2 ^ 63) := by
    intro keys queries perm reorders
    have count : (queries.length : Int) = N.toInt := by
      rw [reorders.length_eq, perm.length_eq, length_iota]
      omega
    have factor : (scale queries : Int) = N.toInt / min N.toInt 1000 := by
      have least : ((min queries.length 1000 : Nat) : Int) = min (queries.length : Int) 1000 := by omega
      rw [← count, scale, Int.natCast_ediv, least]
    rw [← factor]
    apply scanned_iff (by omega) _ (fun val member => reorders.mem_iff.mp member) _ forward
    · rintro rfl
      rw [List.length_nil] at count
      omega
    · intro val member
      exact iota_nonneg N val ((reorders.trans perm).mem_iff.mp member)
  rw [← asked_fits_iff positive]
  constructor
  · intro always
    have any : ∀ queries : List Int32, queries.Perm (iota N) →
        Scanned queries ns (benchLookupList .int (iota N) queries ns) := by
      intro queries perm
      have some_ := (always id (fun xs => if xs = iota N then queries else xs) List.Perm.refl fun xs => by
        by_cases same : xs = iota N
        · rw [if_pos same, same]
          exact perm
        · rw [if_neg same]).1
      simpa [generateKeys, generateShuffled] using some_
    refine ⟨fun queries perm => ?_, ?_⟩
    · exact ((each _ queries (List.Perm.refl _) perm).mp (any queries perm)).1
    · exact ((each _ _ (List.Perm.refl _) (List.Perm.refl _)).mp (any _ (List.Perm.refl _))).2
  · rintro ⟨fits, high⟩ shuffle reshuffle permutes repermutes keys queries
    have perm : keys.Perm (iota N) := permutes (iota N)
    have reorders : queries.Perm keys := repermutes keys
    have scanned := (each keys queries perm reorders).mpr ⟨fits queries (reorders.trans perm), high⟩
    exact ⟨scanned, scanned⟩

theorem scans_exact_million : ScansExact 1000000 9000000000000000 :=
  (scans_exact_iff (by decide) (by decide)).mpr (by decide)

/-! The other sums are those of the containers that they stand beside. -/

theorem iterations_exact_iff {H : FiniteMap Int32 Int32} {h : H.Carrier} (nonneg : 0 ≤ N)
    (perm : keys.Perm (iota N)) (reflectsH : H.Reflects h keys) :
    (Accumulator.int.Ends (benchIterUmap .int H h) (sumBelow N) ∧
      Accumulator.int.Ends (benchIterList .int keys) (sumBelow N) ∧
      Accumulator.int.Ends (benchIterDeque .int keys) (sumBelow N)) ↔ N.toInt ≤ 65536 := by
  have values := (FiniteMap.values_perm reflectsH (perm.nodup_iff.mpr (iota_nodup N))).trans perm
  have listed := total_below_iff Accumulator.int_downward nonneg perm
  have mapped := total_below_iff Accumulator.int_downward nonneg values
  rw [← sumBelow_int_iff nonneg]
  constructor
  · intro sums
    exact listed.mp sums.2.1
  · intro fits
    exact ⟨mapped.mpr fits, listed.mpr fits, listed.mpr fits⟩

theorem boost_exact {F U : FiniteMap Int32 Int32} {m : F.Carrier} {h : U.Carrier} (nonneg : 0 ≤ N)
    (perm : keys.Perm (iota N)) (reorders : queries.Perm keys) (reflectsF : F.Reflects m keys)
    (reflectsU : U.Reflects h keys) :
    (Accumulator.longLong.Ends (benchLookupFlatmap .longLong F m queries) (sumBelow N) ∧
      Accumulator.longLong.Ends (benchIterFlatmap .longLong F m) (sumBelow N)) ∧
    Accumulator.longLong.Ends (benchLookupNodeMap .longLong U h queries) (sumBelow N) ∧
      Accumulator.longLong.Ends (benchIterNodeMap .longLong U h) (sumBelow N) :=
  ⟨uflat_exact nonneg perm reorders reflectsF, uflat_exact nonneg perm reorders reflectsU⟩

end Sums
end Syseng.StlInternals.ContainerBenchmark
