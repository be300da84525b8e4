import Mathlib.Tactic.Ring
import Syseng.Support.Accumulator
import Syseng.Support.FiniteMap

/-! The container benchmark: the keys, the queries, and the sums over what is found. The
measured times are left out. -/

namespace Syseng.StlInternals.ContainerBenchmark
open Support

def iota (N : Int32) : List Int32 := (List.range N.toInt.toNat).map Int32.ofNat

def generateKeys (shuffle : List Int32 → List Int32) (N : Int32) : List Int32 := shuffle (iota N)

def generateShuffled (shuffle : List Int32 → List Int32) (keys : List Int32) : List Int32 := shuffle keys

def sort (xs : List Int32) : List Int32 := xs.mergeSort fun x y => decide (x ≤ y)

/-- What `std::lower_bound` points to: the first element not less than `val`, if there is one. -/
def lowerBound (sortedV : List Int32) (val : Int32) : Option Int32 :=
  sortedV.find? fun x => !decide (x < val)

section Loops
variable {σ : Type}

def lookupLoop (acc : Accumulator σ) (find : Int32 → Option Int32) (q : List Int32) : Except Fault σ :=
  q.foldlM (fun sum val =>
    match find val with
    | some x => acc.add sum x
    | none => .ok sum) acc.zero

/-! The accumulator is a parameter. In the source it is an `int`, and a `long long` for the
containers of boost. -/

def benchLookupVector (acc : Accumulator σ) (sortedV q : List Int32) : Except Fault σ :=
  lookupLoop acc (lowerBound sortedV) q

def benchLookupMap (acc : Accumulator σ) (M : FiniteMap Int32 Int32) (m : M.Carrier) (q : List Int32) :
    Except Fault σ :=
  lookupLoop acc (M.find m) q

def benchLookupUmap (acc : Accumulator σ) (H : FiniteMap Int32 Int32) (h : H.Carrier) (q : List Int32) :
    Except Fault σ :=
  lookupLoop acc (H.find h) q

def benchLookupUflat (acc : Accumulator σ) (U : FiniteMap Int32 Int32) (u : U.Carrier) (q : List Int32) :
    Except Fault σ :=
  lookupLoop acc (U.find u) q

def benchIterVector (acc : Accumulator σ) (v : List Int32) : Except Fault σ := acc.total v

def benchIterMap (acc : Accumulator σ) (M : FiniteMap Int32 Int32) (m : M.Carrier) : Except Fault σ :=
  acc.total ((M.elements m).map Prod.snd)

def benchIterUflat (acc : Accumulator σ) (U : FiniteMap Int32 Int32) (u : U.Carrier) : Except Fault σ :=
  acc.total ((U.elements u).map Prod.snd)

theorem lookupLoop_total (acc : Accumulator σ) (find : Int32 → Option Int32) (q : List Int32) :
    lookupLoop acc find q = acc.total (q.filterMap find) := by
  have from_any : ∀ s, q.foldlM (fun sum val =>
      match find val with
      | some x => acc.add sum x
      | none => .ok sum) s = (q.filterMap find).foldlM acc.add s := by
    induction q with
    | nil => exact fun _ => rfl
    | cons val q ih =>
      intro s
      cases found : find val with
      | none => simp [found, ih]
      | some x => simp [found, ih]
  exact from_any acc.zero

end Loops

theorem sort_perm (xs : List Int32) : (sort xs).Perm xs := List.mergeSort_perm xs _

theorem sort_pairwise (xs : List Int32) : (sort xs).Pairwise (· ≤ ·) := by
  have trans : ∀ a b c : Int32, decide (a ≤ b) = true → decide (b ≤ c) = true → decide (a ≤ c) = true := by
    intro a b c first second
    rw [decide_eq_true_iff] at first second ⊢
    exact Int32.le_trans first second
  have total : ∀ a b : Int32, (decide (a ≤ b) || decide (b ≤ a)) = true := by
    intro a b
    rw [Bool.or_eq_true, decide_eq_true_iff, decide_eq_true_iff]
    exact Int32.le_total a b
  exact (List.pairwise_mergeSort trans total xs).imp of_decide_eq_true

/-- The least key above a query that is no key. -/
def overshot (keys : List Int32) (val : Int32) : Option Int32 :=
  if val ∈ keys then none else (keys.filter (val < ·)).min?

theorem lowerBound_least {xs : List Int32} {val x : Int32} (sorted : xs.Pairwise (· ≤ ·))
    (found : lowerBound xs val = some x) : x ∈ xs ∧ val ≤ x ∧ ∀ y ∈ xs, val ≤ y → x ≤ y := by
  obtain ⟨here, front, back, rfl, before⟩ := List.find?_eq_some_iff_append.mp found
  simp only [Bool.not_eq_true', decide_eq_false_iff_not] at here
  refine ⟨List.mem_append_right _ List.mem_cons_self, Int32.not_lt.mp here, fun y member above => ?_⟩
  obtain ⟨-, rest, -⟩ := List.pairwise_append.mp sorted
  rcases List.mem_append.mp member with early | late
  · have less := before y early
    simp only [Bool.not_not, decide_eq_true_iff] at less
    exact absurd less (Int32.not_lt.mpr above)
  · rcases List.mem_cons.mp late with rfl | later
    · exact Int32.le_refl y
    · exact List.rel_of_pairwise_cons rest later

theorem lowerBound_none {xs : List Int32} {val : Int32} :
    lowerBound xs val = none ↔ ∀ y ∈ xs, y < val := by
  simp [lowerBound, List.find?_eq_none]

theorem lowerBound_eq {xs : List Int32} {val x : Int32} (sorted : xs.Pairwise (· ≤ ·)) (member : x ∈ xs)
    (above : val ≤ x) (least : ∀ y ∈ xs, val ≤ y → x ≤ y) : lowerBound xs val = some x := by
  cases found : lowerBound xs val with
  | none => exact absurd (lowerBound_none.mp found x member) (Int32.not_lt.mpr above)
  | some y =>
    obtain ⟨inside, high, before⟩ := lowerBound_least sorted found
    rw [Int32.le_antisymm (least y inside high) (before x member above)]

theorem lowerBound_sort (keys : List Int32) (val : Int32) :
    lowerBound (sort keys) val = if val ∈ keys then some val else overshot keys val := by
  have members : ∀ y, y ∈ sort keys ↔ y ∈ keys := fun y => (sort_perm keys).mem_iff
  by_cases known : val ∈ keys
  · rw [if_pos known]
    have least : ∀ y ∈ sort keys, val ≤ y → val ≤ y := fun _ _ above => above
    exact lowerBound_eq (sort_pairwise keys) ((members val).mpr known) (Int32.le_refl val) least
  · rw [if_neg known, overshot, if_neg known]
    have apart : ∀ y ∈ keys, val ≤ y → val < y := by
      intro y member above
      apply Int32.lt_of_le_of_ne above
      rintro rfl
      exact known member
    have listed : ∀ y, y ∈ keys.filter (val < ·) ↔ y ∈ keys ∧ val < y := by
      intro y
      rw [List.mem_filter, decide_eq_true_iff]
    cases least : (keys.filter (val < ·)).min? with
    | none =>
      apply lowerBound_none.mpr
      intro y member
      by_contra high
      have inside := (members y).mp member
      have there := (listed y).mpr ⟨inside, apart y inside (Int32.not_lt.mp high)⟩
      rw [List.min?_eq_none_iff.mp least] at there
      cases there
    | some x =>
      obtain ⟨chosen, below⟩ := List.min?_eq_some_iff.mp least
      obtain ⟨inside, less⟩ := (listed x).mp chosen
      apply lowerBound_eq (sort_pairwise keys) ((members x).mpr inside) (Int32.le_of_lt less)
      intro y member high
      have other := (members y).mp member
      exact below y ((listed y).mpr ⟨other, apart y other high⟩)

/-- Every query that is a key adds itself, and every other one its overshot key. -/
theorem sum_lowerBound (keys q : List Int32) :
    Accumulator.sum (q.filterMap (lowerBound (sort keys))) =
      Accumulator.sum (q.filter (· ∈ keys)) + Accumulator.sum (q.filterMap (overshot keys)) := by
  induction q with
  | nil => rfl
  | cons val q ih =>
    have found := lowerBound_sort keys val
    by_cases known : val ∈ keys
    · have none_ : overshot keys val = none := if_pos known
      rw [if_pos known] at found
      simp only [List.filterMap_cons, List.filter_cons, found, known, none_, if_true, decide_true,
        Accumulator.sum_cons, ih]
      omega
    · rw [if_neg known] at found
      cases missed : overshot keys val with
      | none =>
        rw [missed] at found
        simp [found, known, missed, ih]
      | some x =>
        rw [missed] at found
        simp only [List.filterMap_cons, List.filter_cons, found, known, missed, if_false, decide_false,
          Bool.false_eq_true, Accumulator.sum_cons, ih]
        omega

theorem filterMap_find {M : FiniteMap Int32 Int32} {m : M.Carrier} {keys : List Int32}
    (reflects : M.Reflects m keys) (q : List Int32) : q.filterMap (M.find m) = q.filter (· ∈ keys) := by
  induction q with
  | nil => rfl
  | cons val q ih =>
    by_cases known : val ∈ keys
    · simp [reflects val, known, ih]
    · simp [reflects val, known, ih]

/-- In exact integers all the lookups end with the sum of the queries that are keys. -/
def LookupsAgree {M H U : FiniteMap Int32 Int32} (m : M.Carrier) (h : H.Carrier) (u : U.Carrier)
    (keys q : List Int32) : Prop :=
  benchLookupVector .exact (sort keys) q = .ok (Accumulator.sum (q.filter (· ∈ keys))) ∧
  benchLookupMap .exact M m q = .ok (Accumulator.sum (q.filter (· ∈ keys))) ∧
  benchLookupUmap .exact H h q = .ok (Accumulator.sum (q.filter (· ∈ keys))) ∧
  benchLookupUflat .exact U u q = .ok (Accumulator.sum (q.filter (· ∈ keys)))

theorem lookupLoop_exact {M : FiniteMap Int32 Int32} {m : M.Carrier} {keys : List Int32}
    (reflects : M.Reflects m keys) (q : List Int32) :
    lookupLoop .exact (M.find m) q = .ok (Accumulator.sum (q.filter (· ∈ keys))) := by
  rw [lookupLoop_total, filterMap_find reflects, Accumulator.total_exact]

section Agreement
variable {M H U : FiniteMap Int32 Int32} {m : M.Carrier} {h : H.Carrier} {u : U.Carrier} {keys : List Int32}

theorem agree_iff (reflectsM : M.Reflects m keys) (reflectsH : H.Reflects h keys)
    (reflectsU : U.Reflects u keys) (q : List Int32) :
    LookupsAgree m h u keys q ↔ Accumulator.sum (q.filterMap (overshot keys)) = 0 := by
  have vector : benchLookupVector .exact (sort keys) q =
      .ok (Accumulator.sum (q.filter (· ∈ keys)) + Accumulator.sum (q.filterMap (overshot keys))) := by
    rw [benchLookupVector, lookupLoop_total, Accumulator.total_exact, sum_lowerBound]
  unfold LookupsAgree
  rw [vector, Except.ok.injEq]
  constructor
  · rintro ⟨same, -⟩
    omega
  · intro nothing
    exact ⟨by omega, lookupLoop_exact reflectsM q, lookupLoop_exact reflectsH q, lookupLoop_exact reflectsU q⟩

theorem overshot_none {val : Int32} :
    overshot keys val = none ↔ val ∈ keys ∨ ∀ k ∈ keys, k < val := by
  unfold overshot
  by_cases known : val ∈ keys
  · simp [known]
  · rw [if_neg known, List.min?_eq_none_iff, List.filter_eq_nil_iff]
    simp only [known, false_or, decide_eq_true_iff, Int32.not_lt]
    apply forall₂_congr
    intro k member
    constructor
    · intro below
      apply Int32.lt_of_le_of_ne below
      rintro rfl
      exact known member
    · exact Int32.le_of_lt

theorem prefixes_vanish (f : Int32 → Option Int32) (q : List Int32) :
    (∀ p, p <+: q → Accumulator.sum (p.filterMap f) = 0) ↔ ∀ val ∈ q, f val = none ∨ f val = some 0 := by
  induction q with
  | nil => simp
  | cons val q ih =>
    have first : f val = none ∨ f val = some 0 ↔ Accumulator.sum ([val].filterMap f) = 0 := by
      cases found : f val with
      | none => simp [found]
      | some x =>
        simp only [List.filterMap_cons, found, List.filterMap_nil, Accumulator.sum_cons, Accumulator.sum_nil,
          Int.add_zero, Option.some.injEq, reduceCtorEq, false_or, ← Int32.toInt_inj]
        rfl
    have split : ∀ p, Accumulator.sum ((val :: p).filterMap f) =
        Accumulator.sum ([val].filterMap f) + Accumulator.sum (p.filterMap f) := by
      intro p
      rw [← Accumulator.sum_append, ← List.filterMap_append, List.singleton_append]
    rw [List.forall_mem_cons, first, ← ih]
    constructor
    · intro vanish
      have here := vanish [val] (List.prefix_cons_inj val |>.mpr List.nil_prefix)
      refine ⟨here, fun p before => ?_⟩
      have there := vanish (val :: p) ((List.prefix_cons_inj val).mpr before)
      rw [split] at there
      omega
    · rintro ⟨here, later⟩ p before
      rcases List.prefix_cons_iff.mp before with rfl | ⟨rest, rfl, inside⟩
      · rfl
      · have there := later rest inside
        rw [split]
        omega

theorem agree_prefixes_iff (reflectsM : M.Reflects m keys) (reflectsH : H.Reflects h keys)
    (reflectsU : U.Reflects u keys) (q : List Int32) :
    (∀ p, p <+: q → LookupsAgree m h u keys p) ↔
      ∀ val ∈ q, val ∈ keys ∨ (∀ k ∈ keys, k < val) ∨ overshot keys val = some 0 := by
  have each : ∀ p, LookupsAgree m h u keys p ↔ Accumulator.sum (p.filterMap (overshot keys)) = 0 :=
    agree_iff reflectsM reflectsH reflectsU
  simp only [each, prefixes_vanish, overshot_none, or_assoc]

/-- The key 2 and the query 1. -/
theorem lookup_overshoots : ¬ LookupsAgree ((FiniteMap.associationList Int32 Int32).assignAll [2])
    ((FiniteMap.associationList Int32 Int32).assignAll [2])
    ((FiniteMap.associationList Int32 Int32).emplaceAll [2]) [2] [1] := by
  intro agree
  have nothing := (agree_iff (FiniteMap.assignAll_reflects _ _) (FiniteMap.assignAll_reflects _ _)
    (FiniteMap.emplaceAll_reflects _ _) [1]).mp agree
  exact absurd nothing (by decide)

theorem lookups_agree_iff (reflectsM : M.Reflects m keys) (reflectsH : H.Reflects h keys)
    (reflectsU : U.Reflects u keys) (q : List Int32) :
    (LookupsAgree m h u keys q ↔ Accumulator.sum (q.filterMap (overshot keys)) = 0) ∧
    ((∀ p, p <+: q → LookupsAgree m h u keys p) ↔
      ∀ val ∈ q, val ∈ keys ∨ (∀ k ∈ keys, k < val) ∨ overshot keys val = some 0) :=
  ⟨agree_iff reflectsM reflectsH reflectsU q, agree_prefixes_iff reflectsM reflectsH reflectsU q⟩

theorem lookups_agree_present : LookupsAgree ((FiniteMap.associationList Int32 Int32).assignAll [5, -3, 2])
    ((FiniteMap.associationList Int32 Int32).assignAll [5, -3, 2])
    ((FiniteMap.associationList Int32 Int32).emplaceAll [5, -3, 2]) [5, -3, 2] [2, 9, -3] :=
  (lookups_agree_iff (FiniteMap.assignAll_reflects _ _) (FiniteMap.assignAll_reflects _ _)
    (FiniteMap.emplaceAll_reflects _ _) [2, 9, -3]).1.mpr (by decide)

end Agreement

/-! The sums over the keys `0, …, N - 1`. -/

theorem iota_nonneg (N : Int32) : ∀ x ∈ iota N, 0 ≤ x.toInt := by
  intro x member
  obtain ⟨k, below, rfl⟩ := List.mem_map.mp member
  have inside := List.mem_range.mp below
  have bound := N.toInt_lt
  rw [Int32.toInt_ofNat_of_lt (by omega)]
  exact Int.natCast_nonneg k

theorem iota_nodup (N : Int32) : (iota N).Nodup := by
  apply List.nodup_range.map_on
  intro j belowJ k belowK same
  have insideJ := List.mem_range.mp belowJ
  have insideK := List.mem_range.mp belowK
  have bound := N.toInt_lt
  have values := congrArg Int32.toInt same
  rw [Int32.toInt_ofNat_of_lt (by omega), Int32.toInt_ofNat_of_lt (by omega)] at values
  omega

theorem sum_range {n : Nat} (small : n ≤ 2 ^ 31) :
    2 * Accumulator.sum ((List.range n).map Int32.ofNat) = (n : Int) * (n - 1) := by
  induction n with
  | zero => rfl
  | succ n ih =>
    have before := ih (by omega)
    have last : (Int32.ofNat n).toInt = n := Int32.toInt_ofNat_of_lt (by omega)
    rw [List.range_succ, List.map_append, Accumulator.sum_append, List.map_singleton, Accumulator.sum_cons,
      Accumulator.sum_nil, last]
    calc 2 * (Accumulator.sum ((List.range n).map Int32.ofNat) + ((n : Int) + 0))
        = (n : Int) * (n - 1) + 2 * n := by rw [← before]; ring
      _ = ((n + 1 : Nat) : Int) * ((n + 1 : Nat) - 1) := by push_cast; ring

def sumBelow (N : Int32) : Int := N.toInt * (N.toInt - 1) / 2

theorem sum_iota {N : Int32} (nonneg : 0 ≤ N) : Accumulator.sum (iota N) = sumBelow N := by
  have low : 0 ≤ N.toInt := Int32.le_iff_toInt_le.mp nonneg
  have bound := N.toInt_lt
  have closed := sum_range (n := N.toInt.toNat) (by omega)
  rw [Int.toNat_of_nonneg low] at closed
  unfold sumBelow iota
  omega

theorem product_bounds {n b : Int} (low : 0 ≤ n) (below : n ≤ b) :
    0 ≤ n * (n - 1) ∧ (1 ≤ n → n * (n - 1) ≤ b * (b - 1)) := by
  rcases Int.lt_or_eq_of_le low with positive | rfl
  · have rest : 0 ≤ n - 1 := by omega
    exact ⟨Int.mul_nonneg low rest, fun _ => Int.mul_le_mul below (by omega) rest (by omega)⟩
  · exact ⟨by decide, fun wrong => absurd wrong (by decide)⟩

theorem sumBelow_bounds {N : Int32} {b : Int} (nonneg : 0 ≤ N) (positive : 1 ≤ b) (below : N.toInt ≤ b) :
    0 ≤ sumBelow N ∧ sumBelow N ≤ b * (b - 1) / 2 := by
  have low : 0 ≤ N.toInt := Int32.le_iff_toInt_le.mp nonneg
  obtain ⟨lowest, highest⟩ := product_bounds low below
  have some_ : 0 ≤ b * (b - 1) := Int.mul_nonneg (by omega) (by omega)
  unfold sumBelow
  by_cases first : 1 ≤ N.toInt
  · have high := highest first
    omega
  · have zero : N.toInt = 0 := by omega
    rw [zero]
    omega

theorem sumBelow_int_iff {N : Int32} (nonneg : 0 ≤ N) :
    Accumulator.int.fits (sumBelow N) ↔ N.toInt ≤ 65536 := by
  change (-2147483648 ≤ _ ∧ _ ≤ (2147483647 : Int)) ↔ _
  constructor
  · rintro ⟨-, high⟩
    by_contra large
    have many : 65537 * 65536 ≤ N.toInt * (N.toInt - 1) :=
      Int.mul_le_mul (by omega) (by omega) (by decide) (by omega)
    unfold sumBelow at high
    omega
  · intro small
    obtain ⟨low, high⟩ := sumBelow_bounds nonneg (by decide) small
    omega

theorem sumBelow_longLong {N : Int32} (nonneg : 0 ≤ N) : Accumulator.longLong.fits (sumBelow N) := by
  have bound := N.toInt_lt
  obtain ⟨low, high⟩ := sumBelow_bounds (b := 2 ^ 31) nonneg (by decide) (by omega)
  change -2 ^ 63 ≤ _ ∧ _ < (2 ^ 63 : Int)
  omega

/-- Whatever is added up, in whatever order: these are the numbers below `N`. -/
theorem total_below_iff {σ : Type} {acc : Accumulator σ}
    (downward : ∀ m n, 0 ≤ m → m ≤ n → acc.fits n → acc.fits m) {N : Int32} (nonneg : 0 ≤ N)
    {xs : List Int32} (perm : xs.Perm (iota N)) :
    acc.Ends (acc.total xs) (sumBelow N) ↔ acc.fits (sumBelow N) := by
  have values : ∀ x ∈ xs, 0 ≤ x.toInt := fun x member => iota_nonneg N x (perm.mem_iff.mp member)
  rw [← sum_iota nonneg, ← Accumulator.sum_perm perm]
  exact Accumulator.total_ends_iff downward values

/-- What the benchmark calls with an accumulator of type `int` adds up, without leaving the range. -/
structure SumsExact {M H : FiniteMap Int32 Int32} (m : M.Carrier) (h : H.Carrier)
    (keys queries : List Int32) (n : Int) : Prop where
  lookupVector : Accumulator.int.Ends (benchLookupVector .int (sort keys) queries) n
  lookupMap : Accumulator.int.Ends (benchLookupMap .int M m queries) n
  lookupUmap : Accumulator.int.Ends (benchLookupUmap .int H h queries) n
  iterVector : Accumulator.int.Ends (benchIterVector .int (sort keys)) n
  iterMap : Accumulator.int.Ends (benchIterMap .int M m) n

theorem filterMap_present {keys queries : List Int32} {find : Int32 → Option Int32}
    (known : ∀ val ∈ queries, val ∈ keys) (finds : ∀ val ∈ keys, find val = some val) :
    queries.filterMap find = queries := by
  calc queries.filterMap find
      = queries.filterMap some := List.filterMap_congr fun val member => finds val (known val member)
    _ = queries := List.filterMap_some

theorem lookup_below_iff {σ : Type} {acc : Accumulator σ}
    (downward : ∀ m n, 0 ≤ m → m ≤ n → acc.fits n → acc.fits m) {N : Int32} (nonneg : 0 ≤ N)
    {keys queries : List Int32} (perm : keys.Perm (iota N)) (reorders : queries.Perm keys)
    {find : Int32 → Option Int32} (finds : ∀ val ∈ keys, find val = some val) :
    acc.Ends (lookupLoop acc find queries) (sumBelow N) ↔ acc.fits (sumBelow N) := by
  have known : ∀ val ∈ queries, val ∈ keys := fun val member => reorders.mem_iff.mp member
  rw [lookupLoop_total, filterMap_present known finds]
  exact total_below_iff downward nonneg (reorders.trans perm)

theorem lowerBound_finds (keys : List Int32) : ∀ val ∈ keys, lowerBound (sort keys) val = some val := by
  intro val known
  rw [lowerBound_sort, if_pos known]

theorem reflects_finds {M : FiniteMap Int32 Int32} {m : M.Carrier} {keys : List Int32}
    (reflects : M.Reflects m keys) : ∀ val ∈ keys, M.find m val = some val := by
  intro val known
  rw [reflects val, if_pos known]

section Sums
variable {M H U : FiniteMap Int32 Int32} {m : M.Carrier} {h : H.Carrier} {u : U.Carrier} {N : Int32}
  {keys queries : List Int32}

theorem sumsExact_iff (nonneg : 0 ≤ N) (perm : keys.Perm (iota N)) (reorders : queries.Perm keys)
    (reflectsM : M.Reflects m keys) (reflectsH : H.Reflects h keys) :
    SumsExact m h keys queries (sumBelow N) ↔ N.toInt ≤ 65536 := by
  have distinct : keys.Nodup := perm.nodup_iff.mpr (iota_nodup N)
  have lookups : ∀ find : Int32 → Option Int32, (∀ val ∈ keys, find val = some val) →
      (Accumulator.int.Ends (lookupLoop .int find queries) (sumBelow N) ↔ N.toInt ≤ 65536) := by
    intro find finds
    rw [lookup_below_iff Accumulator.int_downward nonneg perm reorders finds]
    exact sumBelow_int_iff nonneg
  have totals : ∀ xs : List Int32, xs.Perm (iota N) →
      (Accumulator.int.Ends (Accumulator.int.total xs) (sumBelow N) ↔ N.toInt ≤ 65536) := by
    intro xs same
    rw [total_below_iff Accumulator.int_downward nonneg same]
    exact sumBelow_int_iff nonneg
  constructor
  · intro sums
    exact (lookups _ (lowerBound_finds keys)).mp sums.lookupVector
  · intro small
    exact
      { lookupVector := (lookups _ (lowerBound_finds keys)).mpr small
        lookupMap := (lookups _ (reflects_finds reflectsM)).mpr small
        lookupUmap := (lookups _ (reflects_finds reflectsH)).mpr small
        iterVector := (totals _ ((sort_perm keys).trans perm)).mpr small
        iterMap := (totals _ ((FiniteMap.values_perm reflectsM distinct).trans perm)).mpr small }

theorem uflat_exact (nonneg : 0 ≤ N) (perm : keys.Perm (iota N)) (reorders : queries.Perm keys)
    (reflectsU : U.Reflects u keys) :
    Accumulator.longLong.Ends (benchLookupUflat .longLong U u queries) (sumBelow N) ∧
    Accumulator.longLong.Ends (benchIterUflat .longLong U u) (sumBelow N) := by
  have distinct : keys.Nodup := perm.nodup_iff.mpr (iota_nodup N)
  have fits := sumBelow_longLong nonneg
  have values := (FiniteMap.values_perm reflectsU distinct).trans perm
  have lookups :=
    lookup_below_iff Accumulator.longLong_downward nonneg perm reorders (reflects_finds reflectsU)
  exact ⟨lookups.mpr fits, (total_below_iff Accumulator.longLong_downward nonneg values).mpr fits⟩

theorem generated_sums_iff (M H : FiniteMap Int32 Int32) (nonneg : 0 ≤ N)
    {shuffle reshuffle : List Int32 → List Int32} (permutes : ∀ xs, (shuffle xs).Perm xs)
    (repermutes : ∀ xs, (reshuffle xs).Perm xs) :
    SumsExact (M.assignAll (generateKeys shuffle N)) (H.assignAll (generateKeys shuffle N))
      (generateKeys shuffle N) (generateShuffled reshuffle (generateKeys shuffle N)) (sumBelow N) ↔
        N.toInt ≤ 65536 :=
  sumsExact_iff nonneg (permutes (iota N)) (repermutes (shuffle (iota N)))
    (M.assignAll_reflects _) (H.assignAll_reflects _)

/-- The number of keys that the benchmark uses is too large for its `int`s. -/
theorem benchmark_sums_overflow : ¬ SumsExact
    ((FiniteMap.associationList Int32 Int32).assignAll (generateKeys id 1000000))
    ((FiniteMap.associationList Int32 Int32).assignAll (generateKeys id 1000000))
    (generateKeys id 1000000) (generateShuffled id (generateKeys id 1000000)) (sumBelow 1000000) := by
  have same : ∀ xs : List Int32, (id xs).Perm xs := List.Perm.refl
  rw [generated_sums_iff _ _ (by decide) same same]
  decide

theorem accumulators_fit_iff (M H U : FiniteMap Int32 Int32) (nonneg : 0 ≤ N)
    {shuffle reshuffle : List Int32 → List Int32} (permutes : ∀ xs, (shuffle xs).Perm xs)
    (repermutes : ∀ xs, (reshuffle xs).Perm xs) :
    let keys := generateKeys shuffle N
    let queries := generateShuffled reshuffle keys
    (SumsExact (M.assignAll keys) (H.assignAll keys) keys queries (sumBelow N) ↔ N.toInt ≤ 65536) ∧
    Accumulator.longLong.Ends (benchLookupUflat .longLong U (U.emplaceAll keys) queries) (sumBelow N) ∧
    Accumulator.longLong.Ends (benchIterUflat .longLong U (U.emplaceAll keys)) (sumBelow N) :=
  ⟨generated_sums_iff M H nonneg permutes repermutes,
    uflat_exact nonneg (permutes (iota N)) (repermutes (shuffle (iota N))) (U.emplaceAll_reflects _)⟩

theorem accumulators_fit_largest :
    let keys := generateKeys List.reverse 65536
    let queries := generateShuffled id keys
    let m := (FiniteMap.associationList Int32 Int32).assignAll keys
    SumsExact m m keys queries (sumBelow 65536) ∧ sumBelow 65536 = 2147450880 := by
  intro keys queries m
  have same : ∀ xs : List Int32, (id xs).Perm xs := List.Perm.refl
  have sums := accumulators_fit_iff (FiniteMap.associationList Int32 Int32)
    (FiniteMap.associationList Int32 Int32) (FiniteMap.associationList Int32 Int32) (N := 65536) (by decide)
    List.reverse_perm same
  exact ⟨sums.1.mpr (by decide), by decide⟩

end Sums
end Syseng.StlInternals.ContainerBenchmark
