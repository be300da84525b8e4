import Syseng.Support.Memory
import Syseng.Support.Reversal
import Syseng.Support.Signed

/-! The functions on an array of `int`s, called with its first element and a number of elements. -/

namespace Syseng.CForProgrammers.Arrays
open Support

abbrev Ints := Memory Nat Int32

abbrev IntPtr := Ptr Nat

/-- The sum wraps around. -/
def arraySumLoop : Nat → Ints → IntPtr → Int32 → Int32 → Int32 → Except Fault (Ints × Int32)
  | 0, _, _, _, _, _ => .error .diverged
  | bound + 1, mem, arr, n, sum, i =>
    if i < n then do
      let (mem, x) ← mem.load (arr.plus i.toInt)
      let next ← Signed.add i 1
      arraySumLoop bound mem arr n (sum + x) next
    else .ok (mem, sum)

def arraySum (mem : Ints) (arr : IntPtr) (n : Int32) : Except Fault (Ints × Int32) :=
  arraySumLoop (n.toInt.toNat + 1) mem arr n 0 0

def arrayMaxIndexLoop : Nat → Ints → IntPtr → Int32 → Int32 → Int32 → Int32 → Except Fault (Ints × Int32)
  | 0, _, _, _, _, _, _ => .error .diverged
  | bound + 1, mem, arr, n, largest, largestIdx, i =>
    if i < n then do
      let (mem, x) ← mem.load (arr.plus i.toInt)
      if x > largest then do
        let (mem, x) ← mem.load (arr.plus i.toInt)
        let next ← Signed.add i 1
        arrayMaxIndexLoop bound mem arr n x i next
      else do
        let next ← Signed.add i 1
        arrayMaxIndexLoop bound mem arr n largest largestIdx next
    else .ok (mem, largestIdx)

def arrayMaxIndex (mem : Ints) (arr : IntPtr) (n : Int32) : Except Fault (Ints × Int32) :=
  if n ≤ 0 then .ok (mem, -1)
  else do
    let (mem, largest) ← mem.load (arr.plus 0)
    arrayMaxIndexLoop (n.toInt.toNat + 1) mem arr n largest 0 1

def arrayReverseLoop : Nat → Ints → IntPtr → Int32 → Int32 → Except Fault Ints
  | 0, _, _, _, _ => .error .diverged
  | bound + 1, mem, arr, n, i =>
    if i < n / 2 then do
      let (mem, temp) ← mem.load (arr.plus i.toInt)
      let last ← Signed.sub n 1
      let mirrorIdx ← Signed.sub last i
      let (mem, x) ← mem.load (arr.plus mirrorIdx.toInt)
      let mem ← mem.store (arr.plus i.toInt) x
      let mem ← mem.store (arr.plus mirrorIdx.toInt) temp
      let next ← Signed.add i 1
      arrayReverseLoop bound mem arr n next
    else .ok mem

def arrayReverse (mem : Ints) (arr : IntPtr) (n : Int32) : Except Fault Ints :=
  arrayReverseLoop (n.toInt.toNat + 1) mem arr n 0

def arrayContainsLoop : Nat → Ints → IntPtr → Int32 → Int32 → Bool → Int32 → Except Fault (Ints × Bool)
  | 0, _, _, _, _, _, _ => .error .diverged
  | bound + 1, mem, arr, n, val, found, i =>
    if !found && i < n then do
      let (mem, x) ← mem.load (arr.plus i.toInt)
      let next ← Signed.add i 1
      arrayContainsLoop bound mem arr n val (if x == val then true else found) next
    else .ok (mem, found)

def arrayContains (mem : Ints) (arr : IntPtr) (n val : Int32) : Except Fault (Ints × Int32) :=
  if n ≤ 0 then .ok (mem, 0)
  else do
    let (mem, found) ← arrayContainsLoop (n.toInt.toNat + 1) mem arr n val false 0
    return (mem, if found then 1 else 0)

/-- An array in the middle of a loop over its first `n` elements: `front` is done and `back` is left. -/
structure Scanned (mem : Ints) (arr : IntPtr) (front back : List Int32) (n i : Int32) : Prop where
  stores : mem.Stores arr (front ++ back)
  index : i.toInt = front.length
  total : n.toInt.toNat = front.length + back.length

namespace Scanned
variable {mem : Ints} {arr : IntPtr} {front back : List Int32} {x n i : Int32}

theorem start {xs : List Int32} (stores : mem.Stores arr xs) (length : n.toInt.toNat = xs.length) :
    Scanned mem arr [] xs n 0 where
  stores := stores
  index := rfl
  total := by rw [length, List.length_nil, Nat.zero_add]

theorem more (scanned : Scanned mem arr front back n i) : i < n ↔ 0 < back.length := by
  have index := scanned.index
  have total := scanned.total
  rw [Int32.lt_iff_toInt_lt]
  omega

theorem done (scanned : Scanned mem arr front [] n i) : ¬ i < n :=
  fun less => absurd (scanned.more.mp less) (Nat.lt_irrefl 0)

theorem load (scanned : Scanned mem arr front (x :: back) n i) :
    mem.load (arr.plus i.toInt) = .ok (mem.noted (arr.plus i.toInt), x) := by
  rw [scanned.index]
  exact Memory.load_ok scanned.stores.here

theorem inside (scanned : Scanned mem arr front (x :: back) n i) :
    arr.Covers n.toInt.toNat (arr.plus i.toInt) := by
  have total := scanned.total
  rw [List.length_cons] at total
  rw [scanned.index]
  exact arr.covers_plus (by omega)

theorem look (scanned : Scanned mem arr front (x :: back) n i) :
    mem.Touches (mem.noted (arr.plus i.toInt)) (arr.Covers n.toInt.toNat) fun _ => False :=
  (Memory.Touches.refl mem).look scanned.inside

theorem next (scanned : Scanned mem arr front (x :: back) n i) {u : Ints}
    (touches : mem.Touches u (arr.Covers n.toInt.toNat) fun _ => False) :
    ∃ next, Signed.add i 1 = .ok next ∧ Scanned u arr (front ++ [x]) back n next := by
  obtain ⟨next, made, value⟩ := Signed.add_one_below (scanned.more.mpr (Nat.succ_pos _))
  have held : u.Stores arr (front ++ x :: back) := touches.stores scanned.stores fun _ _ => id
  have index := scanned.index
  have total := scanned.total
  rw [List.length_cons] at total
  refine ⟨next, made, by simpa using held, ?_, ?_⟩
  · rw [value, index, List.length_append, List.length_singleton]
    rfl
  · rw [total, List.length_append, List.length_singleton]
    omega

end Scanned

section Queries
variable {mem : Ints} {arr : IntPtr} {front back : List Int32} {n i : Int32}

theorem arraySumLoop_ok (bound : Nat) (sum : Int32) (scanned : Scanned mem arr front back n i)
    (enough : back.length < bound) :
    ∃ u, arraySumLoop bound mem arr n sum i = .ok (u, back.foldl (· + ·) sum) ∧
      mem.Touches u (arr.Covers n.toInt.toNat) fun _ => False := by
  induction back generalizing bound mem front sum i with
  | nil =>
    obtain ⟨bound, rfl⟩ := Nat.exists_eq_add_of_lt enough
    exact ⟨mem, if_neg scanned.done, Memory.Touches.refl mem⟩
  | cons x back ih =>
    obtain ⟨bound, rfl⟩ := Nat.exists_eq_succ_of_ne_zero (Nat.ne_zero_of_lt enough)
    obtain ⟨next, made, later⟩ := scanned.next scanned.look
    obtain ⟨u, summed, rest⟩ := ih bound (sum + x) later (Nat.lt_of_succ_lt_succ enough)
    refine ⟨u, ?_, scanned.look.trans rest⟩
    rw [arraySumLoop, if_pos (scanned.more.mpr (Nat.succ_pos _)), scanned.load, ok_bind]
    simp only [made, ok_bind, summed, List.foldl_cons]

theorem arraySum_ok {xs : List Int32} (stores : mem.Stores arr xs) (length : n.toInt.toNat = xs.length) :
    ∃ u, arraySum mem arr n = .ok (u, xs.foldl (· + ·) 0) ∧
      mem.Touches u (arr.Covers n.toInt.toNat) fun _ => False :=
  arraySumLoop_ok _ 0 (Scanned.start stores length) (length ▸ Nat.lt_succ_self _)

theorem arrayContainsLoop_ok (bound : Nat) (val : Int32) (scanned : Scanned mem arr front back n i)
    (enough : back.length < bound) :
    ∃ u, arrayContainsLoop bound mem arr n val false i = .ok (u, decide (val ∈ back)) ∧
      mem.Touches u (arr.Covers n.toInt.toNat) fun _ => False := by
  induction back generalizing bound mem front i with
  | nil =>
    obtain ⟨bound, rfl⟩ := Nat.exists_eq_add_of_lt enough
    refine ⟨mem, if_neg ?_, Memory.Touches.refl mem⟩
    simp [scanned.done]
  | cons x back ih =>
    obtain ⟨bound, rfl⟩ := Nat.exists_eq_succ_of_ne_zero (Nat.ne_zero_of_lt enough)
    obtain ⟨next, made, later⟩ := scanned.next scanned.look
    have more : (!false && decide (i < n)) = true := by simp [scanned.more]
    rw [arrayContainsLoop, if_pos more, scanned.load, ok_bind]
    simp only [made, ok_bind]
    by_cases hit : x = val
    · obtain ⟨bound, rfl⟩ := Nat.exists_eq_succ_of_ne_zero (Nat.ne_zero_of_lt (Nat.lt_of_succ_lt_succ enough))
      refine ⟨_, ?_, scanned.look⟩
      simp [arrayContainsLoop, hit]
    · obtain ⟨u, searched, rest⟩ := ih bound later (Nat.lt_of_succ_lt_succ enough)
      refine ⟨u, ?_, scanned.look.trans rest⟩
      simp [hit, Ne.symm hit, searched]

theorem length_pos_iff {xs : List Int32} (length : n.toInt.toNat = xs.length) : n ≤ 0 ↔ xs = [] := by
  rw [Int32.le_iff_toInt_le, ← List.length_eq_zero_iff, ← length]
  change n.toInt ≤ 0 ↔ _
  omega

theorem arrayContains_ok {xs : List Int32} (stores : mem.Stores arr xs) (length : n.toInt.toNat = xs.length)
    (val : Int32) :
    ∃ u, arrayContains mem arr n val = .ok (u, if val ∈ xs then 1 else 0) ∧
      mem.Touches u (arr.Covers n.toInt.toNat) fun _ => False := by
  unfold arrayContains
  by_cases empty : n ≤ 0
  · rw [if_pos empty, (length_pos_iff length).mp empty]
    exact ⟨mem, rfl, Memory.Touches.refl mem⟩
  · obtain ⟨u, searched, touches⟩ :=
      arrayContainsLoop_ok (n.toInt.toNat + 1) val (Scanned.start stores length) (by omega)
    refine ⟨u, ?_, touches⟩
    rw [if_neg empty, searched, ok_bind]
    simp only [decide_eq_true_eq]
    rfl

theorem arrayMaxIndexLoop_ok (bound : Nat) {k : Nat} {largest largestIdx : Int32}
    (scanned : Scanned mem arr front back n i) (index : largestIdx.toInt = k)
    (leftmost : Reversal.LeftmostMax Int32.toInt front k largest) (enough : back.length < bound) :
    ∃ u r k' x, arrayMaxIndexLoop bound mem arr n largest largestIdx i = .ok (u, r) ∧ r.toInt = (k' : Nat) ∧
      Reversal.LeftmostMax Int32.toInt (front ++ back) k' x ∧
      mem.Touches u (arr.Covers n.toInt.toNat) fun _ => False := by
  induction back generalizing bound mem front i k largest largestIdx with
  | nil =>
    obtain ⟨bound, rfl⟩ := Nat.exists_eq_add_of_lt enough
    rw [List.append_nil]
    exact ⟨mem, largestIdx, k, largest, if_neg scanned.done, index, leftmost, Memory.Touches.refl mem⟩
  | cons x back ih =>
    obtain ⟨bound, rfl⟩ := Nat.exists_eq_succ_of_ne_zero (Nat.ne_zero_of_lt enough)
    have shorter : back.length < bound := Nat.lt_of_succ_lt_succ enough
    have rest : front ++ x :: back = (front ++ [x]) ++ back := by simp
    rw [arrayMaxIndexLoop, if_pos (scanned.more.mpr (Nat.succ_pos _)), scanned.load, ok_bind, rest]
    by_cases above : x > largest
    · have again := Memory.load_after (arr.plus i.toInt) (scanned.index ▸ scanned.stores.here)
      have looked := scanned.look.look scanned.inside
      obtain ⟨next, made, later⟩ := scanned.next looked
      have greater := leftmost.replace (Int32.lt_iff_toInt_lt.mp above)
      obtain ⟨u, r, k', y, found, value, maximum, touches⟩ := ih bound later scanned.index greater shorter
      refine ⟨u, r, k', y, ?_, value, maximum, looked.trans touches⟩
      simp only [if_pos above, again, made, ok_bind, found]
    · obtain ⟨next, made, later⟩ := scanned.next scanned.look
      have kept := leftmost.keep (Int32.le_iff_toInt_le.mp (Int32.not_lt.mp above))
      obtain ⟨u, r, k', y, found, value, maximum, touches⟩ := ih bound later index kept shorter
      refine ⟨u, r, k', y, ?_, value, maximum, scanned.look.trans touches⟩
      simp only [if_neg above, made, ok_bind, found]

def MaxIndex (xs : List Int32) (r : Int32) : Prop :=
  (xs = [] ∧ r = -1) ∨ ∃ k x, r.toInt = (k : Nat) ∧ Reversal.LeftmostMax Int32.toInt xs k x

theorem arrayMaxIndex_ok {xs : List Int32} (stores : mem.Stores arr xs) (length : n.toInt.toNat = xs.length) :
    ∃ u r, arrayMaxIndex mem arr n = .ok (u, r) ∧ MaxIndex xs r ∧
      mem.Touches u (arr.Covers n.toInt.toNat) fun _ => False := by
  unfold arrayMaxIndex
  by_cases empty : n ≤ 0
  · rw [if_pos empty]
    exact ⟨mem, -1, rfl, Or.inl ⟨(length_pos_iff length).mp empty, rfl⟩, Memory.Touches.refl mem⟩
  · obtain ⟨x, rest, rfl⟩ := List.exists_cons_of_ne_nil fun none_ => empty ((length_pos_iff length).mpr none_)
    have start := Scanned.start stores length
    obtain ⟨one, made, after⟩ := start.next start.look
    have first : one = 1 := by
      change Except.ok 1 = Except.ok one at made
      exact (Except.ok.inj made).symm
    rw [first] at after
    have zero : (0 : Int32).toInt = (0 : Nat) := rfl
    have enough : rest.length < n.toInt.toNat + 1 := by
      rw [length, List.length_cons]
      omega
    obtain ⟨u, r, k, y, found, value, maximum, touches⟩ :=
      arrayMaxIndexLoop_ok _ after zero (Reversal.leftmostMax_singleton x) enough
    refine ⟨u, r, ?_, Or.inr ⟨k, y, value, maximum⟩, start.look.trans touches⟩
    have load : mem.load (arr.plus 0) = .ok (mem.noted (arr.plus 0), x) := start.load
    rw [if_neg empty, load, ok_bind]
    exact found

end Queries

structure Halfway (mem : Ints) (arr : IntPtr) (front middle back : List Int32) (n i : Int32) : Prop where
  stores : mem.Stores arr (front ++ (middle ++ back))
  left : i.toInt = front.length
  right : back.length = front.length
  total : n.toInt.toNat = front.length + middle.length + back.length

theorem Halfway.more {mem : Ints} {arr : IntPtr} {front middle back : List Int32} {n i : Int32}
    (halfway : Halfway mem arr front middle back n i) : i < n / 2 ↔ 2 ≤ middle.length := by
  have left := halfway.left
  have right := halfway.right
  have total := halfway.total
  rw [Int32.lt_iff_toInt_lt, Int32.toInt_div_of_ne_right n 2 (by decide)]
  change i.toInt < n.toInt.tdiv 2 ↔ _
  rcases Int.le_total 0 n.toInt with nonneg | negative
  · rw [Int.tdiv_eq_ediv_of_nonneg nonneg]
    omega
  · have turned := Int.neg_tdiv (-n.toInt) 2
    have half : 0 ≤ (-n.toInt).tdiv 2 := Int.tdiv_nonneg (by omega) (by decide)
    rw [Int.neg_neg] at turned
    omega

namespace Halfway
variable {mem : Ints} {arr : IntPtr} {front inner back : List Int32} {x y n i : Int32}

theorem mirror (halfway : Halfway mem arr front (x :: (inner ++ [y])) back n i) :
    ∃ last mirrorIdx, Signed.sub n 1 = .ok last ∧ Signed.sub last i = .ok mirrorIdx ∧
      mirrorIdx.toInt = ((front ++ x :: inner).length : Nat) := by
  have left := halfway.left
  have right := halfway.right
  have total := halfway.total
  have bound := n.toInt_lt
  simp only [List.length_cons, List.length_append, List.length_nil] at total ⊢
  have inside : Signed.InRange (n.toInt - (1 : Int32).toInt) := by
    change -2147483648 ≤ n.toInt - 1 ∧ n.toInt - 1 ≤ 2147483647
    omega
  obtain ⟨last, made, value⟩ := Signed.check_ok inside
  change last.toInt = n.toInt - 1 at value
  have within : Signed.InRange (last.toInt - i.toInt) := by
    unfold Signed.InRange
    omega
  obtain ⟨mirrorIdx, found, position⟩ := Signed.check_ok within
  exact ⟨last, mirrorIdx, made, found, by omega⟩

theorem last (halfway : Halfway mem arr front (x :: (inner ++ [y])) back n i) :
    mem.Stores arr ((front ++ x :: inner) ++ y :: back) := by
  simpa using halfway.stores

theorem inside (halfway : Halfway mem arr front (x :: (inner ++ [y])) back n i) :
    arr.Covers n.toInt.toNat (arr.plus front.length) ∧
      arr.Covers n.toInt.toNat (arr.plus (front ++ x :: inner).length) := by
  have total := halfway.total
  simp only [List.length_cons, List.length_append, List.length_nil] at total
  refine ⟨arr.covers_plus (by omega), arr.covers_plus ?_⟩
  simp only [List.length_append, List.length_cons]
  omega

theorem next {u : Ints} (halfway : Halfway mem arr front (x :: (inner ++ [y])) back n i)
    (stores : u.Stores arr (front ++ y :: (inner ++ x :: back))) :
    ∃ next, Signed.add i 1 = .ok next ∧ Halfway u arr (front ++ [y]) inner (x :: back) n next := by
  have left := halfway.left
  have right := halfway.right
  have total := halfway.total
  simp only [List.length_cons, List.length_append, List.length_nil] at total
  have below : i < n := Int32.lt_iff_toInt_lt.mpr (by omega)
  obtain ⟨next, made, value⟩ := Signed.add_one_below below
  refine ⟨next, made, by simpa using stores, ?_, ?_, ?_⟩
  · rw [List.length_append, List.length_singleton]
    omega
  · rw [List.length_append, List.length_singleton, List.length_cons, right]
  · simp only [List.length_cons, List.length_append, List.length_nil]
    omega

end Halfway

theorem arrayReverseLoop_round (bound : Nat) {mem : Ints} {arr : IntPtr} {front inner back : List Int32}
    {x y n i : Int32} (halfway : Halfway mem arr front (x :: (inner ++ [y])) back n i) :
    ∃ u next, arrayReverseLoop (bound + 1) mem arr n i = arrayReverseLoop bound u arr n next ∧
      Halfway u arr (front ++ [y]) inner (x :: back) n next ∧
      mem.Touches u (arr.Covers n.toInt.toNat) (arr.Covers n.toInt.toNat) := by
  have more : i < n / 2 := halfway.more.mpr (by simp)
  obtain ⟨last, mirrorIdx, lastMade, mirrorMade, position⟩ := halfway.mirror
  obtain ⟨coversNear, coversFar⟩ := halfway.inside
  have looked := ((Memory.Touches.refl (W := fun _ => False) mem).look coversNear).look coversFar
  have loadX := Memory.load_ok halfway.stores.here
  have loadY := Memory.load_after (arr.plus front.length) halfway.last.here
  generalize (mem.noted (arr.plus front.length)).noted (arr.plus (front ++ x :: inner).length) = v at *
  obtain ⟨w, storedY, holdsY, wroteNear⟩ := (looked.stores halfway.stores fun _ _ => id).replace y
  have again : w.Stores arr ((front ++ y :: inner) ++ y :: back) := by simpa using holdsY
  obtain ⟨u, storedX, holdsX, wroteFar⟩ := again.replace x
  have sameLength : (front ++ y :: inner).length = (front ++ x :: inner).length := by simp
  rw [sameLength] at storedX wroteFar
  have swapped : u.Stores arr (front ++ y :: (inner ++ x :: back)) := by simpa using holdsX
  obtain ⟨next, made, after⟩ := halfway.next swapped
  refine ⟨u, next, ?_, after, ?_⟩
  · rw [arrayReverseLoop, if_pos more, halfway.left, loadX, ok_bind]
    simp only [lastMade, mirrorMade, ok_bind, position, loadY, storedY, storedX, made]
  · apply (looked.reading.trans _).trans
    · exact wroteFar.writing coversFar
    · exact wroteNear.writing coversNear

theorem arrayReverseLoop_ok (bound : Nat) {mem : Ints} {arr : IntPtr} {front middle back : List Int32}
    {n i : Int32} (halfway : Halfway mem arr front middle back n i) (enough : middle.length < bound) :
    ∃ u, arrayReverseLoop bound mem arr n i = .ok u ∧ u.Stores arr (front ++ (middle.reverse ++ back)) ∧
      mem.Touches u (arr.Covers n.toInt.toNat) (arr.Covers n.toInt.toNat) := by
  induction bound generalizing mem front middle back i with
  | zero => cases enough
  | succ bound ih =>
    rcases Reversal.short_or_ends middle with ⟨short, own⟩ | ⟨x, inner, y, rfl⟩
    · have done : ¬ i < n / 2 := fun more => absurd (halfway.more.mp more) (Nat.not_le.mpr short)
      refine ⟨mem, by rw [arrayReverseLoop, if_neg done], ?_, Memory.Touches.refl mem⟩
      rw [own]
      exact halfway.stores
    · obtain ⟨u, next, round, after, first⟩ := arrayReverseLoop_round bound halfway
      obtain ⟨v, finished, stores, rest⟩ := ih after (by simp at enough; omega)
      refine ⟨v, by rw [round, finished], ?_, first.trans rest⟩
      simpa using stores

theorem arrayReverse_ok {mem : Ints} {arr : IntPtr} {xs : List Int32} {n : Int32}
    (stores : mem.Stores arr xs) (length : n.toInt.toNat = xs.length) :
    ∃ u, arrayReverse mem arr n = .ok u ∧ u.Stores arr xs.reverse ∧
      mem.Touches u (arr.Covers n.toInt.toNat) (arr.Covers n.toInt.toNat) := by
  have start : Halfway mem arr [] xs [] n 0 :=
    { stores := by simpa using stores
      left := rfl
      right := rfl
      total := by simpa using length }
  obtain ⟨u, reversed, held, touches⟩ := arrayReverseLoop_ok (n.toInt.toNat + 1) start (by omega)
  exact ⟨u, reversed, by simpa using held, touches⟩

/-- What `array_reverse` is for: the elements are exchanged, and nothing else is touched. -/
structure Exchanged (mem u : Ints) (arr : IntPtr) (n : Int32) : Prop where
  mirrored : ∀ i : Nat, i < n.toInt → u.cell (arr.plus i) = mem.cell (arr.plus (n.toInt - 1 - i))
  touches : mem.Touches u (arr.Covers n.toInt.toNat) (arr.Covers n.toInt.toNat)

theorem exchanged_of_reverse {mem u : Ints} {arr : IntPtr} {xs : List Int32} {n : Int32}
    (stores : mem.Stores arr xs) (length : n.toInt.toNat = xs.length) (reversed : u.Stores arr xs.reverse)
    (touches : mem.Touches u (arr.Covers n.toInt.toNat) (arr.Covers n.toInt.toNat)) :
    Exchanged mem u arr n := by
  refine ⟨fun i below => ?_, touches⟩
  have inside : i < xs.length := by omega
  have element : xs.reverse[i]? = some xs[xs.length - 1 - i] := by
    rw [List.getElem?_reverse inside]
    exact List.getElem?_eq_getElem (by omega)
  have position : n.toInt - 1 - i = (xs.length - 1 - i : Nat) := by omega
  rw [Memory.stores_iff.mp reversed i _ element, position]
  exact (Memory.stores_iff.mp stores _ _ (List.getElem?_eq_getElem (by omega))).symm

theorem arrayReverse_twice {mem u : Ints} {arr : IntPtr} {xs : List Int32} {n : Int32}
    (stores : mem.Stores arr xs) (length : n.toInt.toNat = xs.length) (reversed : u.Stores arr xs.reverse)
    (touches : mem.Touches u (arr.Covers n.toInt.toNat) (arr.Covers n.toInt.toNat)) :
    ∃ w, arrayReverse u arr n = .ok w ∧ w.cell = mem.cell := by
  obtain ⟨w, done, restored, again⟩ := arrayReverse_ok reversed (by rw [length, List.length_reverse])
  rw [List.reverse_reverse] at restored
  refine ⟨w, done, ?_⟩
  funext q
  by_cases covers : arr.Covers n.toInt.toNat q
  · exact stores.same restored (length ▸ covers)
  · rw [again.frame q covers, touches.frame q covers]

def SameAnswer (query : Ints → Except Fault (Ints × Int32)) (mem u : Ints) (r : Int32) : Prop :=
  ∃ m m', query mem = .ok (m, r) ∧ query u = .ok (m', r)

theorem sum_reverse (xs : List Int32) (s : Int32) :
    xs.reverse.foldl (· + ·) s = xs.foldl (· + ·) s := by
  have commutes : RightCommutative fun x y : Int32 => x + y := by
    refine ⟨fun x y z => ?_⟩
    rw [Int32.add_assoc, Int32.add_comm y z, ← Int32.add_assoc]
  exact (List.reverse_perm xs).foldl_eq s

theorem maxIndex_mirrored {xs : List Int32} {n r : Int32} (length : n.toInt.toNat = xs.length)
    (maximum : MaxIndex xs.reverse r) :
    (n ≤ 0 ∧ r = -1) ∨
      ∃ j x, Reversal.RightmostMax Int32.toInt xs j x ∧ r.toInt = n.toInt - 1 - (j : Nat) := by
  rcases maximum with ⟨empty, nothing⟩ | ⟨k, x, value, leftmost⟩
  · exact Or.inl ⟨(length_pos_iff length).mpr (List.reverse_eq_nil_iff.mp empty), nothing⟩
  · obtain ⟨j, rightmost, sizes⟩ := leftmost.of_reverse
    exact Or.inr ⟨j, x, rightmost, by omega⟩

theorem reversal_preserves_queries {mem : Ints} {arr : IntPtr} {xs : List Int32} {n : Int32}
    (stores : mem.Stores arr xs) (fits : n.toInt ≤ xs.length) (val : Int32) :
    ∃ u, arrayReverse mem arr n = .ok u ∧ Exchanged mem u arr n ∧
      (∃ w, arrayReverse u arr n = .ok w ∧ w.cell = mem.cell) ∧
      SameAnswer (arrayContains · arr n val) mem u (if val ∈ xs.take n.toInt.toNat then 1 else 0) ∧
      SameAnswer (arraySum · arr n) mem u ((xs.take n.toInt.toNat).foldl (· + ·) 0) ∧
      ∃ m m' r r', arrayMaxIndex mem arr n = .ok (m, r) ∧ arrayMaxIndex u arr n = .ok (m', r') ∧
        MaxIndex (xs.take n.toInt.toNat) r ∧
        ((n ≤ 0 ∧ r' = -1) ∨ ∃ j x, Reversal.RightmostMax Int32.toInt (xs.take n.toInt.toNat) j x ∧
          r'.toInt = n.toInt - 1 - (j : Nat)) := by
  have length : n.toInt.toNat = (xs.take n.toInt.toNat).length := by
    rw [List.length_take]
    omega
  rw [← List.take_append_drop n.toInt.toNat xs] at stores
  have before := (Memory.stores_append.mp stores).1
  generalize xs.take n.toInt.toNat = ys at *
  obtain ⟨u, reversed, after, touches⟩ := arrayReverse_ok before length
  have turned : n.toInt.toNat = ys.reverse.length := by rw [length, List.length_reverse]
  obtain ⟨m, found, -⟩ := arrayContains_ok before length val
  obtain ⟨m', found', -⟩ := arrayContains_ok after turned val
  obtain ⟨w, summed, -⟩ := arraySum_ok before length
  obtain ⟨w', summed', -⟩ := arraySum_ok after turned
  obtain ⟨v, r, largest, maximum, -⟩ := arrayMaxIndex_ok before length
  obtain ⟨v', r', largest', maximum', -⟩ := arrayMaxIndex_ok after turned
  simp only [List.mem_reverse] at found'
  rw [sum_reverse] at summed'
  exact ⟨u, reversed, exchanged_of_reverse before length after touches,
    arrayReverse_twice before length after touches, ⟨m, m', found, found'⟩, ⟨w, w', summed, summed'⟩,
    v, v', r, r', largest, largest', maximum, maxIndex_mirrored length maximum'⟩

theorem reversal_preserves_queries_three : ∃ mem u : Ints, ∃ arr m r,
    arrayReverse mem arr 3 = .ok u ∧ u.cell (arr.plus 0) = some 7 ∧ u.cell (arr.plus 1) = some (-2) ∧
    SameAnswer (arrayContains · arr 3 5) mem u 0 ∧ SameAnswer (arraySum · arr 3) mem u 12 ∧
    arrayMaxIndex mem arr 3 = .ok (m, r) ∧ MaxIndex [7, -2, 7] r := by
  obtain ⟨mem, stores, -⟩ := Memory.exists_stores 10 ([7, -2, 7, 5] : List Int32)
  obtain ⟨u, reversed, exchanged, -, contains, sums, m, -, r, -, largest, -, maximum, -⟩ :=
    reversal_preserves_queries (n := 3) stores (by decide) 5
  have first := exchanged.mirrored 0 (by decide)
  have second := exchanged.mirrored 1 (by decide)
  exact ⟨mem, u, _, m, r, reversed, first.trans stores.2.2.1, second.trans stores.2.1, contains, sums,
    largest, maximum⟩

end Syseng.CForProgrammers.Arrays
