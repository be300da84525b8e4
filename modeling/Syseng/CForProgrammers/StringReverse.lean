import Syseng.CForProgrammers.StringCompare
import Syseng.Support.Reversal

/-! `str_reverse` and `str_is_palindrome`, which both stop in the middle of the string. -/

namespace Syseng.CForProgrammers.Strings
open Support

def strReverseLoop : Nat → Bytes → CharPtr → UInt64 → UInt64 → Except Fault Bytes
  | 0, _, _, _, _ => .error .diverged
  | bound + 1, mem, s, len, i =>
    if i < len / 2 then do
      let (mem, tmp) ← mem.load (s.plus (len - 1 - i).toNat)
      let (mem, c) ← mem.load (s.plus i.toNat)
      let mem ← mem.store (s.plus (len - 1 - i).toNat) c
      let mem ← mem.store (s.plus i.toNat) tmp
      strReverseLoop bound mem s len (i + 1)
    else .ok mem

def strReverse (mem : Bytes) (s : CharPtr) : Except Fault Bytes := do
  let (mem, len) ← myStrlen mem s
  strReverseLoop ((len / 2).toNat + 1) mem s len 0

def strIsPalindromeLoop (plain : PlainChar) :
    Nat → Bytes → CharPtr → UInt64 → UInt64 → UInt64 → Except Fault (Bytes × Int32)
  | 0, _, _, _, _, _ => .error .diverged
  | bound + 1, mem, s, len, i, j =>
    if i < len / 2 then do
      let (mem, c) ← mem.load (s.plus i.toNat)
      let (mem, d) ← mem.load (s.plus (j - i).toNat)
      if plain.promote c ≠ plain.promote d then .ok (mem, 0)
      else strIsPalindromeLoop plain bound mem s len (i + 1) j
    else .ok (mem, 1)

def strIsPalindrome (plain : PlainChar) (mem : Bytes) (s : CharPtr) : Except Fault (Bytes × Int32) := do
  let (mem, len) ← myStrlen mem s
  strIsPalindromeLoop plain ((len / 2).toNat + 1) mem s len 0 (len - 1)

structure Halfway (mem : Bytes) (s : CharPtr) (front middle back : List UInt8) (len i : UInt64) : Prop where
  stores : mem.Stores s (front ++ (middle ++ back))
  left : front.length = i.toNat
  right : back.length = i.toNat
  total : len.toNat = i.toNat + middle.length + i.toNat

theorem Halfway.more {mem : Bytes} {s : CharPtr} {front middle back : List UInt8} {len i : UInt64}
    (halfway : Halfway mem s front middle back len i) : i < len / 2 ↔ 2 ≤ middle.length := by
  have total := halfway.total
  rw [UInt64.lt_iff_toNat_lt, UInt64.toNat_div]
  change i.toNat < len.toNat / 2 ↔ _
  omega

namespace Halfway
variable {mem : Bytes} {s : CharPtr} {front inner back : List UInt8} {x y : UInt8} {len i : UInt64}

theorem far (halfway : Halfway mem s front (x :: (inner ++ [y])) back len i) :
    (len - 1 - i).toNat = (front ++ x :: inner).length := by
  have total := halfway.total
  have left := halfway.left
  have bound := len.toNat_lt
  simp only [List.length_cons, List.length_append, List.length_nil] at total ⊢
  rw [UInt64.toNat_sub, UInt64.toNat_sub]
  change (2 ^ 64 - i.toNat + (2 ^ 64 - 1 + len.toNat) % 2 ^ 64) % 2 ^ 64 = _
  omega

theorem last (halfway : Halfway mem s front (x :: (inner ++ [y])) back len i) :
    mem.Stores s ((front ++ x :: inner) ++ y :: back) := by
  simpa using halfway.stores

theorem next {u : Bytes} {x' y' : UInt8} (halfway : Halfway mem s front (x :: (inner ++ [y])) back len i)
    (stores : u.Stores s (front ++ y' :: (inner ++ x' :: back))) :
    Halfway u s (front ++ [y']) inner (x' :: back) len (i + 1) := by
  have total := halfway.total
  have bound := len.toNat_lt
  have step : (i + 1).toNat = i.toNat + 1 := by
    simp only [List.length_cons, List.length_append, List.length_nil] at total
    rw [UInt64.toNat_add]
    change (i.toNat + 1) % 2 ^ 64 = _
    omega
  refine ⟨by simpa using stores, ?_, ?_, ?_⟩
  · rw [List.length_append, halfway.left, step]
    rfl
  · rw [List.length_cons, halfway.right, step]
  · simp only [List.length_cons, List.length_append, List.length_nil] at total
    omega

theorem inside (halfway : Halfway mem s front (x :: (inner ++ [y])) back len i) :
    s.Covers len.toNat (s.plus i.toNat) ∧ s.Covers len.toNat (s.plus (len - 1 - i).toNat) := by
  have total := halfway.total
  have left := halfway.left
  rw [halfway.far]
  simp only [List.length_cons, List.length_append, List.length_nil] at total
  refine ⟨s.covers_plus (by omega), s.covers_plus ?_⟩
  simp only [List.length_append, List.length_cons]
  omega

end Halfway

theorem strReverseLoop_round (bound : Nat) {mem : Bytes} {s : CharPtr} {front inner back : List UInt8}
    {x y : UInt8} {len i : UInt64} (halfway : Halfway mem s front (x :: (inner ++ [y])) back len i) :
    ∃ u, strReverseLoop (bound + 1) mem s len i = strReverseLoop bound u s len (i + 1) ∧
      Halfway u s (front ++ [y]) inner (x :: back) len (i + 1) ∧
      mem.Touches u (s.Covers len.toNat) (s.Covers len.toNat) := by
  have more : i < len / 2 := halfway.more.mpr (by simp)
  obtain ⟨coversI, coversFar⟩ := halfway.inside
  have looked := ((Memory.Touches.refl (W := fun _ => False) mem).look coversFar).look coversI
  have loadY := Memory.load_ok (halfway.far ▸ halfway.last.here)
  have loadX := Memory.load_after (s.plus (len - 1 - i).toNat) (halfway.left ▸ halfway.stores.here)
  generalize (mem.noted (s.plus (len - 1 - i).toNat)).noted (s.plus i.toNat) = v at *
  obtain ⟨w, storedX, holdsX, wroteFar⟩ := (looked.stores halfway.last fun _ _ => id).replace x
  have again : w.Stores s (front ++ x :: (inner ++ x :: back)) := by simpa using holdsX
  obtain ⟨u, storedY, holdsY, wroteNear⟩ := again.replace y
  rw [← halfway.far] at storedX wroteFar
  rw [halfway.left] at storedY wroteNear
  refine ⟨u, by simp [strReverseLoop, more, loadY, loadX, storedX, storedY], halfway.next holdsY, ?_⟩
  apply (looked.reading.trans _).trans
  · exact wroteNear.writing coversI
  · exact wroteFar.writing coversFar

theorem strReverseLoop_ok (bound : Nat) {mem : Bytes} {s : CharPtr} {front middle back : List UInt8}
    {len i : UInt64} (halfway : Halfway mem s front middle back len i) (enough : middle.length / 2 < bound) :
    ∃ u, strReverseLoop bound mem s len i = .ok u ∧ u.Stores s (front ++ (middle.reverse ++ back)) ∧
      mem.Touches u (s.Covers len.toNat) (s.Covers len.toNat) := by
  induction bound generalizing mem front middle back i with
  | zero => cases enough
  | succ bound ih =>
    rcases Reversal.short_or_ends middle with ⟨short, own⟩ | ⟨x, inner, y, rfl⟩
    · have done : ¬ i < len / 2 := fun more => absurd (halfway.more.mp more) (Nat.not_le.mpr short)
      refine ⟨mem, by rw [strReverseLoop, if_neg done], ?_, Memory.Touches.refl mem⟩
      rw [own]
      exact halfway.stores
    · obtain ⟨u, round, after, first⟩ := strReverseLoop_round bound halfway
      obtain ⟨v, finished, stores, rest⟩ := ih after (by simp at enough; omega)
      refine ⟨v, by rw [round, finished], ?_, first.trans rest⟩
      simpa using stores

/-- The text is reversed in its place. The terminator is read, and nothing but characters written. -/
structure Reversed (mem u : Bytes) (s : CharPtr) (a : CString) : Prop where
  holds : Holds u s a.reverse
  touches : mem.Touches u (s.Covers (a.bytes.length + 1)) (s.Covers a.bytes.length)

theorem halfway_start {mem : Bytes} {s : CharPtr} {a : CString} {n : UInt64} (holds : Holds mem s a)
    (length : n.toNat = a.bytes.length) : Halfway mem s [] a.bytes [] n 0 where
  stores := by simpa using (Memory.stores_append.mp holds).1
  left := rfl
  right := rfl
  total := by
    rw [length]
    exact (Nat.zero_add _).symm

theorem half_enough {k : Nat} {n : UInt64} (length : n.toNat = k) : k / 2 < (n / 2).toNat + 1 := by
  rw [UInt64.toNat_div, length]
  exact Nat.lt_succ_self _

theorem strReverse_ok {mem : Bytes} {s : CharPtr} {a : CString} (holds : Holds mem s a)
    (fits : a.bytes.length < 2 ^ 63) : ∃ u, strReverse mem s = .ok u ∧ Reversed mem u s a := by
  obtain ⟨w, n, measured, length, looked⟩ := myStrlen_ok holds fits
  have held : Holds w s a := looked.stores holds fun _ _ => id
  obtain ⟨u, reversed, stores, touches⟩ := strReverseLoop_ok _ (halfway_start held length) (half_enough length)
  rw [length] at touches
  refine ⟨u, by rw [strReverse, measured]; exact reversed, ?_, ?_⟩
  · have chars : u.Stores s a.bytes.reverse := by simpa using stores
    have ends : u.Stores (s.plus a.bytes.length) [0] :=
      touches.stores (Memory.stores_append.mp held).2 fun q later covers => covers.not_later later
    apply Memory.stores_append.mpr
    rw [CString.reverse, List.length_reverse]
    exact ⟨chars, ends⟩
  · apply looked.reading.trans
    exact touches.mono (fun _ covers => covers.longer (Nat.le_succ _)) fun _ => id

theorem strIsPalindromeLoop_ok (plain : PlainChar) (bound : Nat) {mem : Bytes} {s : CharPtr}
    {front middle back : List UInt8} {len i : UInt64} (halfway : Halfway mem s front middle back len i)
    (enough : middle.length / 2 < bound) :
    ∃ u, strIsPalindromeLoop plain bound mem s len i (len - 1) =
        .ok (u, if middle.reverse = middle then 1 else 0) ∧
      mem.Touches u (s.Covers len.toNat) fun _ => False := by
  induction bound generalizing mem front middle back i with
  | zero => cases enough
  | succ bound ih =>
    rcases Reversal.short_or_ends middle with ⟨short, own⟩ | ⟨x, inner, y, rfl⟩
    · have done : ¬ i < len / 2 := fun more => absurd (halfway.more.mp more) (Nat.not_le.mpr short)
      refine ⟨mem, ?_, Memory.Touches.refl mem⟩
      rw [strIsPalindromeLoop, if_neg done, if_pos own]
    · have more : i < len / 2 := halfway.more.mpr (by simp)
      obtain ⟨coversI, coversFar⟩ := halfway.inside
      have looked := ((Memory.Touches.refl (W := fun _ => False) mem).look coversI).look coversFar
      have loadX := Memory.load_ok (halfway.left ▸ halfway.stores.here)
      have loadY := Memory.load_after (s.plus i.toNat) (halfway.far ▸ halfway.last.here)
      generalize (mem.noted (s.plus i.toNat)).noted (s.plus (len - 1 - i).toNat) = v at *
      by_cases same : x = y
      · have stores : v.Stores s (front ++ x :: (inner ++ y :: back)) := by
          have held := looked.stores halfway.stores fun _ _ => id
          simpa using held
        obtain ⟨u, result, touches⟩ := ih (halfway.next stores) (by simp at enough; omega)
        refine ⟨u, ?_, looked.trans touches⟩
        simp only [Reversal.reverse_ends, same, true_and]
        rw [← result]
        simp [strIsPalindromeLoop, more, loadX, loadY, same]
      · refine ⟨v, ?_, looked⟩
        rw [if_neg fun own => same (Reversal.reverse_ends.mp own).1]
        simp [strIsPalindromeLoop, more, loadX, loadY, PlainChar.promote_inj, same]

/-- The memory of a process. A `ptrdiff_t` counts the bytes of any object in it. -/
structure ProcessMemory where
  bytes : Bytes
  limit : ∀ k xs, bytes.blocks.lookup k = some xs → xs.length < 2 ^ 63

theorem ProcessMemory.fits {mem : ProcessMemory} {s : CharPtr} {a : CString}
    (holds : Holds mem.bytes s a) : a.bytes.length < 2 ^ 63 := by
  have inside := holds.room.extent
  have small : mem.bytes.extent s < 2 ^ 63 := by
    unfold Memory.extent
    cases found : s.block.bind mem.bytes.blocks.lookup with
    | none => exact Nat.two_pow_pos 63
    | some xs =>
      obtain ⟨k, -, held⟩ := Option.bind_eq_some_iff.mp found
      exact mem.limit k xs held
  omega

/-- The value of `str_is_palindrome`, and the characters that it looks at after `my_strlen`. -/
def Palindrome (plain : PlainChar) (mem : Bytes) (s : CharPtr) (a : CString) (r : Int32) : Prop :=
  ∃ w n u, myStrlen mem s = .ok (w, n) ∧ n.toNat = a.bytes.length ∧
    strIsPalindrome plain mem s = .ok (u, r) ∧ w.Touches u (s.Covers a.bytes.length) fun _ => False

theorem strIsPalindrome_ok (plain : PlainChar) {mem : Bytes} {s : CharPtr} {a : CString}
    (holds : Holds mem s a) (fits : a.bytes.length < 2 ^ 63) :
    Palindrome plain mem s a (if a.bytes.reverse = a.bytes then 1 else 0) := by
  obtain ⟨w, n, measured, length, looked⟩ := myStrlen_ok holds fits
  have held : Holds w s a := looked.stores holds fun _ _ => id
  obtain ⟨u, result, touches⟩ := strIsPalindromeLoop_ok plain _ (halfway_start held length) (half_enough length)
  rw [length] at touches
  exact ⟨w, n, u, measured, length, by rw [strIsPalindrome, measured]; exact result, touches⟩

theorem palindrome_is_reversal (plain : PlainChar) {mem : ProcessMemory} {s t : CharPtr} {a : CString}
    (holds : Holds mem.bytes s a) (copy : Holds mem.bytes t a)
    (apart : s.Apart (a.bytes.length + 1) t (a.bytes.length + 1)) :
    (∃ u v, strReverse mem.bytes s = .ok u ∧ Reversed mem.bytes u s a ∧
      strReverse u s = .ok v ∧ v.cell = mem.bytes.cell) ∧
    ∃ u c r, strReverse mem.bytes t = .ok u ∧ Compares plain u s a t a.reverse c ∧
      Palindrome plain mem.bytes s a r ∧ (r = 0 ∨ r = 1) ∧ (r = 1 ↔ c = 0) := by
  have fits := mem.fits holds
  constructor
  · obtain ⟨u, done, reversed⟩ := strReverse_ok holds fits
    obtain ⟨v, again, restored⟩ := strReverse_ok reversed.holds (by rwa [CString.length_reverse])
    have touches := restored.touches
    rw [CString.length_reverse] at touches
    refine ⟨u, v, done, reversed, again, ?_⟩
    ext q : 1
    by_cases covers : s.Covers a.bytes.length q
    · have back : Holds v s a := a.reverse_reverse ▸ restored.holds
      exact holds.same back (covers.longer (Nat.le_succ _))
    · rw [touches.frame q covers, reversed.touches.frame q covers]
  · obtain ⟨u, done, reversed⟩ := strReverse_ok copy fits
    have kept : Holds u s a := reversed.touches.stores holds fun q here there =>
      apart.not_covers (there.longer (Nat.le_succ _)) (by simpa using here)
    obtain ⟨c, compares, value⟩ := exists_compares plain kept reversed.holds
    have zero : c = 0 ↔ a.bytes.reverse = a.bytes := by
      rw [← Int32.toInt_inj, value]
      exact (CString.difference_eq_zero_iff a.noNul a.reverse.noNul).trans eq_comm
    refine ⟨u, c, _, done, compares, strIsPalindrome_ok plain holds fits, ?_, ?_⟩
    · split
      · exact Or.inr rfl
      · exact Or.inl rfl
    · rw [zero]
      split
      · next own => exact iff_of_true rfl own
      · next differs => exact iff_of_false (by decide) differs

theorem palindrome_is_reversal_aab : ∃ (mem : ProcessMemory) (s t : CharPtr) (u v : Bytes) (c r : Int32),
    strReverse mem.bytes s = .ok u ∧ Holds u s ⟨[98, 97, 97], by decide⟩ ∧
    strReverse mem.bytes t = .ok v ∧ Compares .signed v s ⟨[97, 97, 98], by decide⟩ t ⟨[98, 97, 97], by decide⟩ c ∧
    Palindrome .signed mem.bytes s ⟨[97, 97, 98], by decide⟩ r ∧ (r = 1 ↔ c = 0) := by
  obtain ⟨mem, stores, only⟩ := Memory.exists_block 10 ([97, 97, 98, 0, 97, 97, 98, 0] : List UInt8)
  have parts : mem.Stores ⟨some 10, 0⟩ ([97, 97, 98, 0] ++ [97, 97, 98, 0]) := stores
  obtain ⟨first, second⟩ := Memory.stores_append.mp parts
  have small : ∀ k xs, mem.blocks.lookup k = some xs → xs.length < 2 ^ 63 := by
    intro k xs held
    rw [(only k xs held).2]
    decide
  obtain ⟨⟨u, _, reversed, after, -⟩, v, c, r, done, compares, palindrome, -, agrees⟩ :=
    @palindrome_is_reversal .signed ⟨mem, small⟩ _ _ ⟨[97, 97, 98], by decide⟩ first second (by decide)
  exact ⟨⟨mem, small⟩, _, _, u, v, c, r, reversed, after.holds, done, compares, palindrome, agrees⟩

end Syseng.CForProgrammers.Strings
