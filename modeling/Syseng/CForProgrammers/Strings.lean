import Syseng.Support.Memory
import Syseng.Support.Signed
import Syseng.Support.CString

/-! The string functions, walking a memory of bytes. A walk is bounded by the size of the
block that it reads and ends in the fault `diverged` past that bound; a `char` is its byte. -/

namespace Syseng.CForProgrammers.Strings
open Support

abbrev Bytes := Memory Nat UInt8
abbrev CharPtr := Ptr Nat

/-- The block that an allocation finds: its address, and what its bytes happen to be. -/
structure Malloc where
  addr : Nat
  junk : Nat → UInt8

def sizeofChar : UInt64 := 1

def malloc (mem : Bytes) (size : UInt64) : Option Malloc → Except Fault (Bytes × CharPtr)
  | none => .ok (mem, .null)
  | some m => mem.allocate m.addr ((List.range size.toNat).map m.junk)

/-- `while (*p != '\0') p++`. -/
def strlenLoop : Nat → Bytes → CharPtr → Except Fault (Bytes × CharPtr)
  | 0, _, _ => .error .diverged
  | bound + 1, mem, p => do
    let (mem, c) ← mem.load p
    if c ≠ 0 then strlenLoop bound mem (p.plus 1) else .ok (mem, p)

def myStrlen (mem : Bytes) (s : CharPtr) : Except Fault (Bytes × UInt64) := do
  let (mem, p) ← strlenLoop (mem.extent s + 1) mem s
  let n ← p.minus s
  .ok (mem, n.toUInt64)

/-- The character is read for the test, and again to be copied. -/
def strcpyLoop : Nat → Bytes → CharPtr → CharPtr → Except Fault (Bytes × CharPtr)
  | 0, _, _, _ => .error .diverged
  | bound + 1, mem, dst, src => do
    let (mem, c) ← mem.load src
    if c ≠ 0 then
      let (mem, c) ← mem.load src
      let mem ← mem.store dst c
      strcpyLoop bound mem (dst.plus 1) (src.plus 1)
    else .ok (mem, dst)

def myStrcpy (mem : Bytes) (dst src : CharPtr) : Except Fault (Bytes × CharPtr) := do
  let start := dst
  let (mem, dst) ← strcpyLoop (mem.extent src + 1) mem dst src
  let mem ← mem.store dst 0
  .ok (mem, start)

def myStrcat (mem : Bytes) (dst src : CharPtr) : Except Fault (Bytes × CharPtr) := do
  let (mem, n) ← myStrlen mem dst
  let l := Signed.ofSize n
  let loc := dst.plus l.toInt
  let (mem, _) ← myStrcpy mem loc src
  .ok (mem, dst)

def myStrdup (mem : Bytes) (s : CharPtr) (got : Option Malloc) : Except Fault (Bytes × CharPtr) := do
  let (mem, n) ← myStrlen mem s
  let len := Signed.ofSize n
  let room ← Signed.add len 1
  let (mem, dup) ← malloc mem (Signed.toSize room * sizeofChar) got
  let (mem, _) ← myStrcpy mem dup s
  .ok (mem, dup)

def strJoin (mem : Bytes) (a b : CharPtr) (got : Option Malloc) : Except Fault (Bytes × CharPtr) := do
  let (mem, m) ← myStrlen mem a
  let (mem, n) ← myStrlen mem b
  let len := Signed.ofSize (m + n + 1)
  let (mem, result) ← malloc mem (Signed.toSize len * sizeofChar) got
  let (mem, _) ← myStrcpy mem result a
  let (mem, m) ← myStrlen mem a
  let (mem, _) ← myStrcpy mem (result.plus m.toNat) b
  .ok (mem, result)

/-- The string `a` is at `p`, with its terminator. -/
def Holds (mem : Bytes) (p : CharPtr) (a : CString) : Prop := mem.Stores p a.stored

instance (mem : Bytes) (p : CharPtr) (a : CString) : Decidable (Holds mem p a) :=
  inferInstanceAs (Decidable (mem.Stores p a.stored))

theorem strlenLoop_ok (bound : Nat) {mem : Bytes} {p : CharPtr} {xs : List UInt8}
    (stores : mem.Stores p (xs ++ [0])) (noNul : 0 ∉ xs) (enough : xs.length < bound) :
    ∃ u, strlenLoop bound mem p = .ok (u, p.plus xs.length) ∧
      mem.Touches u (p.Covers (xs.length + 1)) fun _ => False := by
  induction xs generalizing bound mem p with
  | nil =>
    cases bound with
    | zero => cases enough
    | succ bound =>
      refine ⟨mem.noted p, by simp [strlenLoop, Memory.load_ok stores.1], ?_⟩
      apply (Memory.Touches.noted mem p).mono
      · rintro q rfl
        exact q.covers_self _
      · exact fun _ => id
  | cons x xs ih =>
    cases bound with
    | zero => cases enough
    | succ bound =>
      obtain ⟨first, rest⟩ := stores
      obtain ⟨nonzero, others⟩ := not_or.mp (mt List.mem_cons.mpr noNul)
      have here := Memory.Touches.noted mem p
      obtain ⟨u, walked, later⟩ :=
        ih bound (here.stores rest fun _ _ => id) others (Nat.lt_of_succ_lt_succ enough)
      refine ⟨u, ?_, ?_⟩
      · rw [Ptr.plus_plus, Int.add_comm] at walked
        simpa [strlenLoop, Memory.load_ok first, Ne.symm nonzero] using walked
      · apply (here.mono _ fun _ => id).trans (later.mono _ fun _ => id)
        · rintro q rfl
          exact q.covers_self _
        · exact fun q covers => covers.next

theorem Holds.room {mem : Bytes} {p : CharPtr} {a : CString} (holds : Holds mem p a) :
    mem.Room p (a.bytes.length + 1) := by
  have room := Memory.Stores.room holds
  rwa [CString.length_stored] at room

theorem Holds.char {mem : Bytes} {p : CharPtr} {a : CString} (holds : Holds mem p a) {i : Nat}
    (inside : i < a.bytes.length) : mem.cell (p.plus i) = some a.bytes[i] := by
  apply Memory.stores_iff.mp holds
  rw [CString.stored, List.getElem?_append_left inside, List.getElem?_eq_getElem inside]

theorem Holds.terminator {mem : Bytes} {p : CharPtr} {a : CString} (holds : Holds mem p a) :
    mem.cell (p.plus a.bytes.length) = some 0 := by
  apply Memory.stores_iff.mp holds
  simp [CString.stored]

theorem Holds.cell {mem : Bytes} {p : CharPtr} {a : CString} (holds : Holds mem p a) {i : Nat}
    (inside : i ≤ a.bytes.length) : mem.cell (p.plus i) = some (a.bytes.getD i 0) := by
  rcases Nat.lt_or_eq_of_le inside with before | rfl
  · rw [holds.char before, List.getD_eq_getElem?_getD, List.getElem?_eq_getElem before, Option.getD_some]
  · rw [holds.terminator, List.getD_eq_getElem?_getD, List.getElem?_eq_none (Nat.le_refl _), Option.getD_none]

theorem Holds.length_le {mem : Bytes} {p : CharPtr} {a b : CString} (one : Holds mem p a)
    (other : Holds mem p b) : a.bytes.length ≤ b.bytes.length := by
  by_contra longer
  have inside := Nat.lt_of_not_le longer
  have same := other.terminator
  rw [one.char inside, Option.some.injEq] at same
  exact a.noNul (same ▸ List.getElem_mem inside)

theorem Holds.unique {mem : Bytes} {p : CharPtr} {a b : CString} (one : Holds mem p a)
    (other : Holds mem p b) : a = b := by
  ext1
  apply List.ext_getElem (Nat.le_antisymm (one.length_le other) (other.length_le one))
  intro i insideA insideB
  have same := one.char insideA
  rw [other.char insideB, Option.some.injEq] at same
  exact same.symm

theorem Holds.same {mem u : Bytes} {p q : CharPtr} {a : CString} (here : Holds mem p a)
    (there : Holds u p a) (covers : p.Covers (a.bytes.length + 1) q) : u.cell q = mem.cell q := by
  rw [← CString.length_stored] at covers
  exact Memory.Stores.same here there covers

theorem myStrlen_ok {mem : Bytes} {s : CharPtr} {a : CString} (holds : Holds mem s a)
    (fits : a.bytes.length < 2 ^ 63) :
    ∃ u n, myStrlen mem s = .ok (u, n) ∧ n.toNat = a.bytes.length ∧
      mem.Touches u (s.Covers (a.bytes.length + 1)) fun _ => False := by
  have bound := holds.room.extent
  obtain ⟨u, walked, touches⟩ := strlenLoop_ok (mem.extent s + 1) holds a.noNul (by omega)
  obtain ⟨d, difference, length⟩ := s.minus_plus fits
  exact ⟨u, d.toUInt64, by simp [myStrlen, walked, difference], length, touches⟩

theorem myStrlen_far {mem : Bytes} {s : CharPtr} {a : CString} (holds : Holds mem s a)
    (far : ¬ a.bytes.length < 2 ^ 63) : myStrlen mem s = .error .outOfRange := by
  have bound := holds.room.extent
  obtain ⟨u, walked, -⟩ := strlenLoop_ok (mem.extent s + 1) holds a.noNul (by omega)
  simp [myStrlen, walked, s.minus_far far]

theorem strcpyLoop_stop {mem : Bytes} {src : CharPtr} (ends : mem.cell src = some 0) (bound : Nat)
    (dst : CharPtr) : strcpyLoop (bound + 1) mem dst src = .ok (mem.noted src, dst) := by
  simp [strcpyLoop, Memory.load_ok ends]

theorem strcpyLoop_round {mem : Bytes} {src : CharPtr} {x : UInt8} (first : mem.cell src = some x)
    (nonzero : x ≠ 0) (bound : Nat) (dst : CharPtr) :
    (mem.cell dst = none ∧
      ∃ fault, strcpyLoop (bound + 1) mem dst src = .error fault ∧ fault ≠ .diverged) ∨
    ((mem.cell dst).isSome ∧ ∃ w, strcpyLoop (bound + 1) mem dst src =
        strcpyLoop bound w (dst.plus 1) (src.plus 1) ∧
      w.cell dst = some x ∧ mem.Touches w (· = src) (· = dst)) := by
  have load := Memory.load_ok first
  have again : (mem.noted src).load src = .ok ((mem.noted src).noted src, x) := Memory.load_ok first
  cases there : ((mem.noted src).noted src).cell dst with
  | none =>
    obtain ⟨fault, refused, ended⟩ := Memory.store_none there x
    exact Or.inl ⟨there, fault, by simp [strcpyLoop, load, again, nonzero, refused], ended⟩
  | some y =>
    obtain ⟨w, stored, changed, live, reads, writes⟩ := Memory.store_ok x there
    have some_ := Option.isSome_of_eq_some there
    refine Or.inr ⟨some_, w, ?_, by rw [changed, Function.update_self], ?_⟩
    · simp [strcpyLoop, load, again, nonzero, stored]
    · have looked := (Memory.Touches.noted mem src).trans (Memory.Touches.noted (mem.noted src) src)
      exact looked.reading.trans ((Memory.Touches.stored some_ changed live reads writes).writing rfl)

/-- The loop goes through exactly when there is room for the characters. -/
theorem strcpyLoop_cases (bound : Nat) {mem : Bytes} {dst src : CharPtr} {xs : List UInt8}
    (stores : mem.Stores src (xs ++ [0])) (noNul : 0 ∉ xs) (enough : xs.length < bound)
    (apart : dst.Apart xs.length src (xs.length + 1)) :
    (mem.Room dst xs.length ∧ ∃ u, strcpyLoop bound mem dst src = .ok (u, dst.plus xs.length) ∧
      u.Stores dst xs ∧ mem.Touches u (src.Covers (xs.length + 1)) (dst.Covers xs.length)) ∨
    (¬ mem.Room dst xs.length ∧ ∃ fault, strcpyLoop bound mem dst src = .error fault) := by
  induction xs generalizing bound mem dst src with
  | nil =>
    cases bound with
    | zero => cases enough
    | succ bound =>
      refine Or.inl ⟨Memory.room_zero _ _, mem.noted src, ?_, trivial, ?_⟩
      · rw [strcpyLoop_stop stores.1]
        simp
      · apply (Memory.Touches.noted mem src).mono
        · rintro q rfl
          exact q.covers_self _
        · exact fun _ => False.elim
  | cons x xs ih =>
    cases bound with
    | zero => cases enough
    | succ bound =>
      obtain ⟨first, rest⟩ := stores
      obtain ⟨nonzero, others⟩ := not_or.mp (mt List.mem_cons.mpr noNul)
      rw [List.length_cons, Memory.room_succ]
      rcases strcpyLoop_round first (Ne.symm nonzero) bound dst with
        ⟨gone, fault, refused, -⟩ | ⟨there, w, looped, copied, touched⟩
      · refine Or.inr ⟨fun room => ?_, fault, refused⟩
        rw [gone] at room
        cases room.1
      · have spared : ∀ q, (src.plus 1).Covers (xs.length + 1) q → q ≠ dst := by
          rintro q covers rfl
          exact apart.not_covers covers.next (q.covers_self _)
        have next := ih bound (touched.stores rest fun q covers => spared q (by simpa using covers)) others
          (Nat.lt_of_succ_lt_succ enough) apart.next
        rw [looped]
        obtain ⟨room, u, walked, held, later⟩ | ⟨short, refused⟩ := next
        · refine Or.inl ⟨⟨there, (touched.room _ _).mp room⟩, u, ?_, ⟨?_, held⟩, ?_⟩
          · rw [walked, Ptr.plus_plus, Int.add_comm]
            rfl
          · rw [later.frame dst (dst.not_covers_next _), copied]
          · apply (touched.mono _ _).trans (later.mono _ _)
            · rintro q rfl
              exact q.covers_self _
            · rintro q rfl
              exact q.covers_self _
            · exact fun q covers => covers.next
            · exact fun q covers => covers.next
        · exact Or.inr ⟨fun room => short ((touched.room _ _).mpr room.2), refused⟩

theorem myStrcpy_cases {mem : Bytes} {dst src : CharPtr} {b : CString} (holds : Holds mem src b)
    (apart : dst.Apart (b.bytes.length + 1) src (b.bytes.length + 1)) :
    (mem.Room dst (b.bytes.length + 1) ∧ ∃ u, myStrcpy mem dst src = .ok (u, dst) ∧ Holds u dst b ∧
      mem.Touches u (src.Covers (b.bytes.length + 1)) (dst.Covers (b.bytes.length + 1))) ∨
    (¬ mem.Room dst (b.bytes.length + 1) ∧ ∃ fault, myStrcpy mem dst src = .error fault) := by
  have bound := holds.room.extent
  have inside := apart.shorter (Nat.le_succ b.bytes.length)
  have looped := strcpyLoop_cases (mem.extent src + 1) holds b.noNul (by omega) inside
  rw [Memory.room_concat]
  obtain ⟨room, u, copied, held, touched⟩ | ⟨short, fault, refused⟩ := looped
  · rw [← touched.shape]
    cases there : u.cell (dst.plus b.bytes.length) with
    | none =>
      obtain ⟨fault, refused, -⟩ := Memory.store_none there 0
      exact Or.inr ⟨fun all => Bool.false_ne_true all.2, fault, by simp [myStrcpy, copied, refused]⟩
    | some y =>
      obtain ⟨v, stored, changed, live, reads, writes⟩ := Memory.store_ok 0 there
      have last := Memory.Touches.stored (Option.isSome_of_eq_some there) changed live reads writes
      have chars : v.Stores dst b.bytes := last.stores held fun q covers same =>
        dst.not_covers_end _ (same ▸ covers)
      refine Or.inl ⟨⟨room, rfl⟩, v, by simp [myStrcpy, copied, stored], ?_, ?_⟩
      · exact Memory.stores_append.mpr ⟨chars, by rw [changed, Function.update_self], trivial⟩
      · apply (touched.mono (fun _ => id) _).trans (last.writing _)
        · exact fun q covers => covers.longer (Nat.le_succ _)
        · exact dst.covers_plus (Nat.lt_succ_self _)
  · exact Or.inr ⟨fun all => short all.1, fault, by simp [myStrcpy, refused]⟩

theorem strcpyLoop_first {bound : Nat} {mem w : Bytes} {dst src last : CharPtr}
    (looped : strcpyLoop bound mem dst src = .ok (w, last)) :
    (last = dst ∧ w.writes = mem.writes) ∨ ∃ ps, w.writes = ps ++ mem.writes ∧ dst ∈ ps := by
  induction bound generalizing mem dst src with
  | zero => cases looped
  | succ bound ih =>
    obtain ⟨⟨mem', c⟩, loaded, rest⟩ := bind_ok looped
    cases Memory.load_noted loaded
    by_cases nonzero : c ≠ 0
    · simp only [if_pos nonzero] at rest
      obtain ⟨⟨mem', c'⟩, again, rest⟩ := bind_ok rest
      cases Memory.load_noted again
      obtain ⟨v, stored, rest⟩ := bind_ok rest
      have written := Memory.store_writes stored
      change v.writes = dst :: mem.writes at written
      rcases ih rest with ⟨-, same⟩ | ⟨ps, more, -⟩
      · exact Or.inr ⟨[dst], by rw [same, written]; rfl, by simp⟩
      · exact Or.inr ⟨ps ++ [dst], by rw [more, written]; simp, by simp⟩
    · simp only [if_neg nonzero] at rest
      cases rest
      exact Or.inl ⟨rfl, rfl⟩

theorem myStrcpy_first {mem u : Bytes} {dst src d : CharPtr}
    (done : myStrcpy mem dst src = .ok (u, d)) : ∃ ps, u.writes = ps ++ mem.writes ∧ dst ∈ ps := by
  obtain ⟨⟨w, last⟩, looped, rest⟩ := bind_ok done
  obtain ⟨v, stored, rest⟩ := bind_ok rest
  cases rest
  have written := Memory.store_writes stored
  rcases strcpyLoop_first looped with ⟨rfl, same⟩ | ⟨ps, more, member⟩
  · exact ⟨[last], by rw [written, same]; rfl, by simp⟩
  · exact ⟨last :: ps, by rw [written, more]; rfl, List.mem_cons_of_mem _ member⟩

/-! No walk reaches its bound: before that it is past the end of the block. -/

theorem strlenLoop_ends {bound : Nat} {mem : Bytes} {p : CharPtr} (short : ¬ mem.Room p bound) :
    strlenLoop bound mem p ≠ .error .diverged := by
  induction bound generalizing mem p with
  | zero => exact absurd (Memory.room_zero mem p) short
  | succ bound ih =>
    cases here : mem.cell p with
    | none =>
      obtain ⟨fault, refused, ended⟩ := Memory.load_none here
      simpa [strlenLoop, refused] using ended
    | some c =>
      have load := Memory.load_ok here
      by_cases nonzero : c = 0
      · simp [strlenLoop, load, nonzero]
      · rw [Memory.room_succ, here] at short
        have further : ¬ (mem.noted p).Room (p.plus 1) bound := fun room => short ⟨rfl, room⟩
        have rest := ih further
        simpa [strlenLoop, load, nonzero] using rest

theorem strcpyLoop_ends {bound : Nat} {mem : Bytes} {dst src : CharPtr} (short : ¬ mem.Room src bound) :
    strcpyLoop bound mem dst src ≠ .error .diverged := by
  induction bound generalizing mem dst src with
  | zero => exact absurd (Memory.room_zero mem src) short
  | succ bound ih =>
    cases here : mem.cell src with
    | none =>
      obtain ⟨fault, refused, ended⟩ := Memory.load_none here
      simpa [strcpyLoop, refused] using ended
    | some c =>
      by_cases nonzero : c = 0
      · rw [strcpyLoop_stop (nonzero ▸ here)]
        simp
      · rcases strcpyLoop_round here nonzero bound dst with
          ⟨-, fault, refused, ended⟩ | ⟨-, w, looped, -, touched⟩
        · simpa [refused] using ended
        · rw [Memory.room_succ, here] at short
          rw [looped]
          exact ih fun room => short ⟨rfl, (touched.room _ _).mp room⟩

theorem past_extent (mem : Bytes) (p : CharPtr) : ¬ mem.Room p (mem.extent p + 1) :=
  fun room => absurd room.extent (Nat.not_succ_le_self _)

theorem myStrlen_ends (mem : Bytes) (s : CharPtr) : myStrlen mem s ≠ .error .diverged := by
  intro diverged
  cases walked : strlenLoop (mem.extent s + 1) mem s with
  | error fault =>
    rw [myStrlen, walked] at diverged
    cases diverged
    exact strlenLoop_ends (past_extent mem s) walked
  | ok result =>
    simp only [myStrlen, walked, ok_bind, Ptr.minus] at diverged
    split at diverged <;> cases diverged

theorem myStrcpy_ends (mem : Bytes) (dst src : CharPtr) : myStrcpy mem dst src ≠ .error .diverged := by
  intro diverged
  cases walked : strcpyLoop (mem.extent src + 1) mem dst src with
  | error fault =>
    rw [myStrcpy, walked] at diverged
    cases diverged
    exact strcpyLoop_ends (past_extent mem src) walked
  | ok result =>
    simp only [myStrcpy, walked, ok_bind] at diverged
    cases there : result.1.cell result.2 with
    | none =>
      obtain ⟨fault, refused, ended⟩ := Memory.store_none there 0
      rw [refused] at diverged
      cases diverged
      exact ended rfl
    | some y =>
      obtain ⟨u, stored, -⟩ := Memory.store_ok 0 there
      rw [stored] at diverged
      cases diverged

end Syseng.CForProgrammers.Strings
