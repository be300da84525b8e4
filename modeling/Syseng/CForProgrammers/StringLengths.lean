import Syseng.CForProgrammers.Strings

/-! The lengths for which the functions that allocate or append are right. A length goes
through an `int` on its way to `malloc` or into a pointer; the loops go by the strings. -/

namespace Syseng.CForProgrammers.Strings
open Support

def Malloc.pointer (m : Malloc) : CharPtr := { block := some m.addr, offset := 0 }

abbrev Looked (mem u : Bytes) : Prop := mem.Touches u (fun _ => True) fun _ => False

structure Filled (mem u : Bytes) (m : Malloc) (size n : Nat) : Prop where
  wrote : Memory.Added mem.writes u.writes (m.pointer.Covers n)
  frame : ∀ p, p.block ≠ some m.addr → u.cell p = mem.cell p
  others : ∀ k, k ≠ m.addr → (u.blocks.Live k ↔ mem.blocks.Live k)
  room : ∀ i k : Nat, u.Room (m.pointer.plus i) (k + 1) ↔ i + (k + 1) ≤ size

theorem malloc_filled {mem w : Bytes} {m : Malloc} (looked : Looked mem w)
    (vacant : mem.blocks.lookup m.addr = none) (size : UInt64) (n : Nat) :
    ∃ u, malloc w size (some m) = .ok (u, m.pointer) ∧ Filled mem u m size.toNat n := by
  obtain ⟨u, made, other, cells, live, -, writes⟩ :=
    Memory.allocate_ok ((List.range size.toNat).map m.junk) (looked.vacant vacant)
  refine ⟨u, made, ?_, ?_, fun k elsewhere => (live k elsewhere).trans (looked.live k), ?_⟩
  · rw [writes]
    exact looked.wrote.mono fun _ => False.elim
  · intro p elsewhere
    rw [other p elsewhere, looked.frame p id]
  · intro i k
    have room := Memory.room_allocated cells i k
    rw [List.length_map, List.length_range] at room
    rwa [Malloc.pointer, Ptr.plus, Int.zero_add]

theorem Filled.touch {mem u v : Bytes} {m : Malloc} {size n : Nat} {R W : CharPtr → Prop}
    (filled : Filled mem u m size n) (touches : u.Touches v R W)
    (within : ∀ p, W p → m.pointer.Covers n p) : Filled mem v m size n where
  wrote := filled.wrote.trans (touches.wrote.mono within)
  frame p elsewhere := by
    have spared : ¬ W p := fun written => elsewhere (within p written).1
    rw [touches.frame p spared, filled.frame p elsewhere]
  others k elsewhere := (touches.live k).trans (filled.others k elsewhere)
  room i k := (touches.room _ _).trans (filled.room i k)

theorem Looked.holds {mem u : Bytes} {s : CharPtr} {a : CString} (looked : Looked mem u)
    (holds : Holds mem s a) : Holds u s a :=
  looked.stores holds fun _ _ => id

theorem Looked.refl (mem : Bytes) : Looked mem mem := Memory.Touches.refl mem

theorem Looked.myStrlen {mem u : Bytes} {s : CharPtr} {a : CString} (looked : Looked mem u)
    (holds : Holds mem s a) (fits : a.bytes.length < 2 ^ 63) :
    ∃ v n, myStrlen u s = .ok (v, n) ∧ n.toNat = a.bytes.length ∧ Looked mem v := by
  obtain ⟨v, n, measured, length, touches⟩ := myStrlen_ok (looked.holds holds) fits
  exact ⟨v, n, measured, length, looked.trans (touches.mono (fun _ _ => trivial) fun _ => id)⟩

theorem Holds.elsewhere {mem : Bytes} {s : CharPtr} {a : CString} {k : Nat} (holds : Holds mem s a)
    (vacant : mem.blocks.lookup k = none) : s.block ≠ some k :=
  Memory.cell_vacant vacant (Memory.room_succ.mp holds.room).1

theorem Filled.holds {mem u : Bytes} {m : Malloc} {size n : Nat} {s : CharPtr} {a : CString}
    (filled : Filled mem u m size n) (holds : Holds mem s a) (elsewhere : s.block ≠ some m.addr) :
    Holds u s a :=
  Memory.Stores.frame holds fun q covers => filled.frame q (covers.1 ▸ elsewhere)

theorem Filled.myStrcpy {mem u : Bytes} {m : Malloc} {size n i : Nat} {s : CharPtr} {b : CString}
    (filled : Filled mem u m size n) (holds : Holds mem s b) (elsewhere : s.block ≠ some m.addr)
    (inside : i + (b.bytes.length + 1) ≤ n) :
    (i + (b.bytes.length + 1) ≤ size ∧
      ∃ v, myStrcpy u (m.pointer.plus i) s = .ok (v, m.pointer.plus i) ∧
        Holds v (m.pointer.plus i) b ∧ Filled mem v m size n ∧
        ∀ q, ¬ (m.pointer.plus i).Covers (b.bytes.length + 1) q → v.cell q = u.cell q) ∨
    (¬ i + (b.bytes.length + 1) ≤ size ∧
      ∃ fault, myStrcpy u (m.pointer.plus i) s = .error fault) := by
  rw [← filled.room]
  have apart : (m.pointer.plus i).Apart (b.bytes.length + 1) s (b.bytes.length + 1) :=
    Or.inl (Ne.symm elsewhere)
  obtain ⟨room, v, copied, held, touches⟩ | refused := myStrcpy_cases (filled.holds holds elsewhere) apart
  · have within := filled.touch touches fun p covers => covers.mono inside
    exact Or.inl ⟨room, v, copied, held, within, touches.frame⟩
  · exact Or.inr refused

/-- The new block holds the text and had room for it; nothing outside it has changed, and only
the bytes of the text and its terminator were written. -/
structure Delivered (mem u : Bytes) (m : Malloc) (text : CString) : Prop where
  holds : Holds u m.pointer text
  request : text.bytes.length + 1 ≤ u.extent m.pointer
  wrote : Memory.Added mem.writes u.writes (m.pointer.Covers (text.bytes.length + 1))
  frame : ∀ p, p.block ≠ some m.addr → u.cell p = mem.cell p

def Delivers (mem : Bytes) (m : Malloc) (text : CString) (result : Except Fault (Bytes × CharPtr)) :
    Prop :=
  ∃ u, result = .ok (u, m.pointer) ∧ Delivered mem u m text

structure Placed (mem u : Bytes) (m : Malloc) (text : CString) : Prop extends Delivered mem u m text where
  others : ∀ k, k ≠ m.addr → (u.blocks.Live k ↔ mem.blocks.Live k)

theorem Filled.placed {mem u : Bytes} {m : Malloc} {text : CString} {size : Nat}
    (filled : Filled mem u m size (text.bytes.length + 1)) (holds : Holds u m.pointer text) :
    Placed mem u m text where
  holds := holds
  request := holds.room.extent
  wrote := filled.wrote
  frame := filled.frame
  others := filled.others

theorem Placed.kept {mem u : Bytes} {m : Malloc} {text a : CString} {s : CharPtr}
    (placed : Placed mem u m text) (holds : Holds mem s a) (vacant : mem.blocks.lookup m.addr = none) :
    Holds u s a :=
  Memory.Stores.frame holds fun q covers => placed.frame q (covers.1 ▸ holds.elsewhere vacant)

theorem Placed.vacant {mem u : Bytes} {m : Malloc} {text : CString} {k : Nat}
    (placed : Placed mem u m text) (vacant : mem.blocks.lookup k = none) (other : k ≠ m.addr) :
    u.blocks.lookup k = none := by
  have live := placed.others k other
  simpa [Table.Live, vacant] using live

/-- A call that delivers under a condition, and faults without it. -/
theorem delivers_iff {mem : Bytes} {m : Malloc} {text : CString} {condition : Prop}
    {result : Except Fault (Bytes × CharPtr)}
    (cases : (condition ∧ ∃ u, result = .ok (u, m.pointer) ∧ Placed mem u m text) ∨
      (¬ condition ∧ ∃ fault, result = .error fault)) :
    Delivers mem m text result ↔ condition := by
  obtain ⟨holds, u, done, placed⟩ | ⟨fails, fault, refused⟩ := cases
  · exact iff_of_true ⟨u, done, placed.toDelivered⟩ holds
  · apply iff_of_false _ fails
    rintro ⟨u, done, -⟩
    cases refused.symm.trans done

/-- The lengths that survive `int len = my_strlen(s)` and `len + 1`: short ones, and those whose
`int` is negative, for which far too much is asked. -/
def DupCounts (n : Nat) : Prop :=
  n < 2 ^ 63 ∧ (n < 2 ^ 31 - 1 ∨ 2 ^ 31 ≤ n % 2 ^ 32 ∧ n % 2 ^ 32 ≠ 2 ^ 32 - 1)

instance (n : Nat) : Decidable (DupCounts n) := inferInstanceAs (Decidable (_ ∧ _))

theorem dup_request {n : UInt64} (far : n.toNat < 2 ^ 63) :
    (∃ room, Signed.add (Signed.ofSize n) 1 = .ok room ∧
      (n.toNat + 1 ≤ (Signed.toSize room * sizeofChar).toNat ↔ DupCounts n.toNat)) ∨
    (Signed.add (Signed.ofSize n) 1 = .error .outOfRange ∧ ¬ DupCounts n.toNat) := by
  have narrowed := Signed.toInt_ofSize n
  have one : (1 : Int32).toInt = 1 := rfl
  by_cases inside : Signed.InRange ((Signed.ofSize n).toInt + 1)
  · obtain ⟨room, made, same⟩ := Signed.check_ok inside
    have widened := Signed.toNat_toSize room
    refine Or.inl ⟨room, made, ?_⟩
    rw [show Signed.toSize room * sizeofChar = Signed.toSize room from UInt64.mul_one _]
    unfold DupCounts
    unfold Signed.InRange at inside
    rw [same] at widened
    split at narrowed <;> omega
  · refine Or.inr ⟨if_neg inside, ?_⟩
    unfold DupCounts
    unfold Signed.InRange at inside
    split at narrowed <;> omega

theorem myStrdup_cases {mem : Bytes} {s : CharPtr} {a : CString} {m : Malloc}
    (holds : Holds mem s a) (vacant : mem.blocks.lookup m.addr = none) :
    (DupCounts a.bytes.length ∧
      ∃ u, myStrdup mem s (some m) = .ok (u, m.pointer) ∧ Placed mem u m a) ∨
    (¬ DupCounts a.bytes.length ∧ ∃ fault, myStrdup mem s (some m) = .error fault) := by
  by_cases far : a.bytes.length < 2 ^ 63
  · obtain ⟨w, n, measured, length, looked⟩ := (Looked.refl mem).myStrlen holds far
    rw [← length] at far ⊢
    obtain ⟨room, sum, counts⟩ | ⟨refused, short⟩ := dup_request far
    · rw [← counts, length]
      obtain ⟨u, made, filled⟩ := malloc_filled looked vacant (Signed.toSize room * sizeofChar)
        (a.bytes.length + 1)
      have copy := filled.myStrcpy (i := 0) holds (holds.elsewhere vacant) (by omega)
      simp only [Int.natCast_zero, Ptr.plus_zero, Nat.zero_add] at copy
      obtain ⟨fits, v, copied, held, after, -⟩ | ⟨short, fault, refused⟩ := copy
      · exact Or.inl ⟨fits, v, by simp [myStrdup, measured, sum, made, copied], after.placed held⟩
      · exact Or.inr ⟨short, fault, by simp [myStrdup, measured, sum, made, refused]⟩
    · exact Or.inr ⟨short, .outOfRange, by simp [myStrdup, measured, refused]⟩
  · exact Or.inr ⟨fun counts => far counts.1, .outOfRange, by simp [myStrdup, myStrlen_far holds far]⟩

/-- The same for `int len = my_strlen(a) + my_strlen(b) + 1`. -/
def JoinCounts (la lb : Nat) : Prop :=
  la < 2 ^ 63 ∧ lb < 2 ^ 63 ∧ (la + lb + 1 < 2 ^ 31 ∨ 2 ^ 31 ≤ (la + lb + 1) % 2 ^ 32)

instance (la lb : Nat) : Decidable (JoinCounts la lb) := inferInstanceAs (Decidable (_ ∧ _))

theorem join_request {la lb : UInt64} (farA : la.toNat < 2 ^ 63) (farB : lb.toNat < 2 ^ 63) :
    la.toNat + lb.toNat + 1 ≤ (Signed.toSize (Signed.ofSize (la + lb + 1)) * sizeofChar).toNat ↔
      JoinCounts la.toNat lb.toNat := by
  have total : (la + lb + 1).toNat = la.toNat + lb.toNat + 1 := by
    rw [UInt64.toNat_add, UInt64.toNat_add, show (1 : UInt64).toNat = 1 from rfl]
    omega
  have narrowed := Signed.toInt_ofSize (la + lb + 1)
  have widened := Signed.toNat_toSize (Signed.ofSize (la + lb + 1))
  rw [show ∀ x : UInt64, x * sizeofChar = x from UInt64.mul_one]
  rw [total] at narrowed
  unfold JoinCounts
  split at narrowed <;> omega

theorem holds_append {mem : Bytes} {p : CharPtr} {a b : CString} :
    Holds mem p (a.append b) ↔
      mem.Stores p a.bytes ∧ Holds mem (p.plus a.bytes.length) b := by
  unfold Holds CString.stored CString.append
  rw [List.append_assoc, Memory.stores_append]

theorem Filled.append {mem u : Bytes} {m : Malloc} {size : Nat} {t : CharPtr} {a b : CString}
    (filled : Filled mem u m size ((a.append b).bytes.length + 1)) (held : Holds u m.pointer a)
    (holds : Holds mem t b) (elsewhere : t.block ≠ some m.addr) :
    ((a.append b).bytes.length + 1 ≤ size ∧
      ∃ v, Strings.myStrcpy u (m.pointer.plus a.bytes.length) t = .ok (v, m.pointer.plus a.bytes.length) ∧
        Placed mem v m (a.append b)) ∨
    (¬ (a.append b).bytes.length + 1 ≤ size ∧
      ∃ fault, Strings.myStrcpy u (m.pointer.plus a.bytes.length) t = .error fault) := by
  have total : a.bytes.length + (b.bytes.length + 1) = (a.append b).bytes.length + 1 := by
    rw [CString.length_append, Nat.add_assoc]
  have copy := filled.myStrcpy holds elsewhere (Nat.le_of_eq total)
  rw [total] at copy
  obtain ⟨fits, v, copied, heldB, after, same⟩ | refused := copy
  · have front : u.Stores m.pointer a.bytes := (Memory.stores_append.mp held).1
    have kept : v.Stores m.pointer a.bytes := front.frame fun q covers => same q covers.not_later
    exact Or.inl ⟨fits, v, copied, after.placed (holds_append.mpr ⟨kept, heldB⟩)⟩
  · exact Or.inr refused

theorem strJoin_cases {mem : Bytes} {s t : CharPtr} {a b : CString} {m : Malloc}
    (holdsA : Holds mem s a) (holdsB : Holds mem t b) (vacant : mem.blocks.lookup m.addr = none) :
    (JoinCounts a.bytes.length b.bytes.length ∧
      ∃ u, strJoin mem s t (some m) = .ok (u, m.pointer) ∧ Placed mem u m (a.append b)) ∨
    (¬ JoinCounts a.bytes.length b.bytes.length ∧
      ∃ fault, strJoin mem s t (some m) = .error fault) := by
  by_cases farA : a.bytes.length < 2 ^ 63
  · obtain ⟨w, la, measuredA, lengthA, looked⟩ := (Looked.refl mem).myStrlen holdsA farA
    by_cases farB : b.bytes.length < 2 ^ 63
    · obtain ⟨w', lb, measuredB, lengthB, looked'⟩ := looked.myStrlen holdsB farB
      have counts := join_request (lengthA ▸ farA) (lengthB ▸ farB)
      rw [lengthA, lengthB, ← CString.length_append] at counts
      rw [← counts]
      obtain ⟨u, made, filled⟩ := malloc_filled looked' vacant
        (Signed.toSize (Signed.ofSize (la + lb + 1)) * sizeofChar) ((a.append b).bytes.length + 1)
      have longer : a.bytes.length + 1 ≤ (a.append b).bytes.length + 1 := by
        rw [CString.length_append]
        omega
      have first := filled.myStrcpy (i := 0) holdsA (holdsA.elsewhere vacant) (by omega)
      simp only [Int.natCast_zero, Ptr.plus_zero, Nat.zero_add] at first
      obtain ⟨-, v, copied, held, after, -⟩ | ⟨short, fault, refused⟩ := first
      · -- `my_strlen(a)` again, now that `a` is also in the new block
        obtain ⟨x, n, again, length, touches⟩ :=
          myStrlen_ok (after.holds holdsA (holdsA.elsewhere vacant)) farA
        have second := (after.touch touches fun _ => False.elim).append (touches.stores held fun _ _ => id)
          holdsB (holdsB.elsewhere vacant)
        rw [← length] at second
        obtain ⟨fits, y, appended, placed⟩ | ⟨short, fault, refused⟩ := second
        · exact Or.inl ⟨fits, y,
            by simp [strJoin, measuredA, measuredB, made, copied, again, appended], placed⟩
        · exact Or.inr ⟨short, fault,
            by simp [strJoin, measuredA, measuredB, made, copied, again, refused]⟩
      · exact Or.inr ⟨fun fits => short (by omega), fault,
          by simp [strJoin, measuredA, measuredB, made, refused]⟩
    · exact Or.inr ⟨fun counts => farB counts.2.1, .outOfRange,
        by simp [strJoin, measuredA, myStrlen_far (looked.holds holdsB) farB]⟩
  · exact Or.inr ⟨fun counts => farA counts.1, .outOfRange, by simp [strJoin, myStrlen_far holdsA farA]⟩

theorem strJoin_ok {mem : Bytes} {s t : CharPtr} {a b : CString} {m : Malloc}
    (holdsA : Holds mem s a) (holdsB : Holds mem t b) (vacant : mem.blocks.lookup m.addr = none)
    (short : a.bytes.length + b.bytes.length < 2 ^ 31 - 1) :
    ∃ u, strJoin mem s t (some m) = .ok (u, m.pointer) ∧ Placed mem u m (a.append b) := by
  obtain ⟨-, done⟩ | ⟨long, -⟩ := strJoin_cases holdsA holdsB vacant
  · exact done
  · apply absurd _ long
    unfold JoinCounts
    omega

/-- The buffer holds both strings, and nothing before the terminator of the first was written. -/
structure Appended (mem u : Bytes) (dst : CharPtr) (a b : CString) : Prop where
  holds : Holds u dst (a.append b)
  wrote : Memory.Added mem.writes u.writes fun p =>
    p.block = dst.block ∧ dst.offset + a.bytes.length ≤ p.offset

def Appends (mem : Bytes) (dst : CharPtr) (a b : CString) (result : Except Fault (Bytes × CharPtr)) :
    Prop :=
  ∃ u, result = .ok (u, dst) ∧ Appended mem u dst a b

theorem myStrcat_ok {mem : Bytes} {dst src : CharPtr} {a b : CString} (holdsA : Holds mem dst a)
    (holdsB : Holds mem src b) (room : mem.Room dst ((a.append b).bytes.length + 1))
    (apart : dst.Apart ((a.append b).bytes.length + 1) src (b.bytes.length + 1))
    (short : a.bytes.length < 2 ^ 31) :
    ∃ u, myStrcat mem dst src = .ok (u, dst) ∧ Holds u dst (a.append b) ∧
      mem.Touches u (fun _ => True) ((dst.plus a.bytes.length).Covers (b.bytes.length + 1)) := by
  have total : a.bytes.length + (b.bytes.length + 1) = (a.append b).bytes.length + 1 := by
    rw [CString.length_append, Nat.add_assoc]
  obtain ⟨w, n, measured, length, looked⟩ := (Looked.refl mem).myStrlen holdsA (by omega)
  have narrowed : (Signed.ofSize n).toInt = a.bytes.length := by
    rw [Signed.toInt_ofSize, length]
    split <;> omega
  obtain ⟨-, u, copied, heldB, touches⟩ | ⟨cramped, -⟩ := myStrcpy_cases (looked.holds holdsB)
    (apart.part (Nat.le_of_eq total))
  · have front : mem.Stores dst a.bytes := (Memory.stores_append.mp holdsA).1
    have kept : u.Stores dst a.bytes :=
      touches.stores (looked.stores front fun _ _ => id) fun q covers => covers.not_later
    refine ⟨u, ?_, holds_append.mpr ⟨kept, heldB⟩, ?_⟩
    · simp [myStrcat, measured, narrowed, copied]
    · apply looked.reading.trans
      exact touches.mono (fun _ _ => trivial) fun _ => id
  · exact absurd ((looked.room _ _).mpr (room.part (Nat.le_of_eq total))) cramped

theorem myStrcat_appends {mem : Bytes} {dst src : CharPtr} {a b : CString} (holdsA : Holds mem dst a)
    (holdsB : Holds mem src b) (room : mem.Room dst ((a.append b).bytes.length + 1))
    (apart : dst.Apart ((a.append b).bytes.length + 1) src (b.bytes.length + 1)) :
    Appends mem dst a b (myStrcat mem dst src) ↔ a.bytes.length < 2 ^ 31 := by
  constructor
  · rintro ⟨u, done, appended⟩
    by_contra long
    obtain ⟨⟨w, n⟩, measured, rest⟩ := bind_ok done
    obtain ⟨⟨v, d⟩, copied, rest⟩ := bind_ok rest
    cases rest
    by_cases far : a.bytes.length < 2 ^ 63
    · obtain ⟨w', n', again, length, looked⟩ := (Looked.refl mem).myStrlen holdsA far
      cases measured.symm.trans again
      -- the copy begins at the narrowed length, which is before the terminator
      have before : (Signed.ofSize n).toInt < a.bytes.length := by
        rw [Signed.toInt_ofSize, length]
        split <;> omega
      obtain ⟨ps, more, first⟩ := myStrcpy_first copied
      obtain ⟨qs, none, -⟩ := looked.wrote
      obtain ⟨rs, all, onwards⟩ := appended.wrote
      rw [more, none, ← List.append_assoc] at all
      have member : dst.plus (Signed.ofSize n).toInt ∈ rs := by
        rw [← List.append_cancel_right all]
        exact List.mem_append_left _ first
      have after := (onwards _ member).2
      rw [Ptr.plus_offset] at after
      omega
    · cases measured.symm.trans (myStrlen_far holdsA far)
  · intro short
    obtain ⟨u, done, held, touches⟩ := myStrcat_ok holdsA holdsB room apart short
    exact ⟨u, done, held, touches.wrote.mono fun p covers => ⟨covers.1, covers.2.1⟩⟩

/-- When the three functions do for strings `a` and `b` what they promise, of any length and
wherever they are. -/
theorem lengths_count_iff (a b : CString) :
    (∀ (mem : Bytes) (s : CharPtr) (m : Malloc),
      Holds mem s a → mem.blocks.lookup m.addr = none →
      (Delivers mem m a (myStrdup mem s (some m)) ↔ DupCounts a.bytes.length)) ∧
    (∀ (mem : Bytes) (s t : CharPtr) (m : Malloc),
      Holds mem s a → Holds mem t b → mem.blocks.lookup m.addr = none →
      (Delivers mem m (a.append b) (strJoin mem s t (some m)) ↔
        JoinCounts a.bytes.length b.bytes.length)) ∧
    (∀ (mem : Bytes) (dst src : CharPtr),
      Holds mem dst a → Holds mem src b → mem.Room dst ((a.append b).bytes.length + 1) →
      dst.Apart ((a.append b).bytes.length + 1) src (b.bytes.length + 1) →
      (Appends mem dst a b (myStrcat mem dst src) ↔ a.bytes.length < 2 ^ 31)) :=
  ⟨fun _ _ _ holds vacant => delivers_iff (myStrdup_cases holds vacant),
    fun _ _ _ _ holdsA holdsB vacant => delivers_iff (strJoin_cases holdsA holdsB vacant),
    fun _ _ _ => myStrcat_appends⟩

def letters (n : Nat) : CString where
  bytes := List.replicate n 97
  noNul := by simp [List.mem_replicate]

theorem length_letters (n : Nat) : (letters n).bytes.length = n :=
  List.length_replicate

theorem lengths_count_small : ∃ (mem : Bytes) (p : CharPtr) (m : Malloc),
    Delivers mem m (letters 1) (myStrdup mem p (some m)) ∧
    Delivers mem m ((letters 1).append (letters 2)) (strJoin mem p (p.plus 5) (some m)) ∧
    Appends mem p (letters 1) (letters 2) (myStrcat mem p (p.plus 5)) := by
  obtain ⟨mem, stores, vacant⟩ := Memory.exists_stores 10 ([97, 0, 7, 7, 7, 97, 97, 0] : List UInt8)
  have parts : mem.Stores ⟨some 10, 0⟩ ([97, 0] ++ [7, 7, 7] ++ [97, 97, 0]) := stores
  obtain ⟨front, back⟩ := Memory.stores_append.mp parts
  have second : Holds mem (Ptr.plus ⟨some 10, 0⟩ 5) (letters 2) := back
  have first : Holds mem ⟨some 10, 0⟩ (letters 1) := (Memory.stores_append.mp front).1
  have room : mem.Room ⟨some 10, 0⟩ 4 := fun i below => stores.room i (Nat.lt_trans below (by decide))
  have free : mem.blocks.lookup 20 = none := vacant 20 (by decide)
  refine ⟨mem, ⟨some 10, 0⟩, ⟨20, fun _ => 0⟩, ?_, ?_, ?_⟩
  · apply ((lengths_count_iff (letters 1) (letters 2)).1 mem _ _ first free).mpr
    decide
  · apply ((lengths_count_iff (letters 1) (letters 2)).2.1 mem _ _ _ first second free).mpr
    decide
  · apply ((lengths_count_iff (letters 1) (letters 2)).2.2 mem _ _ first second room _).mpr
    · decide
    · decide

/-- One byte is asked for, and 2^32 + 1 bytes are written. -/
theorem myStrdup_overlong : ∃ (mem : Bytes) (s : CharPtr) (m : Malloc),
    Holds mem s (letters (2 ^ 32)) ∧ mem.blocks.lookup m.addr = none ∧
    ¬ Delivers mem m (letters (2 ^ 32)) (myStrdup mem s (some m)) := by
  obtain ⟨mem, holds, vacant⟩ := Memory.exists_stores 10 (letters (2 ^ 32)).stored
  refine ⟨mem, _, ⟨20, fun _ => 0⟩, holds, vacant 20 (by decide), fun delivers => ?_⟩
  have free := vacant 20 (by decide)
  have counts := (delivers_iff (myStrdup_cases (m := ⟨20, fun _ => 0⟩) holds free)).mp delivers
  rw [length_letters] at counts
  unfold DupCounts at counts
  omega

end Syseng.CForProgrammers.Strings
