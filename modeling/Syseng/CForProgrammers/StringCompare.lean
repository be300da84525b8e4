import Syseng.CForProgrammers.StringLengths

/-! `my_strcmp`, whose loop compares plain `char`s and whose result is about unsigned ones. -/

namespace Syseng.CForProgrammers.Strings
open Support

/-- Whether `char` is a signed type is up to the implementation. -/
inductive PlainChar where
  | signed
  | unsigned
  deriving DecidableEq, Repr

def unsignedChar (c : UInt8) : Int32 := Int32.ofNat c.toNat

def PlainChar.promote : PlainChar → UInt8 → Int32
  | .signed, c => c.toInt8.toInt32
  | .unsigned, c => unsignedChar c

/-- `while (*a == *b && *a != '\0')`, with every read that it makes. -/
def strcmpLoop (plain : PlainChar) :
    Nat → Bytes → CharPtr → CharPtr → Except Fault (Bytes × CharPtr × CharPtr)
  | 0, _, _, _ => .error .diverged
  | bound + 1, mem, a, b => do
    let (mem, c) ← mem.load a
    let (mem, d) ← mem.load b
    if plain.promote c = plain.promote d then
      let (mem, c) ← mem.load a
      if plain.promote c ≠ 0 then strcmpLoop plain bound mem (a.plus 1) (b.plus 1) else .ok (mem, a, b)
    else .ok (mem, a, b)

def myStrcmp (plain : PlainChar) (mem : Bytes) (a b : CharPtr) : Except Fault (Bytes × Int32) := do
  let (mem, a, b) ← strcmpLoop plain (mem.extent a + 1) mem a b
  let (mem, c) ← mem.load a
  let (mem, d) ← mem.load b
  if plain.promote c = plain.promote d then .ok (mem, 0)
  else
    let (mem, c) ← mem.load a
    let (mem, d) ← mem.load b
    let r ← Signed.sub (unsignedChar c) (unsignedChar d)
    .ok (mem, r)

theorem toInt_unsignedChar (c : UInt8) : (unsignedChar c).toInt = c.toNat := by
  have small := c.toNat_lt
  exact Int32.toInt_ofNat_of_lt (by omega)

theorem PlainChar.promote_inj {plain : PlainChar} {c d : UInt8} :
    plain.promote c = plain.promote d ↔ c = d := by
  constructor
  · intro same
    cases plain with
    | signed =>
      have narrowed := congrArg (fun i : Int32 => i.toInt8.toUInt8) same
      simpa [promote] using narrowed
    | unsigned =>
      have values := congrArg Int32.toInt same
      simp only [promote, toInt_unsignedChar] at values
      exact UInt8.toNat_inj.mp (by omega)
  · exact congrArg plain.promote

theorem PlainChar.promote_zero {plain : PlainChar} {c : UInt8} : plain.promote c = 0 ↔ c = 0 := by
  have zero : plain.promote 0 = 0 := by cases plain <;> rfl
  have injective := plain.promote_inj (c := c) (d := 0)
  rwa [zero] at injective

def Compared (s : CharPtr) (xs : List UInt8) (t : CharPtr) (ys : List UInt8) (p : CharPtr) : Prop :=
  s.Covers (xs.length + 1) p ∨ t.Covers (ys.length + 1) p

/-- A loop that goes on past two bytes that are equal and not zero, and past no others. -/
def Walks (loop : Nat → Bytes → CharPtr → CharPtr → Except Fault (Bytes × CharPtr × CharPtr)) : Prop :=
  ∀ (bound : Nat) {mem : Bytes} {s t : CharPtr} {c d : UInt8}, mem.cell s = some c → mem.cell t = some d →
    ∃ w, mem.Touches w (fun p => p = s ∨ p = t) (fun _ => False) ∧
      loop (bound + 1) mem s t = if c = d ∧ c ≠ 0 then loop bound w (s.plus 1) (t.plus 1) else .ok (w, s, t)

theorem Compared.here {s t p : CharPtr} (xs ys : List UInt8) (first : p = s ∨ p = t) :
    Compared s xs t ys p := by
  rcases first with rfl | rfl
  · exact Or.inl (p.covers_self _)
  · exact Or.inr (p.covers_self _)

theorem Compared.next {s t p : CharPtr} {x y : UInt8} {xs ys : List UInt8}
    (compared : Compared (s.plus 1) xs (t.plus 1) ys p) : Compared s (x :: xs) t (y :: ys) p :=
  compared.imp Ptr.Covers.next Ptr.Covers.next

theorem Walks.stops {loop : Nat → Bytes → CharPtr → CharPtr → Except Fault (Bytes × CharPtr × CharPtr)}
    (walks : Walks loop) (bound : Nat) {mem : Bytes} {s t : CharPtr} {xs ys : List UInt8}
    (storesX : mem.Stores s (xs ++ [0])) (noNulX : 0 ∉ xs) (storesY : mem.Stores t (ys ++ [0]))
    (noNulY : 0 ∉ ys) (enough : xs.length < bound) :
    ∃ u, loop bound mem s t =
        .ok (u, s.plus (CString.common xs ys), t.plus (CString.common xs ys)) ∧
      mem.Touches u (Compared s xs t ys) fun _ => False := by
  induction xs generalizing ys bound mem s t with
  | nil =>
    cases bound with
    | zero => cases enough
    | succ bound =>
      obtain ⟨d, second⟩ : ∃ d, mem.cell t = some d := by
        cases ys with
        | nil => exact ⟨0, storesY.1⟩
        | cons y ys => exact ⟨y, storesY.1⟩
      obtain ⟨u, looked, stopped⟩ := walks bound storesX.1 second
      refine ⟨u, ?_, looked.mono (fun _ => Compared.here _ _) fun _ => id⟩
      rw [stopped, if_neg fun both => both.2 rfl]
      simp [CString.common]
  | cons x xs ih =>
    cases bound with
    | zero => cases enough
    | succ bound =>
      obtain ⟨nonzeroX, othersX⟩ := not_or.mp (mt List.mem_cons.mpr noNulX)
      cases ys with
      | nil =>
        obtain ⟨u, looked, stopped⟩ := walks bound storesX.1 storesY.1
        refine ⟨u, ?_, looked.mono (fun _ => Compared.here _ _) fun _ => id⟩
        rw [stopped, if_neg fun both => nonzeroX both.1.symm]
        simp [CString.common]
      | cons y ys =>
        obtain ⟨u, looked, round⟩ := walks bound storesX.1 storesY.1
        by_cases same : x = y
        · obtain ⟨nonzeroY, othersY⟩ := not_or.mp (mt List.mem_cons.mpr noNulY)
          obtain ⟨v, walked, touches⟩ := ih bound (looked.stores storesX.2 fun _ _ => id) othersX
            (looked.stores storesY.2 fun _ _ => id) othersY (Nat.lt_of_succ_lt_succ enough)
          have first := looked.mono (fun _ => Compared.here (x :: xs) (y :: ys)) fun _ => id
          refine ⟨v, ?_, first.trans (touches.mono (fun _ => Compared.next) fun _ => id)⟩
          rw [round, if_pos ⟨same, Ne.symm nonzeroX⟩, walked, Ptr.plus_plus, Ptr.plus_plus, CString.common,
            if_pos same, Int.natCast_succ, Int.add_comm]
        · refine ⟨u, ?_, looked.mono (fun _ => Compared.here _ _) fun _ => id⟩
          rw [round, if_neg fun both => same both.1]
          simp [CString.common, same]

/-- The sign of `char` makes no difference to the loop. -/
theorem strcmpLoop_walks (plain : PlainChar) : Walks (strcmpLoop plain) := by
  intro bound mem s t c d first second
  have start := Memory.Touches.refl (R := fun p => p = s ∨ p = t) (W := fun _ => False) mem
  have looked := (start.look (p := s) (Or.inl rfl)).look (p := t) (Or.inr rfl)
  have load := Memory.load_ok first
  have next := Memory.load_after s second
  by_cases same : c = d
  · have again : ((mem.noted s).noted t).load s = .ok (((mem.noted s).noted t).noted s, c) :=
      Memory.load_ok first
    refine ⟨_, looked.look (p := s) (Or.inl rfl), ?_⟩
    by_cases zero : c = 0
    · simp [strcmpLoop, load, next, ← same, again, zero, PlainChar.promote_zero]
    · simp [strcmpLoop, load, next, ← same, again, zero, PlainChar.promote_zero]
  · refine ⟨_, looked, ?_⟩
    simp [strcmpLoop, load, next, PlainChar.promote_inj, same]

structure Stopped (mem : Bytes) (s : CharPtr) (a : CString) (t : CharPtr) (b : CString) (u : Bytes)
    (s' t' : CharPtr) (c d : UInt8) : Prop where
  first : u.cell s' = some c
  second : u.cell t' = some d
  readFirst : Compared s a.bytes t b.bytes s'
  readSecond : Compared s a.bytes t b.bytes t'
  touches : mem.Touches u (Compared s a.bytes t b.bytes) fun _ => False
  differ : CString.difference a.bytes b.bytes = c.toNat - d.toNat
  ends : (c = 0 ∧ d = 0) ↔ a.bytes = b.bytes

theorem Walks.stopped {loop : Nat → Bytes → CharPtr → CharPtr → Except Fault (Bytes × CharPtr × CharPtr)}
    (walks : Walks loop) {mem : Bytes} {s t : CharPtr} {a b : CString} (holdsA : Holds mem s a)
    (holdsB : Holds mem t b) :
    ∃ u s' t' c d, loop (mem.extent s + 1) mem s t = .ok (u, s', t') ∧ Stopped mem s a t b u s' t' c d := by
  have bound := holdsA.room.extent
  obtain ⟨u, walked, touches⟩ := walks.stops (mem.extent s + 1) holdsA a.noNul holdsB b.noNul (by omega)
  obtain ⟨insideA, insideB⟩ := CString.common_le a.bytes b.bytes
  have looked : Looked mem u := touches.mono (fun _ _ => trivial) fun _ => id
  refine ⟨u, _, _, _, _, walked, (looked.holds holdsA).cell insideA, (looked.holds holdsB).cell insideB,
    Or.inl (s.covers_plus (by omega)), Or.inr (t.covers_plus (by omega)), touches,
    CString.difference_common _ _, CString.common_ends_iff a.noNul b.noNul⟩

theorem myStrcmp_ok (plain : PlainChar) {mem : Bytes} {s t : CharPtr} {a b : CString}
    (holdsA : Holds mem s a) (holdsB : Holds mem t b) :
    ∃ u r, myStrcmp plain mem s t = .ok (u, r) ∧ r.toInt = CString.difference a.bytes b.bytes ∧
      mem.Touches u (Compared s a.bytes t b.bytes) fun _ => False := by
  obtain ⟨w, s', t', c, d, walked, stopped⟩ := (strcmpLoop_walks plain).stopped holdsA holdsB
  have looked := (stopped.touches.look stopped.readFirst).look stopped.readSecond
  have load := Memory.load_ok stopped.first
  have next := Memory.load_after s' stopped.second
  by_cases same : c = d
  · subst same
    refine ⟨_, 0, ?_, ?_, looked⟩
    · simp [myStrcmp, walked, load, next]
    · rw [stopped.differ]
      exact (Int.sub_self _).symm
  · have load' : ((w.noted s').noted t').load s' = .ok (((w.noted s').noted t').noted s', c) :=
      Memory.load_ok stopped.first
    have next' : (((w.noted s').noted t').noted s').load t' =
      .ok ((((w.noted s').noted t').noted s').noted t', d) := Memory.load_ok stopped.second
    have small : Signed.InRange ((unsignedChar c).toInt - (unsignedChar d).toInt) := by
      have smallC := c.toNat_lt
      have smallD := d.toNat_lt
      rw [toInt_unsignedChar, toInt_unsignedChar]
      unfold Signed.InRange
      omega
    obtain ⟨r, made, value⟩ := Signed.check_ok small
    refine ⟨_, r, ?_, ?_, (looked.look stopped.readFirst).look stopped.readSecond⟩
    · simp [myStrcmp, walked, load, next, load', next', PlainChar.promote_inj, same, Signed.sub, made]
    · rw [value, stopped.differ, toInt_unsignedChar, toInt_unsignedChar]

/-- The comparison returns `r`. It reads no further than the two terminators, and writes nothing. -/
def Compares (plain : PlainChar) (mem : Bytes) (s : CharPtr) (a : CString) (t : CharPtr) (b : CString)
    (r : Int32) : Prop :=
  ∃ u, myStrcmp plain mem s t = .ok (u, r) ∧
    mem.Touches u (Compared s a.bytes t b.bytes) fun _ => False

theorem exists_compares (plain : PlainChar) {mem : Bytes} {s t : CharPtr} {a b : CString}
    (holdsA : Holds mem s a) (holdsB : Holds mem t b) :
    ∃ r, Compares plain mem s a t b r ∧ r.toInt = CString.difference a.bytes b.bytes := by
  obtain ⟨u, r, done, value, touches⟩ := myStrcmp_ok plain holdsA holdsB
  exact ⟨r, ⟨u, done, touches⟩, value⟩

/-- What the results of comparing `a` with `b`, `b` with `a`, `b` with `c` and `a` with `c` say. -/
structure Orders (a b c : CString) (ab ba bc ac : Int32) : Prop where
  equal : ab = 0 ↔ a = b
  before : ab < 0 ↔ a.bytes < b.bytes
  behind : 0 < ab ↔ b.bytes < a.bytes
  swap : ba.toInt = -ab.toInt
  trans : ab ≤ 0 → bc ≤ 0 → ac ≤ 0
  trans_lt : ab < 0 → bc < 0 → ac < 0

theorem orders_of_differences {a b c : CString} {ab ba bc ac : Int32}
    (valueAB : ab.toInt = CString.difference a.bytes b.bytes)
    (valueBA : ba.toInt = CString.difference b.bytes a.bytes)
    (valueBC : bc.toInt = CString.difference b.bytes c.bytes)
    (valueAC : ac.toInt = CString.difference a.bytes c.bytes) : Orders a b c ab ba bc ac := by
  have zero : (0 : Int32).toInt = 0 := rfl
  have equal : ab = 0 ↔ a = b := by
    rw [← Int32.toInt_inj, valueAB, zero, CString.difference_eq_zero_iff a.noNul b.noNul]
    exact ⟨CString.ext, congrArg CString.bytes⟩
  have trans_lt : ab < 0 → bc < 0 → ac < 0 := by
    rw [Int32.lt_iff_toInt_lt, Int32.lt_iff_toInt_lt, Int32.lt_iff_toInt_lt, valueAB, valueBC, valueAC]
    exact CString.difference_trans b.noNul c.noNul
  refine ⟨equal, ?_, ?_, ?_, ?_, trans_lt⟩
  · rw [Int32.lt_iff_toInt_lt, valueAB, zero, CString.difference_neg_iff b.noNul]
  · rw [Int32.lt_iff_toInt_lt, valueAB, zero, CString.difference_swap, ← CString.difference_neg_iff a.noNul]
    omega
  · rw [valueBA, valueAB, CString.difference_swap]
  · rw [Int32.le_iff_toInt_le, Int32.le_iff_toInt_le, Int32.le_iff_toInt_le, valueAB, valueBC, valueAC]
    exact CString.difference_trans_le a.noNul b.noNul c.noNul

theorem my_strcmp_orders (plain : PlainChar) {mem : Bytes} {s t v : CharPtr} {a b c : CString}
    (holdsA : Holds mem s a) (holdsB : Holds mem t b) (holdsC : Holds mem v c) :
    ∃ ab ba bc ac, Compares plain mem s a t b ab ∧ Compares plain mem t b s a ba ∧
      Compares plain mem t b v c bc ∧ Compares plain mem s a v c ac ∧ Orders a b c ab ba bc ac ∧
      ∀ (q : CharPtr) (p : CString) (m n : Malloc), Holds mem q p →
        mem.blocks.lookup m.addr = none → mem.blocks.lookup n.addr = none → n.addr ≠ m.addr →
        p.bytes.length + a.bytes.length < 2 ^ 31 - 1 → p.bytes.length + b.bytes.length < 2 ^ 31 - 1 →
        ∃ u w, strJoin mem q s (some m) = .ok (u, m.pointer) ∧
          strJoin u q t (some n) = .ok (w, n.pointer) ∧
          Compares plain w m.pointer (p.append a) n.pointer (p.append b) ab := by
  obtain ⟨ab, compareAB, valueAB⟩ := exists_compares plain holdsA holdsB
  obtain ⟨ba, compareBA, valueBA⟩ := exists_compares plain holdsB holdsA
  obtain ⟨bc, compareBC, valueBC⟩ := exists_compares plain holdsB holdsC
  obtain ⟨ac, compareAC, valueAC⟩ := exists_compares plain holdsA holdsC
  refine ⟨ab, ba, bc, ac, compareAB, compareBA, compareBC, compareAC,
    orders_of_differences valueAB valueBA valueBC valueAC, ?_⟩
  intro q p m n holdsP vacantM vacantN apart shortA shortB
  obtain ⟨u, joinedA, placedA⟩ := strJoin_ok holdsP holdsA vacantM shortA
  have vacantN' := placedA.vacant vacantN apart
  obtain ⟨w, joinedB, placedB⟩ :=
    strJoin_ok (placedA.kept holdsP vacantM) (placedA.kept holdsB vacantM) vacantN' shortB
  obtain ⟨r, compared, value⟩ := exists_compares plain (placedB.kept placedA.holds vacantN') placedB.holds
  have same : r = ab := by
    apply Int32.toInt_inj.mp
    rw [value, valueAB]
    exact CString.difference_append p.bytes a.bytes b.bytes
  exact ⟨u, w, joinedA, joinedB, same ▸ compared⟩

theorem my_strcmp_orders_signed : ∃ (mem : Bytes) (s t v : CharPtr) (ab bc : Int32),
    Compares .signed mem s ⟨[97], by decide⟩ t ⟨[97, 98], by decide⟩ ab ∧ ab < 0 ∧
    Compares .signed mem t ⟨[97, 98], by decide⟩ v ⟨[200], by decide⟩ bc := by
  obtain ⟨mem, stores, -⟩ := Memory.exists_stores 10 ([97, 0, 97, 98, 0, 200, 0] : List UInt8)
  have parts : mem.Stores ⟨some 10, 0⟩ ([97, 0] ++ ([97, 98, 0] ++ [200, 0])) := stores
  obtain ⟨first, rest⟩ := Memory.stores_append.mp parts
  obtain ⟨second, third⟩ := Memory.stores_append.mp rest
  obtain ⟨ab, _, bc, _, compareAB, -, compareBC, -, orders, -⟩ := my_strcmp_orders .signed
    (a := ⟨[97], by decide⟩) (b := ⟨[97, 98], by decide⟩) (c := ⟨[200], by decide⟩) first second third
  exact ⟨mem, _, _, _, ab, bc, compareAB, orders.before.mpr (by decide), compareBC⟩

end Syseng.CForProgrammers.Strings
