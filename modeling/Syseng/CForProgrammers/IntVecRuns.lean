import Syseng.CForProgrammers.IntVec
import Syseng.Support.Doubling

/-! Whole runs of the vector: it is a list while allocations succeed, and what is left
of it when one fails. -/

namespace Syseng.CForProgrammers.IntVec
open Support

theorem length_fill (old : List Int32) (bytes : UInt64) (junk : Nat → Int32) :
    (fill old bytes junk).length = bytes.toNat / 4 := by
  simp [fill]

theorem take_fill {old : List Int32} {bytes : UInt64} {junk : Nat → Int32} {n : Nat}
    (held : n ≤ old.length) (fits : n ≤ bytes.toNat / 4) :
    (fill old bytes junk).take n = old.take n := by
  apply List.ext_getElem?
  intro i
  by_cases below : i < n
  · have there : old[i]? = some old[i] := List.getElem?_eq_getElem (by omega)
    have counted : i < bytes.toNat / 4 := by omega
    simp [below, fill, there, counted]
  · simp [below]

theorem malloc_ok {mem : Table Nat (List Int32)} {m : Malloc} (bytes : UInt64)
    (vacant : mem.lookup m.addr = none) :
    ∃ u, malloc mem bytes (some m) = .ok (u, some m.addr) ∧
      u.lookup = Function.update mem.lookup m.addr (some (fill [] bytes m.junk)) := by
  obtain ⟨u, acquired, changed, -⟩ := Table.acquire_ok (fill [] bytes m.junk) vacant
  exact ⟨u, by simp [malloc, acquired], changed⟩

theorem realloc_ok {mem : Table Nat (List Int32)} {m : Malloc} {p : Nat} {old : List Int32}
    (bytes : UInt64) (held : mem.lookup p = some old) (free : mem.Live m.addr → p = m.addr) :
    ∃ u, realloc mem (some p) bytes (some m) = .ok (u, some m.addr) ∧
      u.lookup m.addr = some (fill old bytes m.junk) := by
  obtain ⟨w, n, released, dropped, -⟩ := Table.release_ok held
  have vacant : w.lookup m.addr = none := by
    rw [dropped]
    by_cases same : m.addr = p
    · simp [same]
    · have dead : ¬ mem.Live m.addr := fun live => same (free live).symm
      simpa [same, Table.Live] using dead
  obtain ⟨u, acquired, changed, -⟩ := Table.acquire_ok (fill old bytes m.junk) vacant
  refine ⟨u, ?_, by simp [changed]⟩
  simp [realloc, Table.deref_some held, released, acquired]

/-- The list that the vector stands for, and the largest length it has had. -/
structure Model where
  items : List Int32
  peak : Nat

namespace Model

def start : Model := { items := [], peak := 0 }

def next (l : Model) : Call → Model × Option Int32
  | .vecPush val _ =>
    ({ items := l.items ++ [val], peak := max l.peak (l.items.length + 1) }, none)
  | .vecPop => ({ l with items := l.items.dropLast }, l.items.getLast?)
  | .vecGet i => (l, l.items[i.toNat]?)
  | _ => (l, none)

end Model

/-- The promise of the caller and of the system about a growing vector. -/
def Ample (s : State) : Call → Prop
  | .vecInit c got => 1 ≤ c ∧ c.toNat * 4 < 2 ^ 64 ∧ got.isSome
  | .vecPush _ got => ∀ v ∈ s.vec, v.length = v.capacity →
    got.isSome ∧ v.capacity.toNat * 2 * 4 < 2 ^ 64
  | .vecFree => False
  | _ => True

instance (s : State) : (e : Call) → Decidable (Ample s e)
  | .vecInit c got => inferInstanceAs (Decidable (1 ≤ c ∧ c.toNat * 4 < 2 ^ 64 ∧ got.isSome))
  | .vecPush _ got => inferInstanceAs (Decidable (∀ v ∈ s.vec, v.length = v.capacity →
    got.isSome ∧ v.capacity.toNat * 2 * 4 < 2 ^ 64))
  | .vecPop | .vecGet _ => inferInstanceAs (Decidable True)
  | .vecFree => inferInstanceAs (Decidable False)

/-- The block of the vector begins with the list and has the size that doubling gives. -/
structure Holds (c : Nat) (s : State) (l : Model) (v : IntVec) : Prop where
  vec : s.vec = some v
  block : ∃ p b, v.data = some p ∧ s.mem.lookup p = some b ∧ b.length = v.capacity.toNat ∧
    b.take l.items.length = l.items
  length : v.length.toNat = l.items.length
  peaked : l.items.length ≤ l.peak
  doubled : Doubled c l.peak v.capacity.toNat

theorem take_concat {α : Type} {b xs : List α} (held : b.take xs.length = xs)
    (inside : xs.length < b.length) (x : α) :
    (b.set xs.length x).take (xs.length + 1) = xs ++ [x] := by
  rw [List.take_add_one, List.take_set_of_le (Nat.le_refl _), held, List.getElem?_set_self inside]
  rfl

theorem Holds.object {c : Nat} {s : State} {l : Model} {v : IntVec} (holds : Holds c s l v) :
    s.object = .ok v := by
  simp [State.object, holds.vec]

theorem Holds.fits {c : Nat} {s : State} {l : Model} {v : IntVec} (holds : Holds c s l v) :
    l.items.length ≤ v.capacity.toNat :=
  Nat.le_trans holds.peaked holds.doubled.covers

theorem bytes_exact {c : UInt64} (fits : c.toNat * 4 < 2 ^ 64) :
    (c * sizeofInt).toNat / 4 = c.toNat := by
  rw [UInt64.toNat_mul, show sizeofInt.toNat = 4 from rfl, Nat.mod_eq_of_lt fits]
  omega

theorem double_exact {c : UInt64} (fits : c.toNat * 2 * 4 < 2 ^ 64) :
    (c * 2).toNat = c.toNat * 2 := by
  rw [UInt64.toNat_mul, show (2 : UInt64).toNat = 2 from rfl, Nat.mod_eq_of_lt (by omega)]

structure Room (mem : Table Nat (List Int32)) (v : IntVec) (xs : List Int32) : Prop where
  block : ∃ p b, v.data = some p ∧ mem.lookup p = some b ∧ b.length = v.capacity.toNat ∧
    b.take xs.length = xs
  length : v.length.toNat = xs.length
  inside : xs.length < v.capacity.toNat

theorem grow_ok {c : Nat} {s : State} {l : Model} {v : IntVec} {m : Malloc} (holds : Holds c s l v)
    (full : l.items.length = v.capacity.toNat) (positive : 0 < v.capacity.toNat)
    (fits : v.capacity.toNat * 2 * 4 < 2 ^ 64) (free : s.mem.Live m.addr → v.data = some m.addr) :
    ∃ u w, grow s.mem v (some m) = .ok (u, w) ∧ Room u w l.items ∧
      w.capacity.toNat = v.capacity.toNat * 2 := by
  obtain ⟨p, b, data, held, size, kept⟩ := holds.block
  have twice := double_exact fits
  obtain ⟨u, moved, found⟩ := realloc_ok (v.capacity * 2 * sizeofInt) held
    (fun live => Option.some.inj (data.symm.trans (free live)))
  refine ⟨u, { data := some m.addr, length := v.length, capacity := v.capacity * 2 }, ?_,
    ⟨⟨m.addr, _, rfl, found, ?_, ?_⟩, holds.length, ?_⟩, twice⟩
  · simp [grow, data, moved]
  · rw [length_fill, bytes_exact (by omega)]
  · rw [take_fill (by omega) (by rw [bytes_exact (by omega)]; omega), kept]
  · change l.items.length < (v.capacity * 2).toNat
    omega

theorem store_ok {mem : Table Nat (List Int32)} {v : IntVec} {xs : List Int32}
    (room : Room mem v xs) (val : Int32) :
    ∃ u p b, mem.store v.data v.length.toNat val = .ok u ∧ v.data = some p ∧
      u.lookup p = some b ∧ b.length = v.capacity.toNat ∧ b.take (xs.length + 1) = xs ++ [val] ∧
      (v.length + 1).toNat = xs.length + 1 := by
  obtain ⟨p, b, data, held, size, kept⟩ := room.block
  have inside : xs.length < b.length := size ▸ room.inside
  have last := v.capacity.toNat_lt
  obtain ⟨u, stored, changed, -⟩ := Table.modify_ok (·.set xs.length val) held
  refine ⟨u, p, b.set xs.length val, ?_, data, by simp [changed], by simpa using size,
    take_concat kept inside val, ?_⟩
  · rw [data, room.length, Table.store_ok held inside, stored]
  · rw [UInt64.toNat_add, room.length]
    exact Nat.mod_eq_of_lt (by have := room.inside; simp; omega)

theorem vecPush_holds {c : Nat} {s : State} {l : Model} {v : IntVec} {val : Int32}
    {got : Option Malloc} (holds : Holds c s l v) (positive : 0 < c)
    (free : ∀ m ∈ got, s.mem.Live m.addr → v.data = some m.addr)
    (ample : v.length = v.capacity → got.isSome ∧ v.capacity.toNat * 2 * 4 < 2 ^ 64) :
    ∃ u w, vecPush s.mem v val got = .ok (u, w) ∧
      Holds c { mem := u, vec := some w } (l.next (.vecPush val got)).1 w := by
  have fits := holds.fits
  have base : c ≤ v.capacity.toNat := by
    obtain ⟨k, same, -⟩ := holds.doubled
    rw [same]
    exact Nat.le_mul_of_pos_right c (Nat.two_pow_pos k)
  by_cases full : v.length = v.capacity
  · obtain ⟨some_got, small⟩ := ample full
    obtain ⟨m, rfl⟩ := Option.isSome_iff_exists.mp some_got
    have filled : l.items.length = v.capacity.toNat := by rw [← holds.length, full]
    have peak : l.peak = v.capacity.toNat := by
      have covered := holds.doubled.covers
      have peaked := holds.peaked
      omega
    obtain ⟨u, w, grown, room, twice⟩ := grow_ok holds filled (by omega) small (free m rfl)
    obtain ⟨u', p, b, stored, data, found, size, kept, next⟩ := store_ok room val
    refine ⟨u', { w with length := w.length + 1 }, ?_, rfl, ⟨p, b, data, found, size, ?_⟩, ?_, ?_, ?_⟩
    · simp [vecPush, full, grown, stored]
    · simpa [Model.next] using kept
    · simpa [Model.next] using next
    · simp [Model.next]
    · have more : max l.peak (l.items.length + 1) = v.capacity.toNat + 1 := by omega
      change Doubled c (max l.peak (l.items.length + 1)) w.capacity.toNat
      rw [more, twice]
      exact Doubled.double (peak ▸ holds.doubled) (by omega)
  · have short : l.items.length < v.capacity.toNat := by
      have differs : v.length.toNat ≠ v.capacity.toNat := fun same => full (UInt64.toNat_inj.mp same)
      have length := holds.length
      omega
    obtain ⟨u, p, b, stored, data, found, size, kept, next⟩ :=
      store_ok ⟨holds.block, holds.length, short⟩ val
    refine ⟨u, { v with length := v.length + 1 }, ?_, rfl, ⟨p, b, data, found, size, ?_⟩, ?_, ?_, ?_⟩
    · simp [vecPush, full, stored]
    · simpa [Model.next] using kept
    · simpa [Model.next] using next
    · simp [Model.next]
    · exact holds.doubled.keep (Nat.le_max_left _ _)
        (Nat.max_le.mpr ⟨holds.doubled.covers, short⟩)

theorem Holds.load {c : Nat} {s : State} {l : Model} {v : IntVec} (holds : Holds c s l v) {i : Nat}
    (inside : i < l.items.length) :
    ∃ x, l.items[i]? = some x ∧ s.mem.load v.data i = .ok x := by
  obtain ⟨p, b, data, held, -, kept⟩ := holds.block
  have there : l.items[i]? = some l.items[i] := List.getElem?_eq_getElem inside
  refine ⟨l.items[i], there, ?_⟩
  rw [data]
  apply Table.load_ok held
  rw [← there, ← kept, List.getElem?_take_of_lt inside]

theorem vecPop_holds {c : Nat} {s : State} {l : Model} {v : IntVec} (holds : Holds c s l v)
    (nonempty : 0 < v.length) :
    ∃ w x, vecPop s.mem v = .ok (w, x) ∧ l.items.getLast? = some x ∧
      Holds c { s with vec := some w } (l.next .vecPop).1 w := by
  have positive : (0 : UInt64).toNat < v.length.toNat := UInt64.lt_iff_toNat_lt.mp nonempty
  have length := holds.length
  have less : (v.length - 1).toNat = l.items.length - 1 := by
    have one : (1 : UInt64) ≤ v.length := UInt64.le_iff_toNat_le.mpr positive
    rw [UInt64.toNat_sub_of_le _ _ one, length]
    rfl
  obtain ⟨x, last, reads⟩ := holds.load (show l.items.length - 1 < l.items.length by omega)
  refine ⟨{ v with length := v.length - 1 }, x, ?_, ?_, rfl, ?_, ?_, ?_, holds.doubled⟩
  · simp [vecPop, less, reads]
  · rw [List.getLast?_eq_getElem?, last]
  · obtain ⟨p, b, data, held, size, kept⟩ := holds.block
    refine ⟨p, b, data, held, size, ?_⟩
    change b.take l.items.dropLast.length = l.items.dropLast
    rw [List.length_dropLast, List.dropLast_eq_take, ← kept, List.take_take, kept]
    congr 1
    omega
  · change (v.length - 1).toNat = l.items.dropLast.length
    rw [less, List.length_dropLast]
  · have peaked := holds.peaked
    change l.items.dropLast.length ≤ l.peak
    rw [List.length_dropLast]
    omega

theorem vecInit_holds {s : State} {c : UInt64} {m : Malloc} (small : c.toNat * 4 < 2 ^ 64)
    (vacant : s.mem.lookup m.addr = none) :
    ∃ u v, vecInit s.mem c (some m) = .ok (u, v) ∧
      Holds c.toNat { mem := u, vec := some v } Model.start v := by
  obtain ⟨u, made, changed⟩ := malloc_ok (c * sizeofInt) vacant
  refine ⟨u, { data := some m.addr, length := 0, capacity := c }, by simp [vecInit, made], rfl,
    ⟨m.addr, _, rfl, by rw [changed, Function.update_self], ?_, rfl⟩, rfl, Nat.le_refl _, Doubled.start _⟩
  rw [length_fill, bytes_exact small]

theorem step_refines {c : Nat} (positive : 0 < c) :
    (machine.restrict Ample).Refines Model.next fun s l => ∃ v, Holds c s l v := by
  rintro s l e ⟨v, holds⟩ ⟨may, ample⟩
  cases e with
  | vecInit initialCapacity got =>
    have unborn : s.vec = none := may.1
    cases holds.vec.symm.trans unborn
  | vecPush val got =>
    obtain ⟨w, live, free⟩ := may
    cases holds.vec.symm.trans live
    obtain ⟨u, w, pushed, kept⟩ := vecPush_holds holds positive free (ample v live)
    refine ⟨{ mem := u, vec := some w }, ?_, w, kept⟩
    simp [machine, Machine.restrict, step, holds.object, pushed, Model.next]
  | vecPop =>
    obtain ⟨w, live, nonempty⟩ := may
    cases holds.vec.symm.trans live
    obtain ⟨w, x, popped, last, kept⟩ := vecPop_holds holds nonempty
    refine ⟨{ s with vec := some w }, ?_, w, kept⟩
    simp [machine, Machine.restrict, step, holds.object, popped, Model.next, last]
  | vecGet i =>
    obtain ⟨w, live, inside⟩ := may
    cases holds.vec.symm.trans live
    have below : i.toNat < l.items.length := holds.length ▸ UInt64.lt_iff_toNat_lt.mp inside
    obtain ⟨x, there, reads⟩ := holds.load below
    refine ⟨s, ?_, v, holds⟩
    simp [machine, Machine.restrict, step, holds.object, vecGet, reads, Model.next, there]
  | vecFree => exact absurd ample id

/-- What holds after `vec_init` with capacity `c` and further calls, `l` being the list. -/
structure Refined (c : Nat) (s : State) (l : Model) (v : IntVec) : Prop where
  holds : Holds c s l v
  within : v.length ≤ v.capacity
  grown : v.capacity.toNat ≠ c → v.capacity.toNat < 2 * l.peak
  calls : ∀ e, allowed s e → Ample s e → ∃ t x, step s e = .ok (t, x)

/-- Over every run after `vec_init` the vector answers as the list does, and its capacity is
the least doubling of the first one that covers the largest length so far. -/
theorem vec_refines {c : UInt64} {got : Option Malloc} {calls : List Call} {s : State}
    {vs : List (Option Int32)}
    (run : (machine.restrict Ample).Run start (.vecInit c got :: calls) vs s) :
    vs = none :: (Machine.replay Model.next Model.start calls).2 ∧
      ∃ v, Refined c.toNat s (Machine.replay Model.next Model.start calls).1 v := by
  cases run with
  | cons may now later =>
    obtain ⟨⟨-, free⟩, least, small, some_got⟩ := may
    obtain ⟨m, rfl⟩ := Option.isSome_iff_exists.mp some_got
    have positive : 0 < c.toNat := UInt64.le_iff_toNat_le.mp least
    obtain ⟨u, v, made, first⟩ := vecInit_holds (s := start) (m := m) small rfl
    have began : step start (.vecInit c (some m)) = .ok ({ mem := u, vec := some v }, none) := by
      simp [step, made]
    cases began.symm.trans now
    obtain ⟨⟨w, holds⟩, values⟩ := (step_refines positive).run later ⟨v, first⟩
    refine ⟨by rw [values], w, holds, ?_, holds.doubled.lt_two_mul, ?_⟩
    · rw [UInt64.le_iff_toNat_le, holds.length]
      exact holds.fits
    · intro e may ample
      obtain ⟨t, done, -⟩ := step_refines positive s _ e ⟨w, holds⟩ ⟨may, ample⟩
      exact ⟨t, _, done⟩

theorem vec_refines_grown : ∃ s, (machine.restrict Ample).Run start
    (.vecInit 1 (some ⟨10, fun _ => -1⟩) :: [.vecPush 5 none, .vecPush 6 (some ⟨20, fun _ => -1⟩),
      .vecPush 7 (some ⟨20, fun _ => -1⟩), .vecPop, .vecGet 1])
    [none, none, none, none, some 7, some 6] s ∧
    ([none, none, none, none, some 7, some 6] = none :: (Machine.replay Model.next Model.start
        [.vecPush 5 none, .vecPush 6 (some ⟨20, fun _ => -1⟩), .vecPush 7 (some ⟨20, fun _ => -1⟩),
          .vecPop, .vecGet 1]).2 ∧
      ∃ v, Refined (1 : UInt64).toNat s (Machine.replay Model.next Model.start
        [.vecPush 5 none, .vecPush 6 (some ⟨20, fun _ => -1⟩), .vecPush 7 (some ⟨20, fun _ => -1⟩),
          .vecPop, .vecGet 1]).1 v) :=
  Machine.exists_run (by decide) fun _ run => vec_refines run

end Syseng.CForProgrammers.IntVec
