import Syseng.CForProgrammers.IntVecRuns

/-! Where the stores and loads of the vector stay inside its block, whatever capacity it
begins with. A block has as many ints as the capacity says modulo 2^62. -/

namespace Syseng.CForProgrammers.IntVec
open Support

def Supplied (s : State) : Call → Prop
  | .vecInit _ got => got.isSome
  | .vecPush _ got => ∀ v ∈ s.vec, v.length = v.capacity → got.isSome
  | .vecFree => False
  | _ => True

/-- A full vector can be doubled, and a vector with room has a block that was not cut short. -/
def Inside (s : State) : Call → Prop
  | .vecPush _ _ => ∀ v ∈ s.vec,
    if v.length = v.capacity then 0 < v.capacity.toNat ∧ v.capacity.toNat < 2 ^ 61
    else v.length.toNat < v.capacity.toNat % 2 ^ 62
  | _ => True

instance (s : State) : (e : Call) → Decidable (Supplied s e)
  | .vecInit _ got => inferInstanceAs (Decidable (got.isSome = true))
  | .vecPush _ got => inferInstanceAs (Decidable (∀ v ∈ s.vec, v.length = v.capacity → got.isSome = true))
  | .vecPop | .vecGet _ => inferInstanceAs (Decidable True)
  | .vecFree => inferInstanceAs (Decidable False)

instance (s : State) : (e : Call) → Decidable (Inside s e)
  | .vecPush _ _ => inferInstanceAs (Decidable (∀ v ∈ s.vec,
    if v.length = v.capacity then 0 < v.capacity.toNat ∧ v.capacity.toNat < 2 ^ 61
    else v.length.toNat < v.capacity.toNat % 2 ^ 62))
  | .vecInit _ _ | .vecPop | .vecGet _ | .vecFree => inferInstanceAs (Decidable True)

structure Fits (s : State) (v : IntVec) : Prop where
  vec : s.vec = some v
  block : ∃ p b, v.data = some p ∧ s.mem.lookup p = some b ∧
    b.length = v.capacity.toNat % 2 ^ 62 ∧ v.length.toNat ≤ b.length

theorem Fits.object {s : State} {v : IntVec} (fits : Fits s v) : s.object = .ok v := by
  simp [State.object, fits.vec]

theorem bytes_mod (c : UInt64) : (c * sizeofInt).toNat / 4 = c.toNat % 2 ^ 62 := by
  rw [UInt64.toNat_mul, show sizeofInt.toNat = 4 from rfl]
  omega

theorem vecInit_fits {s : State} (c : UInt64) {m : Malloc} (vacant : s.mem.lookup m.addr = none) :
    ∃ u v, vecInit s.mem c (some m) = .ok (u, v) ∧ Fits { mem := u, vec := some v } v := by
  obtain ⟨u, made, changed⟩ := malloc_ok (c * sizeofInt) vacant
  refine ⟨u, { data := some m.addr, length := 0, capacity := c }, by simp [vecInit, made], rfl,
    m.addr, _, rfl, by rw [changed, Function.update_self], ?_, Nat.zero_le _⟩
  rw [length_fill, bytes_mod]

theorem store_last {mem : Table Nat (List Int32)} {v : IntVec} {p : Nat} {b : List Int32} (val : Int32)
    (data : v.data = some p) (held : mem.lookup p = some b)
    (size : b.length = v.capacity.toNat % 2 ^ 62) (inside : v.length.toNat < b.length) :
    ∃ u, mem.store v.data v.length.toNat val = .ok u ∧
      Fits { mem := u, vec := some { v with length := v.length + 1 } } { v with length := v.length + 1 } := by
  have small := v.length.toNat_lt
  have next : (v.length + 1).toNat ≤ v.length.toNat + 1 := by
    rw [UInt64.toNat_add]
    exact Nat.mod_le _ _
  obtain ⟨u, stored, changed, -⟩ := Table.modify_ok (·.set v.length.toNat val) held
  refine ⟨u, by rw [data, Table.store_ok held inside, stored], rfl, p, _, data,
    by rw [changed, Function.update_self], ?_, ?_⟩
  · rw [List.length_set, size]
  · rw [List.length_set]
    change (v.length + 1).toNat ≤ b.length
    omega

theorem grow_moves {s : State} {v : IntVec} {m : Malloc} (fits : Fits s v)
    (free : s.mem.Live m.addr → v.data = some m.addr) :
    ∃ u b, grow s.mem v (some m) = .ok (u, { v with data := some m.addr, capacity := v.capacity * 2 }) ∧
      u.lookup m.addr = some b ∧ b.length = (v.capacity * 2).toNat % 2 ^ 62 := by
  obtain ⟨p, b, data, held, -⟩ := fits.block
  obtain ⟨u, moved, found⟩ := realloc_ok (v.capacity * 2 * sizeofInt) held
    (fun live => Option.some.inj (data.symm.trans (free live)))
  refine ⟨u, _, ?_, found, ?_⟩
  · simp [grow, data, moved]
  · rw [length_fill, bytes_mod]

theorem doubled_room (c : Nat) : c < c * 2 % 2 ^ 64 % 2 ^ 62 ↔ 0 < c ∧ c < 2 ^ 61 := by
  omega

theorem vecPush_inside {s : State} {v : IntVec} {got : Option Malloc} (val : Int32) (fits : Fits s v)
    (free : ∀ m ∈ got, s.mem.Live m.addr → v.data = some m.addr)
    (supplied : v.length = v.capacity → got.isSome) :
    Inside s (.vecPush val got) ∧ (∃ u w, vecPush s.mem v val got = .ok (u, w) ∧
        Fits { mem := u, vec := some w } w) ∨
      ¬ Inside s (.vecPush val got) ∧ vecPush s.mem v val got = .error .outOfRange := by
  obtain ⟨p, b, data, held, size, within⟩ := fits.block
  by_cases full : v.length = v.capacity
  · obtain ⟨m, rfl⟩ := Option.isSome_iff_exists.mp (supplied full)
    obtain ⟨u, d, grown, found, twice⟩ := grow_moves fits (free m rfl)
    have same : v.length.toNat = v.capacity.toNat := congrArg UInt64.toNat full
    have room : v.length.toNat < d.length ↔ 0 < v.capacity.toNat ∧ v.capacity.toNat < 2 ^ 61 := by
      rw [twice, UInt64.toNat_mul, same]
      exact doubled_room _
    have means : Inside s (.vecPush val (some m)) ↔ v.length.toNat < d.length := by
      rw [room]
      simp [Inside, fits.vec, full]
    by_cases inside : v.length.toNat < d.length
    · obtain ⟨u', stored, next⟩ := store_last (v := { v with data := some m.addr, capacity := v.capacity * 2 })
        val rfl found twice inside
      exact Or.inl ⟨means.mpr inside, u', _, by simp only [vecPush, if_pos full, grown, ok_bind, stored], next⟩
    · have outside := Table.store_outside found inside val
      exact Or.inr ⟨fun may => inside (means.mp may), by
        simp only [vecPush, if_pos full, grown, ok_bind, outside]
        rfl⟩
  · have means : Inside s (.vecPush val got) ↔ v.length.toNat < b.length := by
      simp [Inside, fits.vec, full, size]
    by_cases inside : v.length.toNat < b.length
    · obtain ⟨u, stored, next⟩ := store_last val data held size inside
      exact Or.inl ⟨means.mpr inside, u, _, by simp [vecPush, full, stored], next⟩
    · have outside := Table.store_outside held inside val
      exact Or.inr ⟨fun may => inside (means.mp may), by simp [vecPush, full, data, outside]⟩

theorem Fits.load {s : State} {v : IntVec} (fits : Fits s v) {i : Nat} (inside : i < v.length.toNat) :
    ∃ x, s.mem.load v.data i = .ok x := by
  obtain ⟨p, b, data, held, -, within⟩ := fits.block
  have there : b[i]? = some b[i] := List.getElem?_eq_getElem (by omega)
  exact ⟨b[i], by rw [data, Table.load_ok held there]⟩

theorem vecPop_fits {s : State} {v : IntVec} (fits : Fits s v) (nonempty : 0 < v.length) :
    ∃ w x, vecPop s.mem v = .ok (w, x) ∧ Fits { s with vec := some w } w := by
  have one : (1 : UInt64) ≤ v.length := UInt64.le_iff_toNat_le.mpr (UInt64.lt_iff_toNat_lt.mp nonempty)
  have positive : (0 : UInt64).toNat < v.length.toNat := UInt64.lt_iff_toNat_lt.mp nonempty
  have less : (v.length - 1).toNat = v.length.toNat - 1 := UInt64.toNat_sub_of_le _ _ one
  have below : (v.length - 1).toNat < v.length.toNat := by
    rw [less]
    omega
  obtain ⟨x, reads⟩ := fits.load below
  obtain ⟨p, b, data, held, size, within⟩ := fits.block
  refine ⟨{ v with length := v.length - 1 }, x, by simp [vecPop, reads], rfl, p, b, data, held, size, ?_⟩
  exact Nat.le_trans (Nat.le_of_lt below) within

theorem step_inside {s : State} {v : IntVec} (fits : Fits s v) {e : Call} (may : allowed s e)
    (supplied : Supplied s e) :
    Inside s e ∧ (∃ t x, step s e = .ok (t, x) ∧ ∃ w, Fits t w) ∨
      ¬ Inside s e ∧ step s e = .error .outOfRange := by
  cases e with
  | vecInit c got => cases fits.vec.symm.trans may.1
  | vecPush val got =>
    obtain ⟨w, live, free⟩ := may
    cases fits.vec.symm.trans live
    obtain ⟨inside, u, w, pushed, next⟩ | ⟨outside, refused⟩ :=
      vecPush_inside val fits free (supplied v live)
    · exact Or.inl ⟨inside, { mem := u, vec := some w }, none, by simp [step, fits.object, pushed], w, next⟩
    · exact Or.inr ⟨outside, by simp [step, fits.object, refused]⟩
  | vecPop =>
    obtain ⟨w, live, nonempty⟩ := may
    cases fits.vec.symm.trans live
    obtain ⟨w, x, popped, next⟩ := vecPop_fits fits nonempty
    exact Or.inl ⟨trivial, { s with vec := some w }, some x, by simp [step, fits.object, popped], w, next⟩
  | vecGet i =>
    obtain ⟨w, live, below⟩ := may
    cases fits.vec.symm.trans live
    obtain ⟨x, reads⟩ := fits.load (UInt64.lt_iff_toNat_lt.mp below)
    exact Or.inl ⟨trivial, s, some x, by simp [step, fits.object, vecGet, reads], v, fits⟩
  | vecFree => exact absurd supplied id

def supplied : Machine State Call (Option Int32) Fault := machine.restrict Supplied

def insideOnly : Machine State Call (Option Int32) Fault := supplied.restrict Inside

instance (s : State) (e : Call) : Decidable (supplied.allowed s e) :=
  inferInstanceAs (Decidable (machine.allowed s e ∧ Supplied s e))

instance (s : State) (e : Call) : Decidable (insideOnly.allowed s e) :=
  inferInstanceAs (Decidable (supplied.allowed s e ∧ Inside s e))

theorem insideOnly_keeps : insideOnly.Keeps fun s => ∃ v, Fits s v := by
  rintro s e ⟨v, fits⟩ ⟨⟨may, enough⟩, inside⟩
  obtain ⟨-, t, x, done, next⟩ | ⟨outside, -⟩ := step_inside fits may enough
  · exact ⟨t, x, done, next⟩
  · exact absurd inside outside

/-- The next call addresses an int outside the block exactly when it is a push that is not
`Inside`. -/
structure Bounded (s : State) : Prop where
  inside : ∀ e, supplied.allowed s e → Inside s e → ∃ t x, step s e = .ok (t, x)
  outside : ∀ e, supplied.allowed s e → ¬ Inside s e → step s e = .error .outOfRange

theorem Fits.bounded {s : State} {v : IntVec} (fits : Fits s v) : Bounded s where
  inside e may inside := by
    obtain ⟨-, t, x, done, -⟩ | ⟨outside, -⟩ := step_inside fits may.1 may.2
    · exact ⟨t, x, done⟩
    · exact absurd inside outside
  outside e may outside := by
    obtain ⟨inside, -⟩ | ⟨-, refused⟩ := step_inside fits may.1 may.2
    · exact absurd inside outside
    · exact refused

/-- From any capacity at all: while the pushes are inside, the length is within the block and
the next call stays in it just when it is inside too. -/
theorem vec_bounded {c : UInt64} {got : Option Malloc} {calls : List Call} {s : State}
    {vs : List (Option Int32)} (run : insideOnly.Run start (.vecInit c got :: calls) vs s) :
    (∃ v, Fits s v) ∧ Bounded s := by
  cases run with
  | cons may now later =>
    obtain ⟨⟨⟨-, free⟩, some_got⟩, -⟩ := may
    obtain ⟨m, rfl⟩ := Option.isSome_iff_exists.mp some_got
    obtain ⟨u, v, made, first⟩ := vecInit_fits (s := start) c (m := m) rfl
    have began : step start (.vecInit c (some m)) = .ok ({ mem := u, vec := some v }, none) := by
      simp [step, made]
    cases began.symm.trans now
    obtain ⟨w, fits⟩ := insideOnly_keeps.run later ⟨v, first⟩
    exact ⟨⟨w, fits⟩, fits.bounded⟩

theorem vec_bounded_doubled : ∃ s, insideOnly.Run start
    (.vecInit 1 (some ⟨10, fun _ => -1⟩) :: [.vecPush 5 none, .vecPush 6 (some ⟨20, fun _ => -1⟩), .vecPop])
    [none, none, none, some 6] s ∧ (∃ v, Fits s v) ∧ Bounded s :=
  Machine.exists_run (by decide) fun _ run => vec_bounded run

/-- Twice nothing is nothing: the first push onto a vector of capacity 0. -/
theorem vecPush_outside : ∃ s, supplied.Run start [.vecInit 0 (some ⟨10, fun _ => -1⟩)] [none] s ∧
    supplied.allowed s (.vecPush 5 (some ⟨20, fun _ => -1⟩)) ∧
    step s (.vecPush 5 (some ⟨20, fun _ => -1⟩)) = .error .outOfRange := by
  obtain ⟨s, run, seen⟩ : ∃ s, supplied.Run start [.vecInit 0 (some ⟨10, fun _ => -1⟩)] [none] s ∧
      (decide (supplied.allowed s (.vecPush 5 (some ⟨20, fun _ => -1⟩))),
        match step s (.vecPush 5 (some ⟨20, fun _ => -1⟩)) with
        | .error f => some f
        | .ok _ => none) = (true, some Fault.outOfRange) :=
    Machine.exists_run_seen _ (by decide)
  obtain ⟨may, refused⟩ := Prod.mk.inj seen
  refine ⟨s, run, of_decide_eq_true may, ?_⟩
  split at refused
  · next fault same => rw [same, Option.some.inj refused]
  · cases refused

end Syseng.CForProgrammers.IntVec
