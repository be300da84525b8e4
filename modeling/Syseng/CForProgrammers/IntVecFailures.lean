import Syseng.CForProgrammers.IntVec

/-! What an allocation that returns NULL leaves of the vector. The check in `vec_push` frees
the pointer it has just overwritten, and then stores through it. -/

namespace Syseng.CForProgrammers.IntVec
open Support

def own (v : Option IntVec) (_ : Unit) : List Nat := (v.bind IntVec.data).toList

/-- No block is lost and none is gone. -/
def Owned (s : State) : Prop := Owns s.mem (own s.vec)

theorem owned_start : Owned start := Owns.empty

theorem own_data {v w : IntVec} (same : v.data = w.data) : own (some v) = own (some w) := by
  funext _
  simp [own, same]

theorem acquire_owned {mem u : Table Nat (List Int32)} {addr : Nat} {xs : List Int32}
    (owns : Owns mem (own none)) (vacant : mem.lookup addr = none)
    (acquired : mem.acquire addr xs = .ok u) (v : IntVec) :
    Owns u (own (some { v with data := some addr })) := by
  obtain ⟨w, again, changed, -⟩ := Table.acquire_ok xs vacant
  cases acquired.symm.trans again
  have owned := owns.acquire vacant (Table.live_acquire changed) ()
  rwa [Function.update_eq_const_of_subsingleton] at owned

theorem own_null {v : IntVec} (null : v.data = none) : own (some v) = own none := by
  funext _
  simp [own, null]

theorem release_owned {mem : Table Nat (List Int32)} {v : IntVec} {k : Nat}
    (owns : Owns mem (own (some v))) (data : v.data = some k) :
    ∃ b u, mem.lookup k = some b ∧ mem.release k = .ok u ∧
      u.lookup = Function.update mem.lookup k none ∧ Owns u (own none) := by
  have listed : own (some v) () = [k] := by simp [own, data]
  obtain ⟨b, held⟩ := owns.lookup_of_mem (show k ∈ own (some v) () by simp [listed])
  obtain ⟨u, n, released, dropped, -⟩ := Table.release_ok held
  have emptied := owns.release (List.Perm.of_eq listed) (Table.live_release dropped)
  rw [Function.update_eq_const_of_subsingleton] at emptied
  exact ⟨b, u, held, released, dropped, emptied⟩

theorem malloc_owned {mem u : Table Nat (List Int32)} {bytes : UInt64} {got : Option Malloc}
    {data : Option Nat} (owns : Owns mem (own none)) (vacant : ∀ m ∈ got, mem.lookup m.addr = none)
    (done : malloc mem bytes got = .ok (u, data)) (v : IntVec) :
    Owns u (own (some { v with data })) := by
  cases got with
  | none =>
    cases done
    exact owns
  | some m =>
    obtain ⟨w, acquired, rest⟩ := bind_ok done
    cases rest
    exact acquire_owned owns (vacant m rfl) acquired v

theorem realloc_owned {mem u : Table Nat (List Int32)} {v : IntVec} {bytes : UInt64} {m : Malloc}
    {data : Option Nat} (owns : Owns mem (own (some v)))
    (free : mem.Live m.addr → v.data = some m.addr)
    (done : realloc mem v.data bytes (some m) = .ok (u, data)) :
    Owns u (own (some { v with data })) := by
  cases old : v.data with
  | none =>
    rw [old] at done free
    have made : malloc mem bytes (some m) = .ok (u, data) := done
    have dead : ¬ mem.Live m.addr := fun live => by cases free live
    refine malloc_owned (own_null old ▸ owns) ?_ made v
    rintro n ⟨⟩
    simpa [Table.Live] using dead
  | some k =>
    rw [old] at done free
    obtain ⟨b, w, held, released, dropped, emptied⟩ := release_owned owns old
    simp only [realloc, Table.deref_some held, ok_bind, released] at done
    obtain ⟨w', acquired, rest⟩ := bind_ok done
    cases rest
    have vacant : w.lookup m.addr = none := by
      rw [dropped]
      by_cases same : m.addr = k
      · simp [same]
      · have dead : ¬ mem.Live m.addr := fun live => same (Option.some.inj (free live)).symm
        simpa [same, Table.Live] using dead
    exact acquire_owned emptied vacant acquired v

theorem realloc_failed {mem u : Table Nat (List Int32)} {p data : Option Nat} {bytes : UInt64}
    (done : realloc mem p bytes none = .ok (u, data)) : data = none := by
  cases p with
  | none =>
    cases done
    rfl
  | some k =>
    obtain ⟨old, -, rest⟩ := bind_ok done
    cases rest
    rfl

theorem grow_cases {mem u : Table Nat (List Int32)} {v w : IntVec} {got : Option Malloc}
    (done : grow mem v got = .ok (u, w)) :
    ∃ data, realloc mem v.data (v.capacity * 2 * sizeofInt) got = .ok (u, data) ∧ w.data = data := by
  obtain ⟨⟨mem', data⟩, moved, rest⟩ := bind_ok done
  cases data with
  | none =>
    cases rest
    exact ⟨none, moved, rfl⟩
  | some p =>
    cases rest
    exact ⟨some p, moved, rfl⟩

theorem vecInit_cases {mem u : Table Nat (List Int32)} {c : UInt64} {got : Option Malloc} {w : IntVec}
    (done : vecInit mem c got = .ok (u, w)) :
    ∃ data, malloc mem (c * sizeofInt) got = .ok (u, data) ∧
      w = { data, length := 0, capacity := c } := by
  obtain ⟨⟨mem', data⟩, made, rest⟩ := bind_ok done
  cases data with
  | none =>
    cases rest
    exact ⟨none, made, rfl⟩
  | some p =>
    cases rest
    exact ⟨some p, made, rfl⟩

theorem vecPush_cases {mem u : Table Nat (List Int32)} {v w : IntVec} {val : Int32}
    {got : Option Malloc} (done : vecPush mem v val got = .ok (u, w)) :
    ∃ mem' v' k xs, (v.length = v.capacity ∧ grow mem v got = .ok (mem', v') ∨
        v.length ≠ v.capacity ∧ mem' = mem ∧ v' = v) ∧
      v'.data = some k ∧ mem'.lookup k = some xs ∧
      mem'.modify k (·.set v'.length.toNat val) = .ok u ∧ w.data = some k := by
  obtain ⟨⟨mem', v'⟩, room, rest⟩ := bind_ok done
  obtain ⟨u', stored, rest⟩ := bind_ok rest
  cases rest
  obtain ⟨k, xs, data, held, -, changed⟩ := Table.store_cases stored
  refine ⟨mem', v', k, xs, ?_, data, held, changed, data⟩
  by_cases full : v.length = v.capacity
  · rw [if_pos full] at room
    exact Or.inl ⟨full, room⟩
  · rw [if_neg full] at room
    cases room
    exact Or.inr ⟨full, rfl, rfl⟩

/-- The failing `realloc` is always followed by a store through NULL. -/
theorem vecPush_failed {mem : Table Nat (List Int32)} {v : IntVec} (full : v.length = v.capacity)
    (val : Int32) (r : Table Nat (List Int32) × IntVec) : vecPush mem v val none ≠ .ok r := by
  intro done
  obtain ⟨mem', v', k, xs, ⟨-, grown⟩ | ⟨room, -⟩, data, -⟩ := vecPush_cases (u := r.1) (w := r.2) done
  · obtain ⟨data', failed, same⟩ := grow_cases grown
    rw [realloc_failed failed, data] at same
    cases same
  · exact room full

theorem vecPush_owned {mem u : Table Nat (List Int32)} {v w : IntVec} {val : Int32} {got : Option Malloc}
    (owns : Owns mem (own (some v))) (free : ∀ m ∈ got, mem.Live m.addr → v.data = some m.addr)
    (pushed : vecPush mem v val got = .ok (u, w)) : Owns u (own (some w)) := by
  obtain ⟨mem', v', k, xs, room, data, held, stored, same⟩ := vecPush_cases pushed
  have middle : Owns mem' (own (some v')) := by
    rcases room with ⟨full, grown⟩ | ⟨-, rfl, rfl⟩
    · obtain ⟨data', moved, found⟩ := grow_cases grown
      cases got with
      | none => exact absurd pushed (vecPush_failed full val _)
      | some m =>
        have after := realloc_owned owns (free m rfl) moved
        rwa [own_data (show _ = v'.data from found.symm)] at after
    · exact owns
  obtain ⟨u', changed, looked, -⟩ := Table.modify_ok (·.set v'.length.toNat val) held
  cases stored.symm.trans changed
  rw [own_data (same.trans data.symm)]
  exact middle.modify held looked

theorem vecFree_owned {mem u : Table Nat (List Int32)} {v w : IntVec} (owns : Owns mem (own (some v)))
    (freed : vecFree mem v = .ok (u, w)) : Owns u (own none) := by
  obtain ⟨u', dropped, rest⟩ := bind_ok freed
  cases rest
  cases data : v.data with
  | none =>
    rw [data] at dropped
    cases dropped
    rwa [own_null data] at owns
  | some k =>
    rw [data] at dropped
    obtain ⟨b, z, -, released, -, emptied⟩ := release_owned owns data
    cases released.symm.trans dropped
    exact emptied

theorem step_owned {s t : State} {e : Call} {x : Option Int32} (owned : Owned s) (may : allowed s e)
    (done : step s e = .ok (t, x)) : Owned t := by
  cases e with
  | vecInit c got =>
    obtain ⟨⟨u, v⟩, made, rest⟩ := bind_ok done
    cases rest
    obtain ⟨data, got_block, rfl⟩ := vecInit_cases made
    have nothing : Owns s.mem (own none) := by
      rw [← may.1]
      exact owned
    refine malloc_owned nothing ?_ got_block { data, length := 0, capacity := c }
    intro m member
    simpa [Table.Live] using may.2 m member
  | vecPush val got =>
    obtain ⟨v, live, free⟩ := may
    have alive : s.vec = some v := live
    simp only [step, State.object, alive, ok_bind] at done
    obtain ⟨⟨u, w⟩, pushed, rest⟩ := bind_ok done
    cases rest
    have before : Owns s.mem (own (some v)) := alive ▸ owned
    exact vecPush_owned before free pushed
  | vecPop =>
    obtain ⟨v, live, -⟩ := may
    have alive : s.vec = some v := live
    simp only [step, State.object, alive, ok_bind] at done
    obtain ⟨⟨w, y⟩, popped, rest⟩ := bind_ok done
    cases rest
    obtain ⟨z, -, rest⟩ := bind_ok popped
    cases rest
    rw [Owned, alive] at owned
    exact owned
  | vecGet i =>
    obtain ⟨v, -, rest⟩ := bind_ok done
    obtain ⟨y, -, rest⟩ := bind_ok rest
    cases rest
    exact owned
  | vecFree =>
    obtain ⟨v, live⟩ := Option.isSome_iff_exists.mp may
    simp only [step, State.object, live, ok_bind] at done
    obtain ⟨⟨u, w⟩, freed, rest⟩ := bind_ok done
    cases rest
    rw [Owned, live] at owned
    exact vecFree_owned owned freed

/-- The call asks for memory and gets NULL. -/
def Fails (s : State) : Call → Prop
  | .vecInit _ got => got.isNone
  | .vecPush _ got => got.isNone ∧ ∃ v ∈ s.vec, v.length = v.capacity
  | _ => False

/-- The vector `w` left in `t` is usable, has the elements it had in `s`, and owns every block. -/
structure Survives (s t : State) (w : IntVec) : Prop where
  vec : t.vec = some w
  within : w.length ≤ w.capacity
  block : w.capacity = 0 ∨ ∃ p b, w.data = some p ∧ t.mem.lookup p = some b ∧
    w.capacity.toNat ≤ b.length
  elements : ∀ v i x, s.vec = some v → i < v.length → vecGet s.mem v i = .ok x →
    i < w.length ∧ vecGet t.mem w i = .ok x
  reached : ∀ p, t.mem.Live p → w.data = some p

/-- An initialisation with capacity 0 survives: there is nothing to hold and nothing to lose. -/
theorem vecInit_survives {s : State} (owned : Owned s) (unborn : s.vec = none) :
    ∃ t w, step s (.vecInit 0 none) = .ok (t, none) ∧ Survives s t w := by
  refine ⟨{ s with vec := some { data := none, length := 0, capacity := 0 } }, _, rfl, rfl,
    UInt64.le_refl _, Or.inl rfl, ?_, ?_⟩
  · intro v i x live
    cases unborn.symm.trans live
  · intro p live
    obtain ⟨_, member⟩ := (owned.live_iff p).mp live
    simp [own, unborn] at member

/-- Over every run, whatever the allocations gave before: the only failing call that the
vector survives is an initialisation with capacity 0. -/
theorem failure_survived_iff {es : List Call} {vs : List (Option Int32)} {s : State}
    (run : machine.Run start es vs s) {e : Call} (may : allowed s e) (fails : Fails s e) :
    (∃ t x w, step s e = .ok (t, x) ∧ Survives s t w) ↔ e = .vecInit 0 none := by
  have owned : Owned s := run.preserves owned_start fun _ _ _ _ => step_owned
  constructor
  · rintro ⟨t, x, w, done, survives⟩
    cases e with
    | vecInit c got =>
      cases Option.isNone_iff_eq_none.mp fails
      cases done
      cases survives.vec
      rcases survives.block with zero | ⟨p, b, data, -⟩
      · exact congrArg (Call.vecInit · none) zero
      · cases data
    | vecPush val got =>
      obtain ⟨failed, v, live, full⟩ := fails
      cases Option.isNone_iff_eq_none.mp failed
      have alive : s.vec = some v := live
      simp only [step, State.object, alive, ok_bind] at done
      obtain ⟨r, pushed, -⟩ := bind_ok done
      exact absurd pushed (vecPush_failed full val r)
    | vecPop => exact absurd fails id
    | vecGet i => exact absurd fails id
    | vecFree => exact absurd fails id
  · rintro rfl
    obtain ⟨t, w, done, survives⟩ := vecInit_survives owned may.1
    exact ⟨t, none, w, done, survives⟩

theorem failure_survived_iff_full : ∃ s, machine.Run start
    [.vecInit 1 (some ⟨10, fun _ => 0⟩), .vecPush 5 none] [none, none] s ∧
    ((∃ t x w, step s (.vecPush 6 none) = .ok (t, x) ∧ Survives s t w) ↔
      Call.vecPush 6 none = .vecInit 0 none) := by
  obtain ⟨s, run, live⟩ : ∃ s, machine.Run start
      [.vecInit 1 (some ⟨10, fun _ => 0⟩), .vecPush 5 none] [none, none] s ∧
        s.vec = some ⟨some 10, 1, 1⟩ :=
    Machine.exists_run_seen State.vec (by decide)
  exact ⟨s, run, failure_survived_iff run ⟨_, live, by simp⟩ ⟨rfl, _, live, rfl⟩⟩

/-- The push stores through NULL while nobody has the old block any more, and the
initialisation claims room for one element behind NULL. -/
theorem failed_push_faults : (∃ s, machine.Run start
      [.vecInit 1 (some ⟨10, fun _ => 0⟩), .vecPush 5 none] [none, none] s ∧
      allowed s (.vecPush 6 none) ∧ Fails s (.vecPush 6 none) ∧
      step s (.vecPush 6 none) = .error .nullPointer) ∧
    ∃ t, step start (.vecInit 1 none) = .ok (t, none) ∧ ¬ ∃ w, Survives start t w := by
  constructor
  · obtain ⟨s, run, seen⟩ : ∃ s, machine.Run start
        [.vecInit 1 (some ⟨10, fun _ => 0⟩), .vecPush 5 none] [none, none] s ∧
          (s.vec, s.mem.lookup 10) = (some ⟨some 10, 1, 1⟩, some [5]) :=
      Machine.exists_run_seen (fun s : State => (s.vec, s.mem.lookup 10)) (by decide)
    obtain ⟨live, held⟩ := Prod.mk.inj seen
    refine ⟨s, run, ⟨_, live, by simp⟩, ⟨rfl, _, live, rfl⟩, ?_⟩
    simp [step, State.object, live, vecPush, grow, realloc, Table.deref_some held, vecFree,
      Table.store]
  · refine ⟨_, rfl, ?_⟩
    rintro ⟨w, survives⟩
    cases survives.vec
    rcases survives.block with zero | ⟨p, b, data, -⟩
    · cases zero
    · cases data

end Syseng.CForProgrammers.IntVec
