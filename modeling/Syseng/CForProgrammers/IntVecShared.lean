import Syseng.CForProgrammers.IntVecRuns
import Syseng.CForProgrammers.IntVecFailures

/-! Any number of vectors with their blocks in one heap, initialised, used and freed in any order. -/

namespace Syseng.CForProgrammers.IntVec
open Support

variable {ι : Type}

structure Vectors (ι : Type) where
  mem : Table Nat (List Int32)
  vecs : ι → Option IntVec

def Vectors.one (s : Vectors ι) (i : ι) : State := { mem := s.mem, vec := s.vecs i }

def Vectors.start : Vectors ι := { mem := .empty, vecs := fun _ => none }

def Ready (s : State) : Call → Prop
  | .vecFree => True
  | e => Ample s e

instance (s : State) : (e : Call) → Decidable (Ready s e)
  | .vecInit c got => inferInstanceAs (Decidable (Ample s (.vecInit c got)))
  | .vecPush val got => inferInstanceAs (Decidable (Ample s (.vecPush val got)))
  | .vecPop => inferInstanceAs (Decidable (Ample s .vecPop))
  | .vecGet i => inferInstanceAs (Decidable (Ample s (.vecGet i)))
  | .vecFree => inferInstanceAs (Decidable True)

def vectors (ι : Type) [DecidableEq ι] : Machine (Vectors ι) (ι × Call) (Option Int32) Fault where
  allowed s e := allowed (s.one e.1) e.2 ∧ Ready (s.one e.1) e.2
  step s e := do
    let (t, x) ← step (s.one e.1) e.2
    .ok ({ mem := t.mem, vecs := Function.update s.vecs e.1 t.vec }, x)

instance (ι : Type) [DecidableEq ι] (s : Vectors ι) (e : ι × Call) : Decidable ((vectors ι).allowed s e) :=
  inferInstanceAs (Decidable (allowed (s.one e.1) e.2 ∧ Ready (s.one e.1) e.2))

/-- The calls on a list that is there between `vec_init` and `vec_free`. -/
def onList (xs : Option (List Int32)) : Call → Option (List Int32) × Option Int32
  | .vecInit _ _ => (some [], none)
  | .vecPush val _ => (xs.map (· ++ [val]), none)
  | .vecPop => (xs.map List.dropLast, xs.bind List.getLast?)
  | .vecGet i => (xs, xs.bind (·[i.toNat]?))
  | .vecFree => (none, none)

def onLists [DecidableEq ι] (xs : ι → Option (List Int32)) (e : ι × Call) :
    (ι → Option (List Int32)) × Option Int32 :=
  (Function.update xs e.1 (onList (xs e.1) e.2).1, (onList (xs e.1) e.2).2)

def Tracks (s : State) : Option (List Int32) → Prop
  | none => s.vec = none
  | some xs => ∃ c l v, 0 < c ∧ Holds c s l v ∧ l.items = xs

theorem Tracks.alive {s : State} {xs : Option (List Int32)} (tracks : Tracks s xs) {v : IntVec}
    (live : s.vec = some v) : ∃ c l, 0 < c ∧ Holds c s l v ∧ xs = some l.items := by
  cases xs with
  | none => cases live.symm.trans tracks
  | some xs =>
    obtain ⟨c, l, w, positive, holds, rfl⟩ := tracks
    cases holds.vec.symm.trans live
    exact ⟨c, l, positive, holds, rfl⟩

theorem used_tracks {s : State} {c : Nat} {l : Model} {v : IntVec} {e : Call} (positive : 0 < c)
    (holds : Holds c s l v) (may : allowed s e) (ample : Ample s e)
    (same : onList (some l.items) e = (some (l.next e).1.items, (l.next e).2)) :
    ∃ t, step s e = .ok (t, (onList (some l.items) e).2) ∧ Tracks t (onList (some l.items) e).1 := by
  obtain ⟨t, done, w, kept⟩ := step_refines positive s l e ⟨v, holds⟩ ⟨may, ample⟩
  rw [same]
  exact ⟨t, done, c, (l.next e).1, w, positive, kept, rfl⟩

theorem step_tracks {s : State} {xs : Option (List Int32)} {e : Call} (tracks : Tracks s xs)
    (may : allowed s e) (ready : Ready s e) :
    ∃ t, step s e = .ok (t, (onList xs e).2) ∧ Tracks t (onList xs e).1 := by
  cases e with
  | vecInit capacity got =>
    obtain ⟨least, small, some_got⟩ := ready
    obtain ⟨m, rfl⟩ := Option.isSome_iff_exists.mp some_got
    have vacant : s.mem.lookup m.addr = none := by simpa [Table.Live] using may.2 m rfl
    obtain ⟨u, v, made, holds⟩ := vecInit_holds (s := s) small vacant
    refine ⟨{ mem := u, vec := some v }, by simp [step, made, onList], ?_⟩
    exact ⟨capacity.toNat, Model.start, v, UInt64.le_iff_toNat_le.mp least, holds, rfl⟩
  | vecPush val got =>
    obtain ⟨v, live, -⟩ := id may
    obtain ⟨c, l, positive, holds, rfl⟩ := tracks.alive live
    exact used_tracks positive holds may ready rfl
  | vecPop =>
    obtain ⟨v, live, -⟩ := id may
    obtain ⟨c, l, positive, holds, rfl⟩ := tracks.alive live
    exact used_tracks positive holds may ready rfl
  | vecGet i =>
    obtain ⟨v, live, -⟩ := id may
    obtain ⟨c, l, positive, holds, rfl⟩ := tracks.alive live
    exact used_tracks positive holds may ready rfl
  | vecFree =>
    obtain ⟨v, live⟩ := Option.isSome_iff_exists.mp may
    obtain ⟨c, l, -, holds, rfl⟩ := tracks.alive live
    obtain ⟨p, b, data, held, -⟩ := holds.block
    obtain ⟨u, n, freed, -⟩ := Table.free_ok held
    refine ⟨{ mem := u, vec := none }, ?_, rfl⟩
    simp [step, State.object, live, vecFree, data, freed, onList]

section Blocks
variable {mem u : Table Nat (List Int32)} {bytes : UInt64}

theorem malloc_replaces {got : Option Malloc} {data : Option Nat}
    (done : malloc mem bytes got = .ok (u, data)) : Replaces mem u [] data.toList := by
  cases got with
  | none =>
    cases done
    exact Replaces.refl List.nodup_nil (by simp)
  | some m =>
    obtain ⟨w, acquired, rest⟩ := bind_ok done
    cases rest
    exact Replaces.acquire acquired

theorem realloc_replaces {p data : Option Nat} {m : Malloc}
    (done : realloc mem p bytes (some m) = .ok (u, data)) : Replaces mem u p.toList data.toList := by
  cases p with
  | none =>
    have made : malloc mem bytes (some m) = .ok (u, data) := done
    exact malloc_replaces made
  | some k =>
    obtain ⟨old, -, rest⟩ := bind_ok done
    obtain ⟨w, released, rest⟩ := bind_ok rest
    obtain ⟨w', acquired, rest⟩ := bind_ok rest
    cases rest
    exact (Replaces.release released).trans (Replaces.acquire acquired)

theorem vecPush_replaces {v w : IntVec} {val : Int32} {got : Option Malloc}
    (pushed : vecPush mem v val got = .ok (u, w)) : Replaces mem u v.data.toList w.data.toList := by
  obtain ⟨mem', v', k, xs, room, data, held, stored, same⟩ := vecPush_cases pushed
  have last : Replaces mem' u v'.data.toList w.data.toList := by
    rw [data, same]
    exact Replaces.modify held stored
  rcases room with ⟨full, grown⟩ | ⟨-, rfl, rfl⟩
  · obtain ⟨data', moved, found⟩ := grow_cases grown
    cases got with
    | none => exact absurd pushed (vecPush_failed full val _)
    | some m =>
      rw [found] at last
      exact (realloc_replaces moved).trans last
  · exact last

theorem vecFree_replaces {v w : IntVec} (freed : vecFree mem v = .ok (u, w)) :
    Replaces mem u v.data.toList [] := by
  obtain ⟨u', dropped, rest⟩ := bind_ok freed
  cases rest
  cases data : v.data with
  | none =>
    rw [data] at dropped
    cases dropped
    exact Replaces.refl List.nodup_nil (by simp)
  | some k =>
    rw [data] at dropped
    exact Replaces.release dropped

end Blocks

/-- What a call on one vector does to the heap: it replaces the block of that vector. -/
theorem step_replaces {s t : State} {e : Call} {x : Option Int32} (may : allowed s e)
    (done : step s e = .ok (t, x)) (live : ∀ k ∈ own s.vec (), s.mem.Live k) :
    Replaces s.mem t.mem (own s.vec ()) (own t.vec ()) := by
  have nodup : (own s.vec ()).Nodup := by
    unfold own
    cases s.vec.bind IntVec.data <;> simp
  cases e with
  | vecInit c got =>
    obtain ⟨⟨u, v⟩, made, rest⟩ := bind_ok done
    cases rest
    obtain ⟨data, got_block, rfl⟩ := vecInit_cases made
    rw [may.1]
    exact malloc_replaces got_block
  | vecPush val got =>
    obtain ⟨v, alive, -⟩ := may
    have alive : s.vec = some v := alive
    simp only [step, State.object, alive, ok_bind] at done
    obtain ⟨⟨u, w⟩, pushed, rest⟩ := bind_ok done
    cases rest
    rw [alive]
    exact vecPush_replaces pushed
  | vecPop =>
    obtain ⟨v, alive, -⟩ := may
    have alive : s.vec = some v := alive
    simp only [step, State.object, alive, ok_bind] at done
    obtain ⟨⟨w, y⟩, popped, rest⟩ := bind_ok done
    cases rest
    obtain ⟨z, -, rest⟩ := bind_ok popped
    cases rest
    rw [alive] at live nodup ⊢
    exact Replaces.refl nodup live
  | vecGet i =>
    obtain ⟨v, -, rest⟩ := bind_ok done
    obtain ⟨y, -, rest⟩ := bind_ok rest
    cases rest
    exact Replaces.refl nodup live
  | vecFree =>
    obtain ⟨v, alive⟩ := Option.isSome_iff_exists.mp may
    simp only [step, State.object, alive, ok_bind] at done
    obtain ⟨⟨u, w⟩, freed, rest⟩ := bind_ok done
    cases rest
    rw [alive]
    exact vecFree_replaces freed

theorem Tracks.spared {s : State} {xs : Option (List Int32)} {u : Table Nat (List Int32)}
    (tracks : Tracks s xs) (same : ∀ k ∈ own s.vec (), u.lookup k = s.mem.lookup k) :
    Tracks { mem := u, vec := s.vec } xs := by
  cases xs with
  | none => exact tracks
  | some xs =>
    obtain ⟨c, l, v, positive, holds, items⟩ := tracks
    obtain ⟨p, b, data, held, rest⟩ := holds.block
    have block : u.lookup p = some b := by
      rw [same p (by simp [own, holds.vec, data]), held]
    refine ⟨c, l, v, positive, ⟨holds.vec, ⟨p, b, data, block, rest⟩, ?_, ?_, ?_⟩, items⟩
    · exact holds.length
    · exact holds.peaked
    · exact holds.doubled

/-- Each vector is its list, and each block belongs to one of the vectors. -/
structure Shared (s : Vectors ι) (xs : ι → Option (List Int32)) : Prop where
  tracks : ∀ i, Tracks (s.one i) (xs i)
  owns : Owns s.mem fun i => own (s.vecs i) ()

theorem shared_start : Shared (Vectors.start : Vectors ι) fun _ => none where
  tracks _ := rfl
  owns := Owns.empty

variable [DecidableEq ι]

theorem vectors_refines : (vectors ι).Refines onLists Shared := by
  rintro s xs ⟨i, call⟩ shared ⟨may, ready⟩
  obtain ⟨t, done, tracks⟩ := step_tracks (shared.tracks i) may ready
  have replaces := step_replaces may done fun k member => (shared.owns.live_iff k).mpr ⟨i, member⟩
  refine ⟨{ mem := t.mem, vecs := Function.update s.vecs i t.vec }, by simp [vectors, done, onLists], ?_, ?_⟩
  · intro j
    by_cases here : j = i
    · subst here
      simpa [Vectors.one, onLists] using tracks
    · have others := (shared.tracks j).spared fun k member => shared.owns.spared replaces here member
      simpa [Vectors.one, onLists, here] using others
  · have owns := shared.owns.replace replaces
    have same : (fun j => own (Function.update s.vecs i t.vec j) ()) =
        Function.update (fun j => own (s.vecs j) ()) i (own t.vec ()) := by
      funext j
      by_cases here : j = i
      · subst here
        simp
      · simp [here]
    rwa [← same] at owns

/-- The vectors are independent lists, whatever calls on others come between, no allowed call faults, and when
all of them have been freed each block has been given back once. -/
theorem vectors_refine_lists {es : List (ι × Call)} {vs : List (Option Int32)} {s : Vectors ι}
    (run : (vectors ι).Run Vectors.start es vs s) :
    vs = (Machine.replay onLists (fun _ => none) es).2 ∧
    Shared s (Machine.replay onLists (fun _ => none) es).1 ∧
    (∀ e, (vectors ι).allowed s e → ∃ t x, (vectors ι).step s e = .ok (t, x)) ∧
    ((∀ i, (Machine.replay onLists (fun _ => none) es).1 i = none) →
      (s.mem.released.map Prod.snd).Perm (List.range s.mem.issued)) := by
  obtain ⟨shared, values⟩ := vectors_refines.run run shared_start
  refine ⟨values, shared, ?_, fun freed => shared.owns.released_perm fun i => ?_⟩
  · intro e may
    obtain ⟨t, done, -⟩ := vectors_refines s _ e shared may
    exact ⟨t, _, done⟩
  · have tracks := shared.tracks i
    rw [freed i] at tracks
    have unborn : s.vecs i = none := tracks
    rw [unborn]
    rfl

def reuse : List (Bool × Call) :=
  [(false, .vecInit 1 (some ⟨10, fun _ => -1⟩)), (true, .vecInit 1 (some ⟨20, fun _ => -1⟩)),
    (false, .vecPush 5 none), (true, .vecPush 7 none), (false, .vecPush 6 (some ⟨30, fun _ => -1⟩)),
    (true, .vecPush 8 (some ⟨10, fun _ => -1⟩)), (false, .vecGet 0), (true, .vecPop), (false, .vecFree),
    (false, .vecInit 2 (some ⟨20, fun _ => -1⟩)), (true, .vecGet 0), (true, .vecFree), (false, .vecFree)]

theorem vectors_refine_lists_reuse : ∃ s, (vectors Bool).Run Vectors.start reuse
      [none, none, none, none, none, none, some 5, some 8, none, none, some 7, none, none] s ∧
    (s.mem.released.map Prod.snd).Perm (List.range s.mem.issued) := by
  have ran : ((vectors Bool).exec Vectors.start reuse).map (fun r => ((), r.2)) =
      some ((), [none, none, none, none, none, none, some 5, some 8, none, none, some 7, none, none]) := by
    decide
  obtain ⟨s, run, -⟩ := Machine.exists_run_seen (fun _ => ()) ran
  exact ⟨s, run, (vectors_refine_lists run).2.2.2 (by decide)⟩

end Syseng.CForProgrammers.IntVec
