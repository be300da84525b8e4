import Syseng.CForProgrammers.IntVecRuns

/-! What the doublings of `int_vec_t` cost over a run of calls: the ints that `realloc` moves, and the
number of times that it is called. -/

namespace Syseng.CForProgrammers.IntVec
open Support

def grows (s : State) : Call → Bool
  | .vecPush _ _ => s.vec.any fun v => v.length == v.capacity
  | _ => false

def reallocs (s : State) (e : Call) : Nat := if grows s e then 1 else 0

/-- The ints of the block that is given to `realloc`. -/
def moved (s : State) (e : Call) : Nat :=
  if grows s e then (s.vec.map fun v => v.capacity.toNat).getD 0 else 0

def isPush : Call → Bool
  | .vecPush _ _ => true
  | _ => false

theorem step_capacity {c : Nat} (positive : 0 < c) {s t : State} {e : Call} {x : Option Int32} {l : Model}
    {v : IntVec} (holds : Holds c s l v) (may : (machine.restrict Ample).allowed s e)
    (now : (machine.restrict Ample).step s e = .ok (t, x)) :
    ∃ w, Holds c t (l.next e).1 w ∧
      w.capacity.toNat = if grows s e then v.capacity.toNat * 2 else v.capacity.toNat := by
  obtain ⟨t', stepped, w, kept⟩ := step_refines positive s l e ⟨v, holds⟩ may
  cases now.symm.trans stepped
  refine ⟨w, kept, kept.doubled.unique ?_⟩
  cases e with
  | vecPush val got =>
    have length := holds.length
    have peaked := holds.peaked
    have covered := holds.doubled.covers
    by_cases full : v.length = v.capacity
    · have tested : grows s (.vecPush val got) = true := by simp [grows, holds.vec, full]
      have filled : l.items.length = v.capacity.toNat := by rw [← length, full]
      have peak : l.peak = v.capacity.toNat := by omega
      have more : (l.next (.vecPush val got)).1.peak = v.capacity.toNat + 1 := by
        change max l.peak (l.items.length + 1) = _
        omega
      have base : 0 < v.capacity.toNat := by
        obtain ⟨k, same, -⟩ := holds.doubled
        rw [same]
        exact Nat.mul_pos positive (Nat.two_pow_pos k)
      rw [if_pos tested, more]
      exact Doubled.double (peak ▸ holds.doubled) base
    · have tested : ¬ grows s (.vecPush val got) = true := by simp [grows, holds.vec, full]
      have differs : v.length.toNat ≠ v.capacity.toNat := fun same => full (UInt64.toNat_inj.mp same)
      rw [if_neg tested]
      apply holds.doubled.keep (Nat.le_max_left _ _)
      omega
  | vecInit initialCapacity got => exact holds.doubled
  | vecPop => exact holds.doubled
  | vecGet i => exact holds.doubled
  | vecFree => exact holds.doubled

theorem replay_peak (calls : List Call) (l : Model) :
    (Machine.replay Model.next l calls).1.peak ≤ max l.peak (l.items.length + calls.countP isPush) := by
  induction calls generalizing l with
  | nil => simp
  | cons e calls ih =>
    rw [Machine.replay_cons, List.countP_cons]
    have rest := ih (l.next e).1
    cases e with
    | vecPush val got =>
      simp only [Model.next, List.length_append, List.length_singleton, isPush, if_true] at rest ⊢
      omega
    | vecPop =>
      simp only [Model.next, List.length_dropLast, isPush, Bool.false_eq_true, if_false] at rest ⊢
      omega
    | _ => exact rest

def Moved (c : Nat) (s : State) (n : Nat) : Prop := ∃ l v, Holds c s l v ∧ n + c = v.capacity.toNat

def Reallocated (c : Nat) (s : State) (n : Nat) : Prop := ∃ l v, Holds c s l v ∧ c * 2 ^ n = v.capacity.toNat

section Costs
variable {c n : Nat} {s t : State} {calls : List Call} {vs : List (Option Int32)}

theorem run_moved (positive : 0 < c) (run : (machine.restrict Ample).Run s calls vs t) (first : Moved c s n) :
    Moved c t (n + (machine.restrict Ample).tally moved s calls) := by
  apply run.tallied first
  intro s e t x n held may now
  obtain ⟨l, v, holds, spent⟩ := held
  obtain ⟨w, kept, capacity⟩ := step_capacity positive holds may now
  refine ⟨(l.next e).1, w, kept, ?_⟩
  by_cases tested : grows s e
  · rw [if_pos tested] at capacity
    simp only [moved, tested, if_true, holds.vec, Option.map_some, Option.getD_some]
    omega
  · rw [if_neg tested] at capacity
    rw [moved, if_neg tested]
    omega

theorem run_reallocs (positive : 0 < c) (run : (machine.restrict Ample).Run s calls vs t)
    (first : Reallocated c s n) :
    Reallocated c t (n + (machine.restrict Ample).tally reallocs s calls) := by
  apply run.tallied first
  intro s e t x n held may now
  obtain ⟨l, v, holds, spent⟩ := held
  obtain ⟨w, kept, capacity⟩ := step_capacity positive holds may now
  refine ⟨(l.next e).1, w, kept, ?_⟩
  by_cases tested : grows s e
  · rw [if_pos tested] at capacity
    rw [reallocs, if_pos tested, Nat.pow_succ, ← Nat.mul_assoc, spent, capacity]
  · rw [if_neg tested] at capacity
    rw [reallocs, if_neg tested, Nat.add_zero, spent, capacity]

end Costs

/-- What growing has cost, with `v` as it stands after the calls. -/
structure Amortized (c : Nat) (calls : List Call) (s : State) (v : IntVec) : Prop where
  vec : s.vec = some v
  moved_eq : (machine.restrict Ample).tally moved start calls + c = v.capacity.toNat
  reallocs_eq : c * 2 ^ (machine.restrict Ample).tally reallocs start calls = v.capacity.toNat
  moved_le : (machine.restrict Ample).tally moved start calls ≤ 2 * calls.countP isPush

theorem pushes_amortized {c : UInt64} {got : Option Malloc} {calls : List Call} {s : State}
    {vs : List (Option Int32)} (run : (machine.restrict Ample).Run start (.vecInit c got :: calls) vs s) :
    ∃ v, Amortized c.toNat (.vecInit c got :: calls) s v := by
  cases run with
  | cons may now later =>
    obtain ⟨⟨-, free⟩, least, small, some_got⟩ := may
    obtain ⟨m, rfl⟩ := Option.isSome_iff_exists.mp some_got
    have positive : 0 < c.toNat := UInt64.le_iff_toNat_le.mp least
    obtain ⟨u, v, made, first⟩ := vecInit_holds (s := start) (m := m) small rfl
    have began : step start (.vecInit c (some m)) = .ok ({ mem := u, vec := some v }, none) := by
      simp [step, made]
    cases began.symm.trans now
    have begun : v.capacity.toNat = c.toNat := first.doubled.unique (.start c.toNat)
    obtain ⟨⟨w, holds⟩, -⟩ := (step_refines positive).run later ⟨v, first⟩
    have unmoved : Moved c.toNat { mem := u, vec := some v } 0 := ⟨_, v, first, by omega⟩
    have unchanged : Reallocated c.toNat { mem := u, vec := some v } 0 := ⟨_, v, first, by simp [begun]⟩
    obtain ⟨l', w', holds', moves⟩ := run_moved positive later unmoved
    obtain ⟨l'', w'', holds'', grown⟩ := run_reallocs positive later unchanged
    cases holds.vec.symm.trans holds'.vec
    cases holds.vec.symm.trans holds''.vec
    have tallied (cost : State → Call → Nat) (free : cost start (.vecInit c (some m)) = 0) :
        (machine.restrict Ample).tally cost start (.vecInit c (some m) :: calls) =
          (machine.restrict Ample).tally cost { mem := u, vec := some v } calls := by
      rw [Machine.tally, free, now, Nat.zero_add]
    rw [Nat.zero_add] at moves grown
    refine ⟨w, holds.vec, by rw [tallied _ rfl, moves], by rw [tallied _ rfl, grown], ?_⟩
    rw [tallied _ rfl, List.countP_cons]
    have pushes := replay_peak calls Model.start
    have doubled := holds.doubled.lt_two_mul
    rw [← moves] at doubled
    change _ ≤ max 0 (0 + calls.countP isPush) at pushes
    by_cases still : (machine.restrict Ample).tally moved { mem := u, vec := some v } calls = 0
    · omega
    · have twice := doubled (by omega)
      omega

theorem pushes_amortized_grown : ∃ s, (machine.restrict Ample).Run start
    (.vecInit 1 (some ⟨10, fun _ => -1⟩) :: [.vecPush 5 none, .vecPush 6 (some ⟨20, fun _ => -1⟩),
      .vecPush 7 (some ⟨30, fun _ => -1⟩), .vecPop]) [none, none, none, none, some 7] s ∧
    ∃ v, Amortized (1 : UInt64).toNat
      (.vecInit 1 (some ⟨10, fun _ => -1⟩) :: [.vecPush 5 none, .vecPush 6 (some ⟨20, fun _ => -1⟩),
        .vecPush 7 (some ⟨30, fun _ => -1⟩), .vecPop]) s v :=
  Machine.exists_run (by decide) fun _ run => pushes_amortized run

end Syseng.CForProgrammers.IntVec
