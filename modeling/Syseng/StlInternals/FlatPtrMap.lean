import Syseng.StlInternals.ContainerBenchmark
import Syseng.Support.Machine
import Syseng.Support.Ownership
import Syseng.Support.Pointer

/-! The flat map whose values are `unique_ptr`s: who owns the `int`s on the heap, and what its lookups find
in them. -/

namespace Syseng.StlInternals.FlatPtrMap
open Support

/-- The heap, and the map from keys to pointers that are not null. -/
structure State (M : FiniteMap Int32 Nat) where
  mem : Table Nat Int32
  h : M.Carrier

inductive Call where
  /-- `h.emplace(k, std::make_unique<int>(k))`, where the new `int` is at `p` -/
  | emplace (k : Int32) (p : Nat)
  /-- `h.find(k)`, and where there is an element `*it->second` -/
  | find (k : Int32)
  deriving DecidableEq, Repr

section Code
variable {M : FiniteMap Int32 Nat}

def start : State M := { mem := .empty, h := M.empty }

/-- A pointer that the map does not take is deleted at the end of the statement. -/
def emplace (s : State M) (k : Int32) (p : Nat) : Except Fault (State M) := do
  let mem ← s.mem.acquire p k
  let h := M.emplace s.h k p
  match M.find s.h k with
  | none => .ok { mem, h }
  | some _ => do
    let mem ← mem.release p
    .ok { mem, h }

def found (s : State M) (k : Int32) : Except Fault (Option Int32) :=
  match M.find s.h k with
  | none => .ok none
  | some p => do
    let x ← s.mem.deref (some p)
    .ok (some x)

def step (s : State M) : Call → Except Fault (State M × Option Int32)
  | .emplace k p => do
    let s ← emplace s k p
    .ok (s, none)
  | .find k => do
    let x ← found s k
    .ok (s, x)

def allowed (s : State M) : Call → Prop
  | .emplace _ p => ¬ s.mem.Live p
  | .find _ => True

instance (s : State M) (e : Call) : Decidable (allowed s e) :=
  match e with
  | .emplace _ p => inferInstanceAs (Decidable (¬ s.mem.Live p))
  | .find _ => inferInstanceAs (Decidable True)

def machine (M : FiniteMap Int32 Nat) : Machine (State M) Call (Option Int32) Fault where
  allowed := allowed
  step := step

instance (s : State M) (e : Call) : Decidable ((machine M).allowed s e) :=
  inferInstanceAs (Decidable (allowed s e))

/-- The destructor of the map deletes what its elements point to. -/
def destroy (s : State M) : Except Fault (Table Nat Int32) :=
  (M.elements s.h).foldlM (fun mem e => mem.release e.2) s.mem

/-- The loop of `bench_insert_uflat_ptr`. An allocation that fails leaves it. -/
def fill (s : State M) : List (Int32 × Option Nat) → Except Fault (State M)
  | [] => .ok s
  | (_, none) :: _ => .ok s
  | (k, some p) :: keys => do
    let s ← emplace s k p
    fill s keys

def benchInsertUflatPtr (M : FiniteMap Int32 Nat) (keys : List (Int32 × Option Nat)) :
    Except Fault (Table Nat Int32) := do
  let s ← fill (start : State M) keys
  destroy s

variable {σ : Type}

def benchLookupUflatPtr (acc : Accumulator σ) (s : State M) (q : List Int32) : Except Fault σ :=
  q.foldlM (fun sum k => do
    let x ← found s k
    match x with
    | some x => acc.add sum x
    | none => .ok sum) acc.zero

def benchIterUflatPtr (acc : Accumulator σ) (s : State M) : Except Fault σ :=
  (M.elements s.h).foldlM (fun sum e => do
    let x ← s.mem.deref (some e.2)
    acc.add sum x) acc.zero

end Code

def next (keys : List Int32) : Call → List Int32 × Option Int32
  | .emplace k _ => (k :: keys, none)
  | .find k => (keys, if k ∈ keys then some k else none)

section Invariant
variable {M : FiniteMap Int32 Nat} {s t : State M} {keys : List Int32}

def owned (es : List (Int32 × Nat)) (k : Int32) : List Nat := (es.filter fun e => e.1 == k).map Prod.snd

/-- Each key that was put in has an `int` of its own, with the key in it, and there are no others. -/
structure Sound (s : State M) (keys : List Int32) : Prop where
  present : ∀ k, (M.find s.h k).isSome ↔ k ∈ keys
  holds : ∀ k p, M.find s.h k = some p → s.mem.lookup p = some k
  owns : Owns s.mem (owned (M.elements s.h))

theorem sound_start : Sound (start : State M) [] := by
  have nothing : M.elements M.empty = [] := by
    apply List.eq_nil_iff_forall_not_mem.mpr
    intro e member
    have there := (M.mem_elements M.empty e.1 e.2).mp member
    rw [M.find_empty] at there
    cases there
  refine ⟨fun k => ?_, fun k p there => ?_, ?_⟩
  · simp [start, M.find_empty]
  · rw [start, M.find_empty] at there
    cases there
  · rw [start, nothing]
    exact Owns.empty

theorem owned_elements (h : M.Carrier) : owned (M.elements h) = fun k => (M.find h k).toList := by
  funext k
  exact M.filter_elements h k

theorem found_sound (sound : Sound s keys) (k : Int32) :
    found s k = .ok (if k ∈ keys then some k else none) := by
  unfold found
  cases there : M.find s.h k with
  | none =>
    have absent : k ∉ keys := fun known => by
      have some_ := (sound.present k).mpr known
      rw [there] at some_
      cases some_
    rw [if_neg absent]
  | some p =>
    have known : k ∈ keys := (sound.present k).mp (by rw [there]; rfl)
    rw [if_pos known]
    simp [Table.deref_some (sound.holds k p there)]

theorem sound_taken (sound : Sound s keys) {k : Int32} {p : Nat} (vacant : s.mem.lookup p = none)
    (absent : M.find s.h k = none) {mem : Table Nat Int32}
    (changed : mem.lookup = Function.update s.mem.lookup p (some k)) :
    Sound { mem, h := M.emplace s.h k p } (k :: keys) := by
  have finds : M.find (M.emplace s.h k p) = Function.update (M.find s.h) k (some p) := by
    rw [M.find_emplace, absent, Option.getD_none]
  refine ⟨fun l => ?_, fun l r there => ?_, ?_⟩
  · rw [finds]
    by_cases same : l = k
    · simp [same]
    · rw [Function.update_of_ne same, sound.present l, List.mem_cons]
      exact (or_iff_right same).symm
  · rw [finds] at there
    rw [changed]
    by_cases same : l = k
    · subst same
      rw [Function.update_self] at there
      cases there
      exact Function.update_self ..
    · rw [Function.update_of_ne same] at there
      have held := sound.holds l r there
      have apart : r ≠ p := by
        rintro rfl
        rw [vacant] at held
        cases held
      rw [Function.update_of_ne apart, held]
  · have owns := sound.owns.acquire vacant (Table.live_acquire changed) k
    have after : owned (M.elements (M.emplace s.h k p)) =
        Function.update (owned (M.elements s.h)) k (p :: owned (M.elements s.h) k) := by
      rw [owned_elements, owned_elements, finds]
      funext l
      by_cases same : l = k
      · subst same
        simp [absent]
      · simp [same]
    rwa [← after] at owns

theorem sound_refused (sound : Sound s keys) {k : Int32} {p old : Nat} (there : M.find s.h k = some old)
    {mem : Table Nat Int32} (same : mem.lookup = s.mem.lookup) :
    Sound { mem, h := M.emplace s.h k p } (k :: keys) := by
  have known : k ∈ keys := (sound.present k).mp (by rw [there]; rfl)
  have finds : M.find (M.emplace s.h k p) = M.find s.h := by
    rw [M.find_emplace, there, Option.getD_some, ← there, Function.update_eq_self]
  refine ⟨fun l => ?_, fun l r at_ => ?_, ?_⟩
  · rw [finds, sound.present l, List.mem_cons]
    exact (or_iff_right_of_imp fun first => first ▸ known).symm
  · rw [finds] at at_
    rw [same]
    exact sound.holds l r at_
  · rw [owned_elements, finds, ← owned_elements]
    apply sound.owns.of_live_iff
    intro l
    rw [Table.Live, Table.Live, same]

theorem emplace_sound (sound : Sound s keys) (k : Int32) {p : Nat} (vacant : ¬ s.mem.Live p) :
    ∃ t, emplace s k p = .ok t ∧ t.h = M.emplace s.h k p ∧ Sound t (k :: keys) := by
  have free : s.mem.lookup p = none := by simpa [Table.Live] using vacant
  obtain ⟨mem, acquired, changed, -⟩ := Table.acquire_ok k free
  cases there : M.find s.h k with
  | none => exact ⟨_, by simp [emplace, acquired, there], rfl, sound_taken sound free there changed⟩
  | some old =>
    have held : mem.lookup p = some k := by rw [changed, Function.update_self]
    obtain ⟨after, _, released, dropped, -⟩ := Table.release_ok held
    have same : after.lookup = s.mem.lookup := by
      rw [dropped, changed, Function.update_idem, ← free, Function.update_eq_self]
    exact ⟨_, by simp [emplace, acquired, there, released], rfl, sound_refused sound there same⟩

theorem step_refines : (machine M).Refines next fun s keys => Sound s keys := by
  intro s keys e sound may
  cases e with
  | emplace k p =>
    obtain ⟨t, done, -, after⟩ := emplace_sound sound k may
    exact ⟨t, by simp [machine, step, done, next], after⟩
  | find k => exact ⟨s, by simp [machine, step, found_sound sound, next], sound⟩

theorem emplace_map {k : Int32} {p : Nat} (done : emplace s k p = .ok t) : t.h = M.emplace s.h k p := by
  obtain ⟨mem, -, rest⟩ := bind_ok done
  cases there : M.find s.h k with
  | none =>
    rw [there] at rest
    cases rest
    rfl
  | some old =>
    rw [there] at rest
    obtain ⟨after, -, same⟩ := bind_ok rest
    cases same
    rfl

/-- No call takes an element out, or lets it point to something else. -/
theorem step_stable {e : Call} {x : Option Int32} (now : (machine M).step s e = .ok (t, x)) {k : Int32}
    {p : Nat} (there : M.find s.h k = some p) : M.find t.h k = some p := by
  cases e with
  | emplace l r =>
    obtain ⟨u, done, same⟩ := bind_ok now
    cases same
    rw [emplace_map done, M.find_emplace]
    by_cases atL : k = l
    · subst atL
      rw [Function.update_self, there, Option.getD_some]
    · rw [Function.update_of_ne atL, there]
  | find l =>
    obtain ⟨y, -, same⟩ := bind_ok now
    cases same
    exact there

theorem release_all {es : List (Int32 × Nat)} {mem : Table Nat Int32} (owns : Owns mem (owned es)) :
    ∃ after, es.foldlM (fun mem e => mem.release e.2) mem = .ok after ∧
      Owns after (fun _ : Int32 => []) ∧ after.issued = mem.issued := by
  induction es generalizing mem with
  | nil => exact ⟨mem, rfl, owns, rfl⟩
  | cons e es ih =>
    have listed : owned (e :: es) e.1 = [e.2] ++ owned es e.1 := by simp [owned]
    have member : e.2 ∈ owned (e :: es) e.1 := by rw [listed]; exact List.mem_cons_self
    obtain ⟨x, held⟩ := owns.lookup_of_mem member
    obtain ⟨u, _, released, dropped, issued, -⟩ := Table.release_ok held
    have rest := owns.release (List.Perm.of_eq listed) (Table.live_release dropped)
    have after : Function.update (owned (e :: es)) e.1 (owned es e.1) = owned es := by
      funext k
      by_cases same : k = e.1
      · subst same
        rw [Function.update_self]
      · rw [Function.update_of_ne same]
        simp [owned, Ne.symm same]
    rw [after] at rest
    obtain ⟨v, done, empty, count⟩ := ih rest
    refine ⟨v, ?_, empty, by rw [count, issued]⟩
    rw [List.foldlM_cons, released]
    exact done

theorem destroy_sound (sound : Sound s keys) :
    ∃ after, destroy s = .ok after ∧ (∀ p, ¬ after.Live p) ∧
      (after.released.map Prod.snd).Perm (List.range after.issued) := by
  obtain ⟨after, done, owns, -⟩ := release_all sound.owns
  refine ⟨after, done, fun p live => ?_, owns.released_perm fun _ => rfl⟩
  obtain ⟨k, member⟩ := (owns.live_iff p).mp live
  cases member

end Invariant

section Runs
variable {M : FiniteMap Int32 Nat} {s t : State M} {calls more : List Call} {xs ys : List (Option Int32)}

/-- Over every run the map finds what was put in. A pointer that it has given out stays good for the rest
of the run, and its destructor deletes each `int` once. -/
theorem pointers_stay (first : (machine M).Run start calls xs s) (later : (machine M).Run s more ys t) :
    xs ++ ys = (Machine.replay next [] (calls ++ more)).2 ∧
    (∀ k p, M.find s.h k = some p → M.find t.h k = some p ∧ t.mem.deref (some p) = .ok k) ∧
    ∃ after, destroy t = .ok after ∧ (∀ p, ¬ after.Live p) ∧
      (after.released.map Prod.snd).Perm (List.range after.issued) := by
  obtain ⟨sound, values⟩ := step_refines.run (first.append later) sound_start
  refine ⟨values, fun k p there => ?_, destroy_sound sound⟩
  have same : M.find t.h k = some p :=
    later.preserves there fun s e t x held _ now => step_stable now held
  exact ⟨same, Table.deref_some (sound.holds k p same)⟩

theorem pointers_stay_reused :
    let M := FiniteMap.associationList Int32 Nat
    ∃ s t xs ys, (machine M).Run start [.emplace 7 10] xs s ∧
      (machine M).Run s [.emplace 7 20, .emplace 9 20, .find 7, .find 8] ys t ∧
      xs ++ ys = [none, none, none, some 7, none] ∧
      ∀ k p, M.find s.h k = some p → M.find t.h k = some p ∧ t.mem.deref (some p) = .ok k := by
  intro M
  have ran : ((machine M).exec start
      ([.emplace 7 10] ++ [.emplace 7 20, .emplace 9 20, .find 7, .find 8])).map (fun r => ((), r.2)) =
      some ((), [none, none, none, some 7, none]) := by decide
  obtain ⟨t, run, -⟩ := Machine.exists_run_seen (fun _ => ()) ran
  obtain ⟨xs, s, ys, first, later, same⟩ := run.split
  exact ⟨s, t, xs, ys, first, later, same.symm, (pointers_stay first later).2.1⟩

def puts : List (Int32 × Option Nat) → List Call
  | [] => []
  | (_, none) :: _ => []
  | (k, some p) :: keys => .emplace k p :: puts keys

theorem fill_run {keys : List (Int32 × Option Nat)} (run : (machine M).Run s (puts keys) xs t) :
    fill s keys = .ok t := by
  induction keys generalizing s xs with
  | nil =>
    cases run
    rfl
  | cons e keys ih =>
    obtain ⟨k, got⟩ := e
    cases got with
    | none =>
      cases run
      rfl
    | some p =>
      cases run with
      | cons may now later =>
        obtain ⟨u, done, same⟩ := bind_ok now
        cases same
        rw [fill, done]
        exact ih later

theorem insert_deletes {keys : List (Int32 × Option Nat)} (run : (machine M).Run start (puts keys) xs t) :
    ∃ after, benchInsertUflatPtr M keys = .ok after ∧ (∀ p, ¬ after.Live p) ∧
      (after.released.map Prod.snd).Perm (List.range after.issued) := by
  obtain ⟨sound, -⟩ := step_refines.run run sound_start
  rw [benchInsertUflatPtr, fill_run run]
  exact destroy_sound sound

end Runs

section Agreement
variable {M : FiniteMap Int32 Nat} {s : State M} {keys : List Int32} {σ : Type}

theorem lookups_sound (acc : Accumulator σ) (sound : Sound s keys) (q : List Int32) :
    benchLookupUflatPtr acc s q =
      ContainerBenchmark.lookupLoop acc (fun k => if k ∈ keys then some k else none) q := by
  unfold benchLookupUflatPtr ContainerBenchmark.lookupLoop
  congr 1
  funext sum k
  rw [found_sound sound]
  rfl

theorem deref_total (acc : Accumulator σ) {mem : Table Nat Int32} {es : List (Int32 × Nat)}
    (holds : ∀ e ∈ es, mem.lookup e.2 = some e.1) (sum : σ) :
    es.foldlM (fun sum e => do
      let x ← mem.deref (some e.2)
      acc.add sum x) sum = (es.map Prod.fst).foldlM acc.add sum := by
  induction es generalizing sum with
  | nil => rfl
  | cons e es ih =>
    obtain ⟨first, rest⟩ := List.forall_mem_cons.mp holds
    rw [List.foldlM_cons, Table.deref_some first, List.map_cons, List.foldlM_cons]
    congr 1
    funext sum
    exact ih rest sum

theorem iter_sound (acc : Accumulator σ) (sound : Sound s keys) :
    benchIterUflatPtr acc s = acc.total ((M.elements s.h).map Prod.fst) := by
  apply deref_total
  intro e member
  exact sound.holds e.1 e.2 ((M.mem_elements s.h e.1 e.2).mp member)

theorem keys_perm {U : FiniteMap Int32 Int32} {u : U.Carrier} (sound : Sound s keys)
    (reflects : U.Reflects u keys) : ((M.elements s.h).map Prod.fst).Perm ((U.elements u).map Prod.snd) := by
  have values : (U.elements u).map Prod.snd = (U.elements u).map Prod.fst := by
    apply List.map_congr_left
    intro e member
    have there := (U.mem_elements u e.1 e.2).mp member
    rw [reflects e.1] at there
    split at there
    · exact (Option.some.inj there).symm
    · cases there
  rw [values]
  apply (List.perm_ext_iff_of_nodup (M.keys_nodup s.h) (U.keys_nodup u)).mpr
  intro k
  have left : k ∈ (M.elements s.h).map Prod.fst ↔ k ∈ keys := by
    rw [← sound.present k, Option.isSome_iff_exists]
    simp [M.mem_elements]
  have right : k ∈ (U.elements u).map Prod.fst ↔ k ∈ keys := by
    simp [U.mem_elements, reflects k]
  rw [left, right]

def emplaces (keys : List (Int32 × Nat)) : List Call := keys.map fun e => .emplace e.1 e.2

theorem replay_emplaces (keys : List (Int32 × Nat)) (seen : List Int32) :
    (Machine.replay next seen (emplaces keys)).1 = (keys.map Prod.fst).reverse ++ seen := by
  induction keys generalizing seen with
  | nil => rfl
  | cons e keys ih =>
    have rest := ih (e.1 :: seen)
    simpa [emplaces, next] using rest

/-- After the same keys the lookups end as those of the map of `int`s, whatever holds their sum, and the
iterations have the same exact sum. -/
theorem ptr_map_agrees (U : FiniteMap Int32 Int32) (acc : Accumulator σ) {keys : List (Int32 × Nat)}
    {xs : List (Option Int32)} (run : (machine M).Run start (emplaces keys) xs s) (q : List Int32) :
    benchLookupUflatPtr acc s q =
      ContainerBenchmark.benchLookupUflat acc U (U.emplaceAll (keys.map Prod.fst)) q ∧
    benchIterUflatPtr .exact s =
      ContainerBenchmark.benchIterUflat .exact U (U.emplaceAll (keys.map Prod.fst)) := by
  obtain ⟨sound, -⟩ := step_refines.run run sound_start
  have reflects : U.Reflects (U.emplaceAll (keys.map Prod.fst)) (Machine.replay next [] (emplaces keys)).1 := by
    intro k
    rw [U.emplaceAll_reflects _ k, replay_emplaces]
    apply if_congr _ rfl rfl
    simp
  constructor
  · have finds := funext reflects
    rw [lookups_sound acc sound, ContainerBenchmark.benchLookupUflat, finds]
  · rw [iter_sound .exact sound, ContainerBenchmark.benchIterUflat, Accumulator.total_exact,
      Accumulator.total_exact, Accumulator.sum_perm (keys_perm sound reflects)]

theorem ptr_map_agrees_twice : ∃ s : State (FiniteMap.associationList Int32 Nat),
    (machine _).Run start (emplaces [(7, 10), (7, 20), (-9, 20)]) [none, none, none] s ∧
    benchLookupUflatPtr .int s [7, 8, -9, 7] =
      ContainerBenchmark.benchLookupUflat .int (FiniteMap.associationList Int32 Int32)
        ((FiniteMap.associationList Int32 Int32).emplaceAll [7, 7, -9]) [7, 8, -9, 7] :=
  Machine.exists_run (by decide) fun _ run => (ptr_map_agrees _ .int run _).1

end Agreement
end Syseng.StlInternals.FlatPtrMap
