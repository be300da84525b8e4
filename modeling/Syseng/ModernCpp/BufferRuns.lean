import Syseng.ModernCpp.BufferCalls
import Mathlib.Algebra.Order.Ring.Nat

/-! Whole runs of `Buffer` calls: as independent values, under aliasing, and with failing
allocations. -/

namespace Syseng.ModernCpp.Buffer
open Support Blocks

variable {ι : Type}

def Succeeds : Call ι → Prop
  | .sized _ _ alloc => alloc ≠ none
  | .copyConstruct _ _ alloc => alloc ≠ none
  | .copyAssign _ _ alloc => alloc ≠ none
  | _ => True

instance : (e : Call ι) → Decidable (Succeeds e)
  | .sized _ _ alloc | .copyConstruct _ _ alloc | .copyAssign _ _ alloc =>
    inferInstanceAs (Decidable (alloc ≠ none))
  | .moveConstruct .. | .moveAssign .. | .write .. | .read .. | .size .. | .resetCounters
  | .destroy .. => inferInstanceAs (Decidable True)

def Distinct : Call ι → Prop
  | .copyAssign this other _ => this ≠ other
  | .moveAssign this other => this ≠ other
  | _ => True

def isSized : Call ι → Bool
  | .sized .. => true
  | _ => false

def isCopy : Call ι → Bool
  | .copyConstruct .. => true
  | .copyAssign .. => true
  | _ => false

def isMove : Call ι → Bool
  | .moveConstruct .. => true
  | .moveAssign .. => true
  | _ => false

def bytes (view : ι → Option (Option (Entry (List UInt8)))) (x : ι) : Option (List UInt8) :=
  (view x).map contents

theorem bytes_some {s : Buffers ι} {x : ι} {h : Handle} (live : s.objs x = some h) :
    bytes s.view x = some (contents (s.view x).join) := by
  rw [bytes, view_some live]
  rfl

variable [DecidableEq ι]

/-- Each object is a list of bytes of its own. -/
def next (values : ι → Option (List UInt8)) :
    Call ι → (ι → Option (List UInt8)) × Value
  | .sized this size _ => (Function.update values this (some (List.replicate size 0)), .done)
  | .copyConstruct this other _ => (Function.update values this (values other), .done)
  | .copyAssign this other _ => (Function.update values this (values other), .done)
  | .moveConstruct this other =>
    (Function.update (Function.update values this (values other)) other (some []), .done)
  | .moveAssign this other =>
    (Function.update (Function.update values this (values other)) other (some []), .done)
  | .write this i x => (Function.update values this ((values this).map (·.set i x)), .done)
  | .read this i => (values, .byte (((values this).bind (·[i]?)).getD 0))
  | .size this => (values, .count ((values this).getD []).length)
  | .resetCounters => (values, .done)
  | .destroy this => (Function.update values this none, .done)

structure Effect (s : Buffers ι) (e : Call ι) (t : Buffers ι) (v : Value) : Prop where
  sound : Sound t.toBlocks
  values : Distinct e → bytes t.view = (next (bytes s.view) e).1 ∧ v = (next (bytes s.view) e).2
  copies : t.sCopies = if e = .resetCounters then 0 else s.sCopies + if isCopy e then 1 else 0
  moves : t.sMoves = if e = .resetCounters then 0 else s.sMoves + if isMove e then 1 else 0
  issued : t.mem.issued = s.mem.issued + if isSized e || isCopy e then 1 else 0

theorem bytes_update (view : ι → Option (Option (Entry (List UInt8)))) (x : ι)
    (block : Option (Option (Entry (List UInt8)))) :
    bytes (Function.update view x block) = Function.update (bytes view) x (block.map contents) := by
  funext y
  by_cases same : y = x
  · subst same; simp [bytes]
  · simp [bytes, same]

theorem bytes_move (view : ι → Option (Option (Entry (List UInt8)))) (this other : ι) :
    bytes (Function.update (Function.update view this (view other)) other (some none)) =
      Function.update (Function.update (bytes view) this (bytes view other)) other (some []) := by
  rw [bytes_update, bytes_update]
  rfl

theorem effect_of_becomes {s t : Buffers ι} {e : Call ι} {v : Value} {born : Nat} {gone : List Nat}
    {after : ι → Option (Option (Entry (List UInt8)))}
    (becomes : Becomes s.toBlocks t.toBlocks after born gone)
    (values : Distinct e → bytes after = (next (bytes s.view) e).1 ∧ v = (next (bytes s.view) e).2)
    (copies : t.sCopies = if e = .resetCounters then 0 else s.sCopies + if isCopy e then 1 else 0)
    (moves : t.sMoves = if e = .resetCounters then 0 else s.sMoves + if isMove e then 1 else 0)
    (made : born = if isSized e || isCopy e then 1 else 0) : Effect s e t v where
  sound := becomes.sound
  values := fun distinct => by
    rw [becomes.view]
    exact values distinct
  copies := copies
  moves := moves
  issued := by rw [becomes.issued, made]

theorem step_effect {s : Buffers ι} (sound : Sound s.toBlocks) {e : Call ι} (may : allowed s e)
    (succeeds : Succeeds e) : ∃ t v, step s e = .ok (t, v) ∧ Effect s e t v := by
  cases e with
  | sized this size alloc =>
    obtain ⟨addr, rfl⟩ := Option.ne_none_iff_exists'.mp succeeds
    have vacant : s.mem.lookup addr = none := by simpa [Table.Live] using may.2 addr rfl
    obtain ⟨b, made, becomes⟩ := sized_becomes sound size may.1 vacant
    refine ⟨_, .done, made,
      effect_of_becomes becomes (fun _ => ?_) (by simp [isCopy]) (by simp [isMove]) rfl⟩
    exact ⟨bytes_update _ _ _, rfl⟩
  | copyConstruct this other alloc =>
    obtain ⟨addr, rfl⟩ := Option.ne_none_iff_exists'.mp succeeds
    obtain ⟨src, source⟩ := Option.isSome_iff_exists.mp may.2.1
    have vacant : s.mem.lookup addr = none := by simpa [Table.Live] using may.2.2 addr rfl
    obtain ⟨b, made, becomes⟩ := copyConstruct_becomes sound may.1 source vacant
    refine ⟨_, .done, made,
      effect_of_becomes becomes (fun _ => ?_) (by simp [isCopy]) (by simp [isMove]) rfl⟩
    rw [bytes_update, next, bytes_some source]
    exact ⟨rfl, rfl⟩
  | copyAssign this other alloc =>
    obtain ⟨addr, rfl⟩ := Option.ne_none_iff_exists'.mp succeeds
    obtain ⟨cur, live⟩ := Option.isSome_iff_exists.mp may.1
    obtain ⟨src, source⟩ := Option.isSome_iff_exists.mp may.2.1
    obtain ⟨b, made, becomes⟩ := copyAssign_becomes sound live source (may.2.2 addr rfl)
    refine ⟨_, .done, made,
      effect_of_becomes becomes (fun distinct => ?_) (by simp [isCopy]) (by simp [isMove]) rfl⟩
    rw [bytes_update, copied, if_neg (Ne.symm distinct), next, bytes_some source]
    exact ⟨rfl, rfl⟩
  | moveConstruct this other =>
    obtain ⟨src, source⟩ := Option.isSome_iff_exists.mp may.2
    obtain ⟨b, moved, becomes⟩ := becomes_moveConstructed sound may.1 source
    refine ⟨{ s with toBlocks := b, sMoves := s.sMoves + 1 }, .done, by simp [step, moveConstruct, moved],
      effect_of_becomes becomes (fun _ => ?_) (by simp [isCopy]) (by simp [isMove]) rfl⟩
    exact ⟨bytes_move _ _ _, rfl⟩
  | moveAssign this other =>
    obtain ⟨cur, live⟩ := Option.isSome_iff_exists.mp may.1
    obtain ⟨src, source⟩ := Option.isSome_iff_exists.mp may.2
    obtain ⟨b, moved, becomes⟩ := becomes_moveAssigned sound live source
    refine ⟨{ s with toBlocks := b, sMoves := s.sMoves + 1 }, .done, by simp [step, moveAssign, moved],
      effect_of_becomes becomes (fun _ => ?_) (by simp [isCopy]) (by simp [isMove]) rfl⟩
    exact ⟨bytes_move _ _ _, rfl⟩
  | write this i x =>
    obtain ⟨h, live, inside⟩ := may
    obtain ⟨b, e, written, viewed, -, becomes⟩ := becomes_written sound live inside x
    refine ⟨{ s with toBlocks := b }, .done, by simp [step, written],
      effect_of_becomes becomes (fun _ => ?_) (by simp [isCopy]) (by simp [isMove]) rfl⟩
    rw [bytes_update]
    exact ⟨by simp [next, bytes, viewed, contents], rfl⟩
  | read this i =>
    obtain ⟨h, live, inside⟩ := may
    obtain ⟨e, x, viewed, there, reads⟩ := read_ok sound live inside
    refine ⟨s, .byte x, by simp [step, reads], sound, fun _ => ⟨rfl, ?_⟩, by simp [isCopy],
      by simp [isMove], by simp [isSized, isCopy]⟩
    simp [next, bytes, viewed, contents, there]
  | size this =>
    obtain ⟨h, live⟩ := Option.isSome_iff_exists.mp may
    refine ⟨s, .count h.size, by simp [step, object_some live], sound, fun _ => ⟨rfl, ?_⟩,
      by simp [isCopy], by simp [isMove], by simp [isSized, isCopy]⟩
    rw [next, bytes_some live, sound.sized this h live, view_some live]
    rfl
  | resetCounters =>
    exact ⟨resetCounters s, .done, rfl, sound, fun _ => ⟨rfl, rfl⟩, rfl, rfl, rfl⟩
  | destroy this =>
    obtain ⟨h, live⟩ := Option.isSome_iff_exists.mp may
    obtain ⟨b, gone, becomes⟩ := becomes_destroyed sound live
    refine ⟨{ s with toBlocks := b.bury this }, .done, by simp [step, destroy, gone],
      effect_of_becomes becomes (fun _ => ?_) (by simp [isCopy]) (by simp [isMove]) rfl⟩
    exact ⟨bytes_update _ _ _, rfl⟩

/-- `data_` is null with size 0, or the one pointer to a live block of exactly `size_` bytes,
and there are no other blocks. -/
structure Intact (s : Buffers ι) : Prop where
  held : ∀ x h, s.objs x = some h → h.data = none ∧ h.size = 0 ∨
    ∃ p xs, h.data = some p ∧ s.mem.lookup p = some xs ∧ xs.length = h.size
  alone : ∀ x y g h, s.objs x = some g → s.objs y = some h → g.data ≠ none → g.data = h.data → x = y
  reached : ∀ p, s.mem.Live p → ∃ x h, s.objs x = some h ∧ h.data = some p

omit [DecidableEq ι] in
theorem intact_of_sound {s : Buffers ι} (sound : Sound s.toBlocks) : Intact s := by
  constructor
  · intro x h live
    rcases sound.cases live with ⟨null, zero, -⟩ | ⟨p, e, data, found, size, -⟩
    · exact Or.inl ⟨null, zero⟩
    · exact Or.inr ⟨p, e.contents, data, lookup_of_entry found, size.symm⟩
  · exact fun x y g h => sound.alone
  · intro p live
    obtain ⟨x, member⟩ := (sound.owns.live_iff p).mp live
    cases alive : s.objs x with
    | none => simp [own_none alive] at member
    | some h => exact ⟨x, h, alive, by simpa [own_some alive] using member⟩

def Shows (s : Buffers ι) (values : ι → Option (List UInt8)) : Prop :=
  ∀ x, (s.objs x).map Handle.size = (values x).map List.length ∧
    ∀ h i, s.objs x = some h → i < h.size →
      ∃ byte, s.read x i = .ok byte ∧ (values x).bind (·[i]?) = some byte

omit [DecidableEq ι] in
theorem shows_of_sound {s : Buffers ι} (sound : Sound s.toBlocks) : Shows s (bytes s.view) := by
  intro x
  constructor
  · cases live : s.objs x with
    | none => simp [bytes, view_none live]
    | some h =>
      rw [bytes_some live, view_some live]
      exact congrArg some (sound.sized x h live)
  · intro h i live inside
    obtain ⟨e, byte, viewed, there, reads⟩ := read_ok sound live inside
    exact ⟨byte, reads, by simp [bytes, viewed, contents, there]⟩

/-- The increments of the counters do not overflow. -/
def Counts (s : Buffers ι) (e : Call ι) : Prop :=
  (isCopy e → s.sCopies.toInt < 2 ^ 31 - 1) ∧ (isMove e → s.sMoves.toInt < 2 ^ 31 - 1)

def AsValue (s : Buffers ι) (e : Call ι) : Prop := Succeeds e ∧ Distinct e ∧ Counts s e

theorem toInt_succ {n : Int32} (fits : n.toInt < 2 ^ 31 - 1) : (n + 1).toInt = n.toInt + 1 := by
  have low := n.le_toInt
  rw [Int32.toInt_add]
  apply Int.bmod_eq_of_le <;> simp <;> omega

instance : (e : Call ι) → Decidable (Distinct e)
  | .copyAssign this other _ | .moveAssign this other => inferInstanceAs (Decidable (this ≠ other))
  | .sized .. | .copyConstruct .. | .moveConstruct .. | .write .. | .read .. | .size ..
  | .resetCounters | .destroy .. => inferInstanceAs (Decidable True)

instance (s : Buffers ι) (e : Call ι) : Decidable (AsValue s e) :=
  inferInstanceAs (Decidable (Succeeds e ∧ Distinct e ∧
    (isCopy e → s.sCopies.toInt < 2 ^ 31 - 1) ∧ (isMove e → s.sMoves.toInt < 2 ^ 31 - 1)))

theorem counted {es : List (Call ι)} {vs : List Value} {s t : Buffers ι}
    (run : ((machine ι).restrict AsValue).Run s es vs t) (sound : Sound s.toBlocks)
    (going : Call.resetCounters ∉ es) :
    t.sCopies.toInt = s.sCopies.toInt + es.countP isCopy ∧
      t.sMoves.toInt = s.sMoves.toInt + es.countP isMove ∧
      t.mem.issued - t.sCopies.toInt = s.mem.issued - s.sCopies.toInt + es.countP isSized := by
  have each : ∀ (s : Buffers ι) e, Sound s.toBlocks → allowed s e ∧ AsValue s e → e ∈ es →
      ∃ t v, step s e = .ok (t, v) ∧ Sound t.toBlocks ∧
        t.sCopies.toInt = s.sCopies.toInt + (if isCopy e then 1 else 0) ∧
        t.sMoves.toInt = s.sMoves.toInt + (if isMove e then 1 else 0) ∧
        t.mem.issued - t.sCopies.toInt =
          s.mem.issued - s.sCopies.toInt + if isSized e then 1 else 0 := by
    intro s e sound may member
    obtain ⟨t, v, done, effect⟩ := step_effect sound may.1 may.2.1
    have others : e ≠ .resetCounters := fun same => going (same ▸ member)
    have copies : t.sCopies.toInt = s.sCopies.toInt + if isCopy e then 1 else 0 := by
      rw [effect.copies, if_neg others]
      by_cases copying : isCopy e = true
      · simpa [copying] using toInt_succ (may.2.2.2.1 copying)
      · simp [copying]
    have moves : t.sMoves.toInt = s.sMoves.toInt + if isMove e then 1 else 0 := by
      rw [effect.moves, if_neg others]
      by_cases moving : isMove e = true
      · simpa [moving] using toInt_succ (may.2.2.2.2 moving)
      · simp [moving]
    refine ⟨t, v, done, effect.sound, copies, moves, ?_⟩
    rw [copies, effect.issued]
    cases e <;> simp [isSized, isCopy]
    omega
  let inv := fun s : Buffers ι => Sound s.toBlocks
  refine ⟨run.counts inv sound (·.sCopies.toInt) isCopy ?_,
    run.counts inv sound (·.sMoves.toInt) isMove ?_,
    run.counts inv sound (fun s => s.mem.issued - s.sCopies.toInt) isSized ?_⟩
  · intro s e sound may member
    obtain ⟨t, v, done, kept, copies, -, -⟩ := each s e sound may member
    exact ⟨t, v, done, kept, copies⟩
  · intro s e sound may member
    obtain ⟨t, v, done, kept, -, moves, -⟩ := each s e sound may member
    exact ⟨t, v, done, kept, moves⟩
  · intro s e sound may member
    obtain ⟨t, v, done, kept, -, -, made⟩ := each s e sound may member
    exact ⟨t, v, done, kept, made⟩

theorem keeps_sound :
    ((machine ι).restrict fun _ e => Succeeds e).Keeps fun s => Sound s.toBlocks := by
  intro s e sound may
  obtain ⟨t, v, done, effect⟩ := step_effect sound may.1 may.2
  exact ⟨t, v, done, effect.sound⟩

/-- What holds between calls when every allocation succeeds. `calls` says that no call reads,
writes or deletes what is not there. -/
structure Disciplined (s : Buffers ι) : Prop where
  intact : Intact s
  calls : ∀ e, allowed s e → Succeeds e → ∃ t v, step s e = .ok (t, v)
  once : (freed s.toBlocks).Nodup
  allFreed : (∀ x, s.objs x = none) → (freed s.toBlocks).Perm (List.range s.mem.issued)

/-- An object may be copied and moved onto itself: it loses its bytes, but no block is lost,
shared or deleted twice. -/
theorem runs_disciplined {es : List (Call ι)} {vs : List Value} {s : Buffers ι}
    (run : ((machine ι).restrict fun _ e => Succeeds e).Run start es vs s) : Disciplined s := by
  have sound : Sound s.toBlocks := keeps_sound.run run sound_start
  constructor
  · exact intact_of_sound sound
  · intro e may succeeds
    obtain ⟨t, v, done, -⟩ := step_effect sound may succeeds
    exact ⟨t, v, done⟩
  · exact s.mem.released_nodup
  · exact sound.all_freed

theorem runs_disciplined_aliased : ∃ s : Buffers Bool,
    ((machine Bool).restrict fun _ e => Succeeds e).Run start
      [.sized false 2 (some 10), .copyAssign false false (some 10), .moveAssign false false,
        .moveConstruct true false, .copyAssign false false (some 10), .destroy true, .destroy false]
      [.done, .done, .done, .done, .done, .done, .done] s ∧ Disciplined s :=
  Machine.exists_run (by decide) fun _ run => runs_disciplined run

/-- No failing allocation strikes a copy assignment onto an object that holds a block. -/
def FailsSafely (s : Buffers ι) : Call ι → Prop
  | .copyAssign this _ none => ∀ h ∈ s.objs this, h.data = none
  | _ => True

instance (s : Buffers ι) : (e : Call ι) → Decidable (FailsSafely s e)
  | .copyAssign this _ none => inferInstanceAs (Decidable (∀ h ∈ s.objs this, h.data = none))
  | .copyAssign _ _ (some _) | .sized .. | .copyConstruct .. | .moveConstruct .. | .moveAssign ..
  | .write .. | .read .. | .size .. | .resetCounters | .destroy .. =>
    inferInstanceAs (Decidable True)

theorem failsSafely_sound {s : Buffers ι} (sound : Sound s.toBlocks) {e : Call ι} (may : allowed s e)
    (safe : FailsSafely s e) : ∃ t v, step s e = .ok (t, v) ∧ Sound t.toBlocks := by
  by_cases succeeds : Succeeds e
  · obtain ⟨t, v, done, effect⟩ := step_effect sound may succeeds
    exact ⟨t, v, done, effect.sound⟩
  · cases e with
    | sized this size alloc =>
      cases not_not.mp succeeds
      exact ⟨s, .threw, rfl, sound⟩
    | copyConstruct this other alloc =>
      cases not_not.mp succeeds
      exact ⟨s, .threw, rfl, sound⟩
    | copyAssign this other alloc =>
      cases not_not.mp succeeds
      obtain ⟨cur, live⟩ := Option.isSome_iff_exists.mp may.1
      obtain ⟨mem, threw, same, -⟩ := copyAssign_failed sound live other
      rw [same (safe cur live)] at threw
      exact ⟨s, .threw, threw, sound⟩
    | _ => exact absurd trivial succeeds

theorem not_intact_of_failed {s t : Buffers ι} (sound : Sound s.toBlocks) {e : Call ι} {v : Value}
    (may : allowed s e) (unsafely : ¬ FailsSafely s e) (done : step s e = .ok (t, v)) : ¬ Intact t := by
  intro intact
  cases e with
  | copyAssign this other alloc =>
    cases alloc with
    | some addr => exact unsafely trivial
    | none =>
      obtain ⟨cur, live⟩ := Option.isSome_iff_exists.mp may.1
      obtain ⟨mem, threw, -, gone⟩ := copyAssign_failed sound live other
      cases threw.symm.trans done
      rcases intact.held this cur live with ⟨null, -⟩ | ⟨p, xs, data, held, -⟩
      · refine unsafely fun h member => ?_
        cases live.symm.trans member
        exact null
      · rw [gone p data] at held
        cases held
  | _ => exact unsafely trivial

/-- Over every run whose failing allocations spare the copy assignments onto objects with a
block, all objects stay intact; and such a failure is the only thing that breaks one. -/
theorem failures_intact {es : List (Call ι)} {vs : List Value} {s : Buffers ι}
    (run : ((machine ι).restrict FailsSafely).Run start es vs s) :
    Intact s ∧
      (∀ e, allowed s e → ((∃ t v, step s e = .ok (t, v) ∧ Intact t) ↔ FailsSafely s e)) ∧
      ((∀ x, s.objs x = none) → (freed s.toBlocks).Perm (List.range s.mem.issued)) := by
  have keeps : ((machine ι).restrict FailsSafely).Keeps fun s => Sound s.toBlocks :=
    fun s e sound may => failsSafely_sound sound may.1 may.2
  have sound : Sound s.toBlocks := keeps.run run sound_start
  refine ⟨intact_of_sound sound, fun e may => ⟨?_, ?_⟩, sound.all_freed⟩
  · rintro ⟨t, v, done, intact⟩
    by_contra unsafely
    exact not_intact_of_failed sound may unsafely done intact
  · intro safe
    obtain ⟨t, v, done, kept⟩ := failsSafely_sound sound may safe
    exact ⟨t, v, done, intact_of_sound kept⟩

theorem failures_intact_spared : ∃ s : Buffers Bool,
    ((machine Bool).restrict FailsSafely).Run start
      [.sized false 1 none, .sized false 1 (some 10), .copyConstruct true false none,
        .moveConstruct true false, .copyAssign false true none, .destroy true, .destroy false]
      [.threw, .done, .threw, .done, .threw, .done, .done] s ∧
    Intact s ∧
      (∀ e, allowed s e → ((∃ t v, step s e = .ok (t, v) ∧ Intact t) ↔ FailsSafely s e)) ∧
      ((∀ x, s.objs x = none) → (freed s.toBlocks).Perm (List.range s.mem.issued)) :=
  Machine.exists_run (by decide) fun _ run => failures_intact run

/-- The block of the target is deleted by the assignment that throws, and once more by the
destructor. -/
theorem failed_assign_dangles : ∃ s : Buffers Bool, (machine Bool).Run start
    [.sized false 1 (some 10), .sized true 1 (some 20), .copyAssign false true none]
    [.done, .done, .threw] s ∧ ¬ Intact s ∧ step s (.destroy false) = .error .notLive := by
  obtain ⟨s, run, seen⟩ : ∃ s, (machine Bool).Run start
      [.sized false 1 (some 10), .sized true 1 (some 20), .copyAssign false true none]
      [.done, .done, .threw] s ∧ (s.objs false, s.mem.lookup 10) = (some ⟨some 10, 1⟩, none) :=
    Machine.exists_run_seen (fun s : Buffers Bool => (s.objs false, s.mem.lookup 10)) (by decide)
  obtain ⟨live, gone⟩ := Prod.mk.inj seen
  refine ⟨s, run, fun intact => ?_, ?_⟩
  · rcases intact.held false _ live with ⟨null, -⟩ | ⟨p, xs, data, held, -⟩
    · cases null
    · cases data
      rw [gone] at held
      cases held
  · simp [step, destroy, deleteData, object_some live, Table.free,
      Table.release_vacant gone]

end Syseng.ModernCpp.Buffer
