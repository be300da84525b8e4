import Syseng.Support.Machine
import Syseng.Support.Ownership

/-! `ScopedFd`, the wrapper of a POSIX descriptor. Wrappers share one table of open
descriptors whose numbers come back after `close`, so a stale copy of a number would
close somebody else's file. -/

namespace Syseng.ModernCpp
open Support

structure ScopedFd where
  fd : Int
  deriving DecidableEq, Repr

namespace ScopedFd

def get (w : ScopedFd) : Int := w.fd

def valid (w : ScopedFd) : Bool := w.fd != -1

def release (w : ScopedFd) : Int × ScopedFd :=
  if w.valid then (w.fd, { w with fd := -1 }) else (-1, w)

/-- The open descriptors, the live wrappers by name, and the numbers the caller took
out with `release` and has not closed. -/
structure World (ι : Type) where
  table : Table Int Unit
  wrapper : ι → Option ScopedFd
  caller : List Int

inductive Call (ι : Type) where
  | openAndWrap (this : ι) (fd : Int)
  | moveConstruct (this other : ι)
  | moveAssign (this other : ι)
  | release (this : ι)
  | callerClose (fd : Int)
  | destroy (this : ι)
  deriving DecidableEq, Repr

variable {ι : Type}

namespace World

def start : World ι := { table := .empty, wrapper := fun _ => none, caller := [] }

def object (s : World ι) (x : ι) : Except Fault ScopedFd :=
  match s.wrapper x with
  | some w => .ok w
  | none => .error .deadObject

variable [DecidableEq ι]

def set (s : World ι) (x : ι) (w : ScopedFd) : World ι :=
  { s with wrapper := Function.update s.wrapper x (some w) }

/-- `close` on a number that is not open is a fault. -/
def close (s : World ι) (fd : Int) : Except Fault (World ι) := do
  let table ← s.table.release fd
  .ok { s with table }

def openAndWrap (s : World ι) (this : ι) (fd : Int) : Except Fault (World ι) := do
  let table ← s.table.acquire fd ()
  .ok ({ s with table }.set this { fd })

def moveConstruct (s : World ι) (this other : ι) : Except Fault (World ι) := do
  let s := s.set this { fd := -1 }
  let src ← s.object other
  let s := s.set this { fd := src.fd }
  .ok (s.set other { fd := -1 })

def moveAssign (s : World ι) (this other : ι) : Except Fault (World ι) := do
  let cur ← s.object this
  let s ← (if cur.valid then s.close cur.fd else .ok s)
  let src ← s.object other
  let s := s.set this { fd := src.fd }
  .ok (s.set other { fd := -1 })

def releaseCall (s : World ι) (this : ι) : Except Fault (World ι × Int) := do
  let cur ← s.object this
  let (fd, cur) := cur.release
  .ok (s.set this cur, fd)

def destroy (s : World ι) (this : ι) : Except Fault (World ι) := do
  let cur ← s.object this
  if cur.valid then
    let (fd, cur) := cur.release
    (s.set this cur).close fd
  else .ok s

def handOver (s : World ι) (fd : Int) : World ι :=
  { s with caller := if fd = -1 then s.caller else fd :: s.caller }

def bury (s : World ι) (this : ι) : World ι := { s with wrapper := Function.update s.wrapper this none }

@[simp] theorem table_set (s : World ι) (x : ι) (w : ScopedFd) : (s.set x w).table = s.table := rfl
@[simp] theorem caller_set (s : World ι) (x : ι) (w : ScopedFd) : (s.set x w).caller = s.caller := rfl

end World

/-- `open` returns a number that is not in use, constructors run on storage that holds no
live wrapper, the other members on live ones, and the caller closes what it owns. -/
def allowed (s : World ι) : Call ι → Prop
  | .openAndWrap this fd => s.wrapper this = none ∧ 0 ≤ fd ∧ ¬ s.table.Live fd
  | .moveConstruct this other => s.wrapper this = none ∧ (s.wrapper other).isSome
  | .moveAssign this other => (s.wrapper this).isSome ∧ (s.wrapper other).isSome
  | .release this => (s.wrapper this).isSome
  | .callerClose fd => fd ∈ s.caller
  | .destroy this => (s.wrapper this).isSome

/-- Only `release` returns a number. Who owns it then, and that an object is no more when its destructor
has run, are not the work of the class. -/
def step [DecidableEq ι] (s : World ι) : Call ι → Except Fault (World ι × Option Int)
  | .openAndWrap this fd => do .ok (← s.openAndWrap this fd, none)
  | .moveConstruct this other => do .ok (← s.moveConstruct this other, none)
  | .moveAssign this other => do .ok (← s.moveAssign this other, none)
  | .release this => do
    let (s, fd) ← s.releaseCall this
    .ok (s.handOver fd, some fd)
  | .callerClose fd => do
    let s ← s.close fd
    .ok ({ s with caller := s.caller.erase fd }, none)
  | .destroy this => do .ok ((← s.destroy this).bury this, none)

def machine (ι : Type) [DecidableEq ι] : Machine (World ι) (Call ι) (Option Int) Fault where
  allowed := allowed
  step := step

instance (s : World ι) (e : Call ι) : Decidable (allowed s e) := by
  cases e <;> unfold allowed <;> infer_instance

instance [DecidableEq ι] (s : World ι) (e : Call ι) : Decidable ((machine ι).allowed s e) :=
  inferInstanceAs (Decidable (allowed s e))

def held (w : ScopedFd) : List Int := if w.fd = -1 then [] else [w.fd]

def own (s : World ι) : Option ι → List Int
  | none => s.caller
  | some x => ((s.wrapper x).map held).getD []

/-- The party on whose behalf a call may close a number. -/
def closer : Call ι → Option (Option ι)
  | .moveAssign this _ => some (some this)
  | .destroy this => some (some this)
  | .callerClose _ => some none
  | _ => none

/-- A call keeps every open number with one owner, and closes only open numbers of the
party it acts for. -/
def Kept (s t : World ι) (e : Call ι) : Prop :=
  Owns t.table (own t) ∧ ∃ closed, t.table.released = closed ++ s.table.released ∧
    ∀ c ∈ closed, s.table.Live c.1 ∧ ∃ party, closer e = some party ∧ c.1 ∈ own s party

@[simp] theorem own_table (s : World ι) (table : Table Int Unit) :
    own { s with table } = own s := rfl

theorem own_set [DecidableEq ι] (s : World ι) (x : ι) (w : ScopedFd) :
    own (s.set x w) = Function.update (own s) (some x) (held w) := by
  funext party
  cases party with
  | none => rfl
  | some y =>
    by_cases same : y = x
    · subst same; simp [own, World.set]
    · simp [own, World.set, same]

theorem own_some {s : World ι} {x : ι} {w : ScopedFd} (live : s.wrapper x = some w) :
    own s (some x) = held w := by
  simp [own, live]

theorem held_empty : held { fd := -1 } = [] := rfl

theorem held_open {fd : Int} (nonneg : 0 ≤ fd) : held { fd } = [fd] :=
  if_neg (by change fd ≠ -1; omega)

theorem valid_iff (w : ScopedFd) : w.valid = true ↔ w.fd ≠ -1 := by
  simp [valid]

theorem held_valid {w : ScopedFd} (valid : w.valid = true) : held w = [w.fd] :=
  if_neg ((valid_iff w).mp valid)

theorem held_invalid {w : ScopedFd} (invalid : ¬ w.valid = true) : held w = [] :=
  if_pos (not_not.mp (mt (valid_iff w).mpr invalid))

theorem object_some {s : World ι} {x : ι} {w : ScopedFd} (live : s.wrapper x = some w) :
    s.object x = .ok w := by
  simp [World.object, live]

theorem start_owned : Owns (World.start : World ι).table (own (World.start : World ι)) := by
  have nothing : own (World.start : World ι) = fun _ => [] := by
    funext party
    cases party <;> rfl
  rw [nothing]
  exact Owns.empty

theorem mem_own {s : World ι} {x : ι} {w : ScopedFd} (live : s.wrapper x = some w)
    (valid : w.fd ≠ -1) : w.fd ∈ own s (some x) := by
  rw [own_some live, held, if_neg valid]
  exact List.mem_singleton_self _

theorem accounted_of_owned {s : World ι} (owns : Owns s.table (own s))
    (gone : ∀ x, s.wrapper x = none) (n : Nat) (issued : n < s.table.issued) :
    (s.table.released.map Prod.snd).count n = 1 ∨ ∃ fd ∈ s.caller, s.table.issueOf fd = some n := by
  have live_iff : ∀ fd, s.table.Live fd ↔ fd ∈ s.caller := by
    intro fd
    rw [owns.live_iff]
    constructor
    · rintro ⟨party, member⟩
      cases party with
      | none => exact member
      | some x => simp [own, gone] at member
    · exact fun member => ⟨none, member⟩
  have counted := s.table.issues_perm s.caller (owns.nodup none) live_iff
  have member := counted.mem_iff.mpr (List.mem_range.mpr issued)
  rcases List.mem_append.mp member with closed | stillOpen
  · exact Or.inl (List.count_eq_one_of_mem s.table.released_nodup closed)
  · exact Or.inr (List.mem_filterMap.mp stillOpen)

variable [DecidableEq ι]

theorem own_caller (s : World ι) (table : Table Int Unit) (caller : List Int) :
    own { s with table, caller } = Function.update (own s) none caller := by
  funext party
  cases party with
  | none => simp [own]
  | some y => simp [own]

theorem own_gone (s : World ι) (table : Table Int Unit) (x : ι) :
    own { s with table, wrapper := Function.update s.wrapper x none } =
      Function.update (own s) (some x) [] := by
  funext party
  cases party with
  | none => simp [own]
  | some y =>
    by_cases same : y = x
    · subst same; simp [own]
    · simp [own, same]

theorem openAndWrap_kept {s : World ι} (owns : Owns s.table (own s)) {this : ι} {fd : Int}
    (unborn : s.wrapper this = none) (nonneg : 0 ≤ fd) (closed : ¬ s.table.Live fd) :
    ∃ t, s.openAndWrap this fd = .ok t ∧ Kept s t (.openAndWrap this fd) := by
  have vacant : s.table.lookup fd = none := by simpa [Table.Live] using closed
  obtain ⟨table, acquired, changed, -, released⟩ := Table.acquire_ok () vacant
  refine ⟨{ s with table }.set this { fd }, by simp [World.openAndWrap, acquired], ?_, [], released,
    by simp⟩
  have nothing : own s (some this) = [] := by simp [own, unborn]
  have owned := owns.acquire vacant (Table.live_acquire changed) (some this)
  rw [nothing] at owned
  rw [own_set, held_open nonneg]
  exact owned

theorem moveConstruct_kept {s : World ι} (owns : Owns s.table (own s)) {this other : ι}
    {src : ScopedFd} (unborn : s.wrapper this = none) (live : s.wrapper other = some src) :
    ∃ t, s.moveConstruct this other = .ok t ∧ Kept s t (.moveConstruct this other) := by
  have distinct : other ≠ this := by
    rintro rfl
    simp [unborn] at live
  have reads : (s.set this { fd := -1 }).object other = .ok src :=
    object_some (by simpa [World.set, distinct] using live)
  refine ⟨((s.set this { fd := -1 }).set this { fd := src.fd }).set other { fd := -1 },
    by simp [World.moveConstruct, reads], ?_, [], rfl, by simp⟩
  have nothing : own s (some this) = [] := by simp [own, unborn]
  have moved := owns.transfer (some this) (some other) nothing
  rw [own_some live] at moved
  simpa only [own_set, Function.update_idem, held_empty, World.table_set] using moved

/-- The clean-up that the destructor and move assignment share. -/
theorem close_held {s : World ι} (owns : Owns s.table (own s)) {this : ι} {w : ScopedFd}
    (live : s.wrapper this = some w) :
    ∃ table, (if w.valid then s.table.release w.fd else .ok s.table) = .ok table ∧
      Owns table (Function.update (own s) (some this) []) ∧
      ∃ closed, table.released = closed ++ s.table.released ∧
        ∀ c ∈ closed, s.table.Live c.1 ∧ c.1 ∈ own s (some this) := by
  by_cases valid : w.valid = true
  · have owned : own s (some this) = [w.fd] := (own_some live).trans (held_valid valid)
    have member : w.fd ∈ own s (some this) := by simp [owned]
    obtain ⟨_, held⟩ := owns.lookup_of_mem member
    obtain ⟨table, n, closed, changed, -, released⟩ := Table.release_ok held
    refine ⟨table, by simp [valid, closed],
      owns.release (List.Perm.of_eq owned) (Table.live_release changed), [(w.fd, n)], released, ?_⟩
    simpa [Table.Live, held] using member
  · have nothing : own s (some this) = [] := (own_some live).trans (held_invalid valid)
    refine ⟨s.table, by simp [valid], ?_, [], rfl, by simp⟩
    rw [← nothing, Function.update_eq_self]
    exact owns

theorem moveAssign_kept {s : World ι} (owns : Owns s.table (own s)) {this other : ι}
    {w src : ScopedFd} (live : s.wrapper this = some w) (source : s.wrapper other = some src) :
    ∃ t, s.moveAssign this other = .ok t ∧ Kept s t (.moveAssign this other) := by
  obtain ⟨table, cleaned, owned, closed, released, ours⟩ := close_held owns live
  have reads : ({ s with table } : World ι).object other = .ok src := object_some source
  refine ⟨({ s with table }.set this { fd := src.fd }).set other { fd := -1 },
    ?_, ?_, closed, released, fun c member => ⟨(ours c member).1, _, rfl, (ours c member).2⟩⟩
  · by_cases valid : w.valid = true
    · have closing : s.table.release w.fd = .ok table := by simpa [valid] using cleaned
      simp [World.moveAssign, object_some live, valid, World.close, closing, reads]
    · have kept : s.table = table := by simpa [valid] using cleaned
      subst kept
      simp [World.moveAssign, object_some live, valid, object_some source]
  · have moved := owned.transfer (some this) (some other) (by simp)
    rw [own_set, own_set, held_empty, own_table, World.table_set, World.table_set]
    -- the self move reads the number it has just closed, and then drops it
    by_cases same : other = this
    · subst same
      simpa using moved
    · simpa [Function.update_of_ne, same, own_some source] using moved

theorem releaseCall_kept {s : World ι} (owns : Owns s.table (own s)) {this : ι} {w : ScopedFd}
    (live : s.wrapper this = some w) :
    ∃ t fd, s.releaseCall this = .ok (t, fd) ∧ Kept s (t.handOver fd) (.release this) := by
  by_cases valid : w.valid = true
  · have owned : own s (some this) = [w.fd] := (own_some live).trans (held_valid valid)
    refine ⟨s.set this { fd := -1 }, w.fd, ?_, ?_, [], rfl, by simp⟩
    · simp [World.releaseCall, object_some live, release, valid]
    · have moved := owns.hand (Option.some_ne_none this).symm (List.Perm.of_eq owned)
      have handed : (s.set this { fd := -1 }).handOver w.fd =
          { s.set this { fd := -1 } with caller := w.fd :: s.caller } := by
        simp [World.handOver, (valid_iff w).mp valid]
      rw [handed]
      change Owns s.table (own { s.set this { fd := -1 } with caller := w.fd :: s.caller })
      rw [← World.table_set s this { fd := -1 }, own_caller, own_set]
      exact moved
  · refine ⟨s.set this w, -1, ?_, ?_, [], rfl, by simp⟩
    · simp [World.releaseCall, object_some live, release, valid]
    · change Owns s.table (own (s.set this w))
      rw [own_set, ← own_some live, Function.update_eq_self]
      exact owns

theorem callerClose_kept {s : World ι} (owns : Owns s.table (own s)) {fd : Int}
    (taken : fd ∈ s.caller) :
    ∃ t, s.close fd = .ok t ∧ Kept s { t with caller := t.caller.erase fd } (.callerClose fd) := by
  have member : fd ∈ own s none := taken
  obtain ⟨_, held⟩ := owns.lookup_of_mem member
  obtain ⟨table, n, closed, changed, -, released⟩ := Table.release_ok held
  refine ⟨{ s with table }, by simp [World.close, closed], ?_, [(fd, n)], released, ?_⟩
  · have listed : (own s none).Perm ([fd] ++ s.caller.erase fd) := List.perm_cons_erase taken
    rw [own_caller]
    exact owns.release listed (Table.live_release changed)
  · simpa [Table.Live, held, closer] using member

theorem destroy_kept {s : World ι} (owns : Owns s.table (own s)) {this : ι} {w : ScopedFd}
    (live : s.wrapper this = some w) :
    ∃ t, s.destroy this = .ok t ∧ Kept s (t.bury this) (.destroy this) := by
  obtain ⟨table, cleaned, owned, closed, released, ours⟩ := close_held owns live
  have kept : Kept s { s with table, wrapper := Function.update s.wrapper this none } (.destroy this) := by
    refine ⟨?_, closed, released, fun c member => ⟨(ours c member).1, _, rfl, (ours c member).2⟩⟩
    rw [own_gone]
    exact owned
  by_cases valid : w.valid = true
  · have closing : s.table.release w.fd = .ok table := by simpa [valid] using cleaned
    refine ⟨{ s.set this { fd := -1 } with table }, ?_, ?_⟩
    · simp [World.destroy, object_some live, release, valid, World.close, closing]
    · simpa [World.bury, World.set] using kept
  · have same : s.table = table := by simpa [valid] using cleaned
    subst same
    exact ⟨s, by simp [World.destroy, object_some live, valid], kept⟩

theorem step_kept {s : World ι} (owns : Owns s.table (own s)) {e : Call ι} (may : allowed s e) :
    ∃ t v, step s e = .ok (t, v) ∧ Kept s t e := by
  cases e with
  | openAndWrap this fd =>
    obtain ⟨t, done, kept⟩ := openAndWrap_kept owns may.1 may.2.1 may.2.2
    exact ⟨t, none, by simp [step, done], kept⟩
  | moveConstruct this other =>
    obtain ⟨src, live⟩ := Option.isSome_iff_exists.mp may.2
    obtain ⟨t, done, kept⟩ := moveConstruct_kept owns may.1 live
    exact ⟨t, none, by simp [step, done], kept⟩
  | moveAssign this other =>
    obtain ⟨w, live⟩ := Option.isSome_iff_exists.mp may.1
    obtain ⟨src, source⟩ := Option.isSome_iff_exists.mp may.2
    obtain ⟨t, done, kept⟩ := moveAssign_kept owns live source
    exact ⟨t, none, by simp [step, done], kept⟩
  | release this =>
    obtain ⟨w, live⟩ := Option.isSome_iff_exists.mp may
    obtain ⟨t, fd, done, kept⟩ := releaseCall_kept owns live
    exact ⟨t.handOver fd, some fd, by simp [step, done], kept⟩
  | callerClose fd =>
    obtain ⟨t, done, kept⟩ := callerClose_kept owns may
    exact ⟨_, none, by simp [step, done], kept⟩
  | destroy this =>
    obtain ⟨w, live⟩ := Option.isSome_iff_exists.mp may
    obtain ⟨t, done, kept⟩ := destroy_kept owns live
    exact ⟨t.bury this, none, by simp [step, done], kept⟩

theorem keeps_owned : (machine ι).Keeps fun s => Owns s.table (own s) := by
  intro s e owns may
  obtain ⟨t, v, done, kept⟩ := step_kept owns may
  exact ⟨t, v, done, kept.1⟩

/-- What holds of the wrappers and the table between calls. `calls` says that no call
faults, so every `close` finds its number open, and that a destructor or a move assignment
closes only what its own wrapper held. -/
structure Safe (s : World ι) : Prop where
  distinct : ∀ x y v w, s.wrapper x = some v → s.wrapper y = some w →
    v.fd ≠ -1 → v.fd = w.fd → x = y
  not_callers : ∀ x w, s.wrapper x = some w → w.fd ≠ -1 → w.fd ∉ s.caller
  isOpen : ∀ x w, s.wrapper x = some w → w.fd ≠ -1 → s.table.Live w.fd
  calls : ∀ e, allowed s e → ∃ t v closed, step s e = .ok (t, v) ∧
    t.table.released = closed ++ s.table.released ∧
    ∀ c ∈ closed, s.table.Live c.1 ∧ ∃ party, closer e = some party ∧ c.1 ∈ own s party
  accounted : (∀ x, s.wrapper x = none) → ∀ n < s.table.issued,
    (s.table.released.map Prod.snd).count n = 1 ∨ ∃ fd ∈ s.caller, s.table.issueOf fd = some n

/-- Over every run the wrappers and the caller share the open descriptors out among
themselves: nothing is closed twice, closed by a stale owner, or lost. -/
theorem wrappers_run_safe {es : List (Call ι)} {vs : List (Option Int)} {s : World ι}
    (run : (machine ι).Run World.start es vs s) : Safe s := by
  have owns : Owns s.table (own s) := keeps_owned.run run start_owned
  constructor
  · intro x y v w left right valid same
    have other := mem_own right (same ▸ valid)
    exact Option.some.inj (owns.apart (mem_own left valid) (same ▸ other))
  · intro x w live valid taken
    have callers : w.fd ∈ own s none := taken
    exact Option.some_ne_none x (owns.apart (mem_own live valid) callers)
  · exact fun x w live valid => (owns.live_iff _).mpr ⟨_, mem_own live valid⟩
  · intro e may
    obtain ⟨t, v, done, -, closed, released, ours⟩ := step_kept owns may
    exact ⟨t, v, closed, done, released, ours⟩
  · exact fun gone n issued => accounted_of_owned owns gone n issued

theorem wrappers_run_safe_reuse : ∃ s : World Bool, (machine Bool).Run World.start
    [.openAndWrap false 3, .moveConstruct true false, .moveAssign true true,
      .destroy false, .openAndWrap false 3, .release false]
    [none, none, none, none, none, some 3] s ∧ Safe s :=
  Machine.exists_run (by decide) fun _ run => wrappers_run_safe run

end ScopedFd
end Syseng.ModernCpp
