import Syseng.Support.Scopes
import Syseng.ModernCpp.ScopedFd
import Syseng.ModernCpp.UniqueBuffer
import Syseng.ModernCpp.BufferRuns

/-! Blocks of code whose locals are `ScopedFd`s, `UniqueBuffer`s or `Buffer`s: no manual clean-up,
and nothing is left behind by a return or an exception. -/

namespace Syseng.ModernCpp
open Support Scopes

variable {ι : Type} [DecidableEq ι]

section Updates
variable {β : Type} {f : ι → Option β} {x : ι}

theorem isSome_set (b : β) (y : ι) :
    (Function.update f x (some b) y).isSome = true ↔ x = y ∨ (f y).isSome = true := by
  by_cases same : y = x
  · subst same; simp
  · simp [same, Ne.symm same]

theorem isSome_reset {b : β} (there : (f x).isSome = true) (y : ι) :
    (Function.update f x (some b) y).isSome = true ↔ (f y).isSome = true := by
  by_cases same : y = x
  · subst same; simp [there]
  · simp [same]

theorem isSome_gone (y : ι) :
    (Function.update f x none y).isSome = true ↔ x ≠ y ∧ (f y).isSome = true := by
  by_cases same : y = x
  · subst same; simp
  · simp [same, Ne.symm same]

theorem isSome_moved {a b : β} {z : ι} (there : (f z).isSome = true) (y : ι) :
    (Function.update (Function.update f x (some a)) z (some b) y).isSome = true ↔
      x = y ∨ (f y).isSome = true := by
  have still : (Function.update f x (some a) z).isSome = true := (isSome_set a z).mpr (Or.inr there)
  rw [isSome_reset still, isSome_set]

end Updates

namespace ScopedFd

def objects (ι : Type) : Objects (Call ι) (Option Int) ι where
  makes
    | .openAndWrap this _ => some this
    | .moveConstruct this _ => some this
    | _ => none
  ended
    | .destroy this => some this
    | _ => none
  destroy := .destroy
  throws _ := false
  ended_destroy _ := rfl
  makes_destroy _ := rfl
  ended_of_makes {e _} makes := by
    cases e with
    | destroy this => cases makes
    | _ => rfl

def live (s : World ι) (x : ι) : Prop := (s.wrapper x).isSome = true

omit [DecidableEq ι] in
theorem close_wrapper {s t : World ι} {fd : Int} (closed : s.close fd = .ok t) : t.wrapper = s.wrapper := by
  obtain ⟨table, -, result⟩ := bind_ok closed
  cases result
  rfl

omit [DecidableEq ι] in
theorem cleaned_wrapper {s t : World ι} {valid : Bool} {fd : Int}
    (cleaned : (if valid = true then s.close fd else .ok s) = .ok t) : t.wrapper = s.wrapper := by
  cases valid with
  | true => exact close_wrapper cleaned
  | false =>
    cases cleaned
    rfl

theorem step_lives {s t : World ι} {e : Call ι} {v : Option Int} (may : allowed s e)
    (now : step s e = .ok (t, v)) (y : ι) :
    live t y ↔ (objects ι).makes e = some y ∨ (objects ι).ended e ≠ some y ∧ live s y := by
  cases e with
  | openAndWrap this fd =>
    obtain ⟨u, opened, result⟩ := bind_ok now
    obtain ⟨table, -, wrapped⟩ := bind_ok opened
    cases result
    cases wrapped
    simpa [live, objects, World.set] using isSome_set (f := s.wrapper) { fd } y
  | moveConstruct this other =>
    obtain ⟨u, moved, result⟩ := bind_ok now
    obtain ⟨src, -, taken⟩ := bind_ok moved
    cases result
    cases taken
    simpa [live, objects, World.set] using isSome_moved (f := s.wrapper) may.2 y
  | moveAssign this other =>
    obtain ⟨u, moved, result⟩ := bind_ok now
    obtain ⟨cur, -, cleaning⟩ := bind_ok moved
    obtain ⟨cleaned, closed, taking⟩ := bind_ok cleaning
    obtain ⟨src, -, taken⟩ := bind_ok taking
    cases result
    cases taken
    have kept := cleaned_wrapper closed
    have lives := isSome_moved (x := this) (a := src) (b := { fd := -1 }) (f := s.wrapper) may.2 y
    simp only [live, objects, World.set, kept, reduceCtorEq, false_or, ne_eq, not_false_eq_true, true_and]
    rw [lives]
    exact or_iff_right_of_imp fun same => same ▸ may.1
  | release this =>
    obtain ⟨⟨u, fd⟩, released, result⟩ := bind_ok now
    obtain ⟨cur, -, emptied⟩ := bind_ok released
    cases result
    cases emptied
    simpa [live, objects, World.set, World.handOver] using isSome_reset (f := s.wrapper) may y
  | callerClose fd =>
    obtain ⟨u, closed, result⟩ := bind_ok now
    cases result
    simp [live, objects, close_wrapper closed]
  | destroy this =>
    obtain ⟨u, destroyed, result⟩ := bind_ok now
    obtain ⟨cur, -, cleaned⟩ := bind_ok destroyed
    cases result
    have buried : Function.update u.wrapper this none = Function.update s.wrapper this none := by
      cases valid : cur.valid with
      | true =>
        have emptied := close_wrapper (by simpa [valid] using cleaned)
        simp [emptied, World.set]
      | false =>
        have same : s = u := by simpa [valid] using cleaned
        rw [same]
    simpa [live, objects, World.bury, buried] using isSome_gone (f := s.wrapper) y

theorem lifetimes : Lifetimes (machine ι) (objects ι) (fun s => Owns s.table (own s)) live := by
  apply Lifetimes.of_step
  · exact fun s x _ there => there
  · intro s e x _ may makes
    cases e with
    | openAndWrap this fd =>
      cases makes
      simp [live, may.1]
    | moveConstruct this other =>
      cases makes
      simp [live, may.1]
    | _ => cases makes
  · intro s e owns may
    obtain ⟨t, v, done, kept⟩ := keeps_owned s e owns may
    refine ⟨t, v, done, kept, fun y => ?_⟩
    simpa [objects] using step_lives may done y

/-- What is left after a block, whichever way control has left it. -/
structure Swept (s t : World ι) (trace : List (Call ι × Option Int)) : Prop where
  nested : Nested ((objects ι).marks trace)
  live_iff : ∀ x, live t x ↔ live s x
  accounted : ∀ n < t.table.issued, (t.table.released.map Prod.snd).count n = 1 ∨
    (∃ fd ∈ t.caller, t.table.issueOf fd = some n) ∨
    ∃ x w, live s x ∧ t.wrapper x = some w ∧ w.fd ≠ -1 ∧ t.table.issueOf w.fd = some n

/-- A block may be entered in the middle of any run. Its wrappers die with it, the latest first, and
no `close` finds its number closed; every descriptor that was opened has been closed once, or is
with the caller or with a wrapper from outside the block. -/
theorem block_swept {es : List (Call ι)} {vs : List (Option Int)} {s : World ι}
    (run : (machine ι).Run World.start es vs s) (body : Code (Call ι) ι) (locals : List ι)
    (guarded : Guarded (machine ι) (objects ι) body s []) :
    ∃ r, exec (machine ι) (objects ι) (.block body) s locals = .ok r ∧ r.locals = locals ∧
      Swept s r.state r.trace := by
  have owns : Owns s.table (own s) := keeps_owned.run run start_owned
  obtain ⟨r, done, names, tidy⟩ := block_tidy lifetimes body owns locals guarded
  refine ⟨r, done, names, tidy.nested, tidy.live_iff, fun n issued => ?_⟩
  rcases tidy.kept.accounted n issued with closed | ⟨party, fd, member, held⟩
  · exact Or.inl closed
  · cases party with
    | none => exact Or.inr (Or.inl ⟨fd, member, held⟩)
    | some x =>
      cases there : r.state.wrapper x with
      | none => simp [own, there] at member
      | some w =>
        have before : live s x := (tidy.live_iff x).mp (by simp [live, there])
        rw [own_some there] at member
        by_cases empty : w.fd = -1
        · simp [ScopedFd.held, empty] at member
        · have same : fd = w.fd := by simpa [ScopedFd.held, empty] using member
          exact Or.inr (Or.inr ⟨x, w, before, there, empty, same ▸ held⟩)

theorem block_swept_thrown : ∃ s r, (machine Bool).Run World.start [.openAndWrap false 3] [none] s ∧
    exec (machine Bool) (objects Bool) (.block (.seq (.declare true (.openAndWrap true 4))
      (.seq (.call (.moveAssign false true)) .throw))) s [] = .ok r ∧ r.locals = [] ∧
    Swept s r.state r.trace := by
  obtain ⟨s, run, guarded⟩ : ∃ s, (machine Bool).Run World.start [.openAndWrap false 3] [none] s ∧
      decide (Guarded (machine Bool) (objects Bool) (.seq (.declare true (.openAndWrap true 4))
        (.seq (.call (.moveAssign false true)) .throw)) s []) = true :=
    Machine.exists_run_seen (fun s => decide (Guarded (machine Bool) (objects Bool) _ s [])) (by decide)
  obtain ⟨r, done, names, swept⟩ := block_swept run _ [] (of_decide_eq_true guarded)
  exact ⟨s, r, run, done, names, swept⟩

end ScopedFd

namespace Blocks
variable {α : Type}

def live (s : Blocks ι α) (x : ι) : Prop := (s.objs x).isSome = true

omit [DecidableEq ι] in
theorem live_of_becomes {s t : Blocks ι α} {after : ι → Option (Option (Entry (List α)))} {born : Nat}
    {gone : List Nat} (becomes : Becomes s t after born gone) (y : ι) :
    live t y ↔ (after y).isSome = true := by
  rw [live, ← becomes.view, view, Option.isSome_map]

omit [DecidableEq ι] in
theorem view_live {s : Blocks ι α} {y : ι} : (s.view y).isSome = true ↔ live s y := by
  rw [live, view, Option.isSome_map]

section Lives
variable {s t : Blocks ι α} {x z : ι} {e : Option (Entry (List α))} {born : Nat} {gone : List Nat}

theorem lives_set (becomes : Becomes s t (Function.update s.view x (some e)) born gone) (y : ι) :
    live t y ↔ x = y ∨ live s y := by
  rw [live_of_becomes becomes, isSome_set, view_live]

theorem lives_reset (there : live s x) (becomes : Becomes s t (Function.update s.view x (some e)) born gone)
    (y : ι) : live t y ↔ live s y := by
  rw [live_of_becomes becomes, isSome_reset (view_live.mpr there), view_live]

theorem lives_moved (there : live s z)
    (becomes : Becomes s t (Function.update (Function.update s.view x (s.view z)) z (some e)) born gone)
    (y : ι) : live t y ↔ x = y ∨ live s y := by
  obtain ⟨h, source⟩ := Option.isSome_iff_exists.mp there
  rw [live_of_becomes becomes, view_some source, isSome_moved (view_live.mpr there), view_live]

theorem lives_gone (becomes : Becomes s t (Function.update s.view x none) born gone) (y : ι) :
    live t y ↔ x ≠ y ∧ live s y := by
  rw [live_of_becomes becomes, isSome_gone, view_live]

end Lives

structure Swept {Event Value : Type} (o : Objects Event Value ι) (s t : Blocks ι α)
    (trace : List (Event × Value)) : Prop where
  nested : Nested (o.marks trace)
  live_iff : ∀ x, live t x ↔ live s x
  accounted : ∀ n < t.mem.issued, (freed t).count n = 1 ∨
    ∃ x h p, live s x ∧ t.objs x = some h ∧ h.data = some p ∧ t.mem.issueOf p = some n

omit [DecidableEq ι] in
theorem swept_of_sound {Event Value : Type} {o : Objects Event Value ι} {s t : Blocks ι α}
    {trace : List (Event × Value)} (sound : Sound t) (nested : Nested (o.marks trace))
    (live_iff : ∀ x, live t x ↔ live s x) : Swept o s t trace where
  nested := nested
  live_iff := live_iff
  accounted := by
    intro n issued
    rcases sound.owns.accounted n issued with gone | ⟨x, p, member, held⟩
    · exact Or.inl gone
    · cases there : t.objs x with
      | none => simp [own_none there] at member
      | some h =>
        have before : live s x := (live_iff x).mp (by simp [live, there])
        exact Or.inr ⟨x, h, p, before, there, by simpa [own_some there] using member, held⟩

end Blocks

namespace UniqueBuffer
open Blocks
variable {α : Type}

def objects (ι α : Type) : Objects (Call ι α) (Option α) ι where
  makes
    | .construct this _ _ _ => some this
    | .moveConstruct this _ => some this
    | _ => none
  ended
    | .destroy this => some this
    | _ => none
  destroy := .destroy
  throws _ := false
  ended_destroy _ := rfl
  makes_destroy _ := rfl
  ended_of_makes {e _} makes := by
    cases e with
    | destroy this => cases makes
    | _ => rfl

theorem step_lives {s : Blocks ι α} (sound : Sound s) {e : Call ι α} (may : allowed s e) :
    ∃ t v, step s e = .ok (t, v) ∧ Sound t ∧ ∀ y, live t y ↔
      (objects ι α).makes e = some y ∨ (objects ι α).ended e ≠ some y ∧ live s y := by
  cases e with
  | construct this n addr fresh =>
    have vacant : s.mem.lookup addr = none := by simpa [Table.Live] using may.2
    obtain ⟨t, made, becomes⟩ := construct_becomes sound n fresh may.1 vacant
    refine ⟨t, none, by simp [step, made], becomes.sound, fun y => ?_⟩
    rw [lives_set becomes]
    simp [objects]
  | moveConstruct this other =>
    obtain ⟨src, source⟩ := Option.isSome_iff_exists.mp may.2
    obtain ⟨t, moved, becomes⟩ := becomes_moveConstructed sound may.1 source
    refine ⟨t, none, by simp [step, moveConstruct, moved], becomes.sound, fun y => ?_⟩
    rw [lives_moved may.2 becomes]
    simp [objects]
  | moveAssign this other =>
    obtain ⟨h, there⟩ := Option.isSome_iff_exists.mp may.1
    obtain ⟨src, source⟩ := Option.isSome_iff_exists.mp may.2
    obtain ⟨t, moved, becomes⟩ := becomes_moveAssigned sound there source
    refine ⟨t, none, by simp [step, moveAssign, moved], becomes.sound, fun y => ?_⟩
    rw [lives_moved may.2 becomes]
    have already : this = y → live s y := fun same => same ▸ may.1
    simpa [objects] using already
  | write this i x =>
    obtain ⟨h, there, inside⟩ := may
    obtain ⟨t, e, written, -, -, becomes⟩ := becomes_written sound there inside x
    refine ⟨t, none, by simp [step, written], becomes.sound, fun y => ?_⟩
    rw [lives_reset (Option.isSome_of_eq_some there) becomes]
    simp [objects]
  | read this i =>
    obtain ⟨h, there, inside⟩ := may
    obtain ⟨e, x, -, -, reads⟩ := read_ok sound there inside
    exact ⟨s, some x, by simp [step, reads], sound, by simp [objects]⟩
  | destroy this =>
    obtain ⟨h, there⟩ := Option.isSome_iff_exists.mp may
    obtain ⟨t, gone, becomes⟩ := becomes_destroyed sound there
    refine ⟨t.bury this, none, by simp [step, destroy, gone], becomes.sound, fun y => ?_⟩
    rw [lives_gone becomes]
    simp [objects]

theorem lifetimes : Lifetimes (machine ι α) (objects ι α) Sound live := by
  apply Lifetimes.of_step
  · exact fun s x _ there => there
  · intro s e x _ may makes
    cases e with
    | construct this n addr fresh =>
      cases makes
      simp [live, may.1]
    | moveConstruct this other =>
      cases makes
      simp [live, may.1]
    | _ => cases makes
  · intro s e sound may
    obtain ⟨t, v, done, kept, lives⟩ := step_lives sound may
    exact ⟨t, v, done, kept, fun y => by simpa [objects] using lives y⟩

/-- No block of a `UniqueBuffer` outlives the code that made it, unless an object from outside
has taken it over, and none is given back twice. -/
theorem buffers_swept {es : List (Call ι α)} {vs : List (Option α)} {s : Blocks ι α}
    (run : (machine ι α).Run Blocks.start es vs s) (body : Code (Call ι α) ι) (locals : List ι)
    (guarded : Guarded (machine ι α) (objects ι α) body s []) :
    ∃ r, exec (machine ι α) (objects ι α) (.block body) s locals = .ok r ∧ r.locals = locals ∧
      Swept (objects ι α) s r.state r.trace := by
  have sound : Sound s := (step_refines.run run tracks_start).1.sound
  obtain ⟨r, done, names, tidy⟩ := block_tidy lifetimes body sound locals guarded
  exact ⟨r, done, names, swept_of_sound tidy.kept tidy.nested tidy.live_iff⟩

theorem buffers_swept_returned : ∃ s r, (machine (Fin 3) Nat).Run Blocks.start
      [.construct 0 1 10 (fun _ => 0)] [none] s ∧
    exec (machine (Fin 3) Nat) (objects (Fin 3) Nat) (.block (.function
      (.seq (.declare 1 (.construct 1 2 20 (fun _ => 0))) (.block (.seq
        (.declare 2 (.moveConstruct 2 1)) (.seq (.call (.write 2 1 7)) (.seq (.call (.moveAssign 0 2)) .ret)))))))
      s [] = .ok r ∧ r.locals = [] ∧ Swept (objects (Fin 3) Nat) s r.state r.trace := by
  obtain ⟨s, run, guarded⟩ : ∃ s, (machine (Fin 3) Nat).Run Blocks.start
      [.construct 0 1 10 (fun _ => 0)] [none] s ∧
      decide (Guarded (machine (Fin 3) Nat) (objects (Fin 3) Nat) (.function
        (.seq (.declare 1 (.construct 1 2 20 (fun _ => 0))) (.block (.seq
          (.declare 2 (.moveConstruct 2 1)) (.seq (.call (.write 2 1 7))
            (.seq (.call (.moveAssign 0 2)) .ret)))))) s []) = true :=
    Machine.exists_run_seen (fun s => decide (Guarded (machine (Fin 3) Nat) _ _ s [])) (by decide)
  obtain ⟨r, done, names, swept⟩ := buffers_swept run _ [] (of_decide_eq_true guarded)
  exact ⟨s, r, run, done, names, swept⟩

end UniqueBuffer

namespace Buffer
open Blocks

def objects (ι : Type) : Objects (Call ι) Value ι where
  makes
    | .sized this _ _ => some this
    | .copyConstruct this _ _ => some this
    | .moveConstruct this _ => some this
    | _ => none
  ended
    | .destroy this => some this
    | _ => none
  destroy := .destroy
  throws v := v == .threw
  ended_destroy _ := rfl
  makes_destroy _ := rfl
  ended_of_makes {e _} makes := by
    cases e with
    | destroy this => cases makes
    | _ => rfl

theorem step_lives {s : Buffers ι} (sound : Sound s.toBlocks) {e : Call ι} (may : allowed s e)
    (safe : FailsSafely s e) :
    ∃ t v, step s e = .ok (t, v) ∧ Sound t.toBlocks ∧ ∀ y, live t.toBlocks y ↔
      ((objects ι).makes e = some y ∧ (objects ι).throws v = false) ∨
        (objects ι).ended e ≠ some y ∧ live s.toBlocks y := by
  cases e with
  | sized this size alloc =>
    cases alloc with
    | none => exact ⟨s, .threw, rfl, sound, by simp [objects]⟩
    | some addr =>
      have vacant : s.mem.lookup addr = none := by simpa [Table.Live] using may.2 addr rfl
      obtain ⟨b, made, becomes⟩ := sized_becomes sound size may.1 vacant
      refine ⟨_, .done, made, becomes.sound, fun y => ?_⟩
      rw [lives_set becomes]
      simp [objects]
  | copyConstruct this other alloc =>
    cases alloc with
    | none => exact ⟨s, .threw, rfl, sound, by simp [objects]⟩
    | some addr =>
      obtain ⟨src, source⟩ := Option.isSome_iff_exists.mp may.2.1
      have vacant : s.mem.lookup addr = none := by simpa [Table.Live] using may.2.2 addr rfl
      obtain ⟨b, made, becomes⟩ := copyConstruct_becomes sound may.1 source vacant
      refine ⟨_, .done, made, becomes.sound, fun y => ?_⟩
      rw [lives_set becomes]
      simp [objects]
  | copyAssign this other alloc =>
    obtain ⟨cur, there⟩ := Option.isSome_iff_exists.mp may.1
    cases alloc with
    | none =>
      obtain ⟨mem, threw, same, -⟩ := copyAssign_failed sound there other
      rw [same (safe cur there)] at threw
      exact ⟨s, .threw, threw, sound, by simp [objects]⟩
    | some addr =>
      obtain ⟨src, source⟩ := Option.isSome_iff_exists.mp may.2.1
      obtain ⟨b, made, becomes⟩ := copyAssign_becomes sound there source (may.2.2 addr rfl)
      refine ⟨_, .done, made, becomes.sound, fun y => ?_⟩
      rw [lives_reset may.1 becomes]
      simp [objects]
  | moveConstruct this other =>
    obtain ⟨src, source⟩ := Option.isSome_iff_exists.mp may.2
    obtain ⟨b, moved, becomes⟩ := becomes_moveConstructed sound may.1 source
    refine ⟨{ s with toBlocks := b, sMoves := s.sMoves + 1 }, .done, by simp [step, moveConstruct, moved],
      becomes.sound, fun y => ?_⟩
    rw [lives_moved may.2 becomes]
    simp [objects]
  | moveAssign this other =>
    obtain ⟨cur, there⟩ := Option.isSome_iff_exists.mp may.1
    obtain ⟨src, source⟩ := Option.isSome_iff_exists.mp may.2
    obtain ⟨b, moved, becomes⟩ := becomes_moveAssigned sound there source
    refine ⟨{ s with toBlocks := b, sMoves := s.sMoves + 1 }, .done, by simp [step, moveAssign, moved],
      becomes.sound, fun y => ?_⟩
    rw [lives_moved may.2 becomes]
    have already : this = y → live s.toBlocks y := fun same => same ▸ may.1
    simpa [objects] using already
  | write this i x =>
    obtain ⟨h, there, inside⟩ := may
    obtain ⟨b, e, written, -, -, becomes⟩ := becomes_written sound there inside x
    refine ⟨{ s with toBlocks := b }, .done, by simp [step, written], becomes.sound, fun y => ?_⟩
    rw [lives_reset (Option.isSome_of_eq_some there) becomes]
    simp [objects]
  | read this i =>
    obtain ⟨h, there, inside⟩ := may
    obtain ⟨e, x, -, -, reads⟩ := read_ok sound there inside
    exact ⟨s, .byte x, by simp [step, reads], sound, by simp [objects]⟩
  | size this =>
    obtain ⟨h, there⟩ := Option.isSome_iff_exists.mp may
    exact ⟨s, .count h.size, by simp [step, object_some there], sound, by simp [objects]⟩
  | resetCounters => exact ⟨resetCounters s, .done, rfl, sound, by simp [objects, live, resetCounters]⟩
  | destroy this =>
    obtain ⟨h, there⟩ := Option.isSome_iff_exists.mp may
    obtain ⟨b, gone, becomes⟩ := becomes_destroyed sound there
    refine ⟨{ s with toBlocks := b.bury this }, .done, by simp [step, destroy, gone], becomes.sound,
      fun y => ?_⟩
    rw [lives_gone becomes]
    simp [objects]

theorem lifetimes : Lifetimes ((machine ι).restrict FailsSafely) (objects ι) (fun s => Sound s.toBlocks)
    (fun s => live s.toBlocks) := by
  apply Lifetimes.of_step
  · exact fun s x _ there => ⟨there, trivial⟩
  · intro s e x _ may makes
    cases e with
    | sized this size alloc =>
      cases makes
      simp [live, may.1.1]
    | copyConstruct this other alloc =>
      cases makes
      simp [live, may.1.1]
    | moveConstruct this other =>
      cases makes
      simp [live, may.1.1]
    | _ => cases makes
  · exact fun s e sound may => step_lives sound may.1 may.2

/-- An allocation that fails leaves the blocks by an exception, and still nothing is lost or given
back twice, as long as no copy assignment onto an object with a block is the one to fail. -/
theorem failures_swept {es : List (Call ι)} {vs : List Value} {s : Buffers ι}
    (run : ((machine ι).restrict FailsSafely).Run start es vs s) (body : Code (Call ι) ι) (locals : List ι)
    (guarded : Guarded ((machine ι).restrict FailsSafely) (objects ι) body s []) :
    ∃ r, exec ((machine ι).restrict FailsSafely) (objects ι) (.block body) s locals = .ok r ∧
      r.locals = locals ∧ Intact r.state ∧ Swept (objects ι) s.toBlocks r.state.toBlocks r.trace := by
  have sound : Sound s.toBlocks := lifetimes.keeps.run run sound_start
  obtain ⟨r, done, names, tidy⟩ := block_tidy lifetimes body sound locals guarded
  exact ⟨r, done, names, intact_of_sound tidy.kept, swept_of_sound tidy.kept tidy.nested tidy.live_iff⟩

theorem failures_swept_caught : ∃ s r, ((machine (Fin 3)).restrict FailsSafely).Run start
      [.sized 0 2 (some 10)] [.done] s ∧
    exec ((machine (Fin 3)).restrict FailsSafely) (objects (Fin 3)) (.block (.attempt
      (.seq (.declare 1 (.sized 1 4 (some 20))) (.declare 2 (.copyConstruct 2 1 none)))
      (.call (.write 0 1 7)))) s [] = .ok r ∧
    r.locals = [] ∧ Intact r.state ∧ Swept (objects (Fin 3)) s.toBlocks r.state.toBlocks r.trace := by
  obtain ⟨s, run, guarded⟩ : ∃ s, ((machine (Fin 3)).restrict FailsSafely).Run start
      [.sized 0 2 (some 10)] [.done] s ∧
      decide (Guarded ((machine (Fin 3)).restrict FailsSafely) (objects (Fin 3)) (.attempt
        (.seq (.declare 1 (.sized 1 4 (some 20))) (.declare 2 (.copyConstruct 2 1 none)))
        (.call (.write 0 1 7))) s []) = true :=
    Machine.exists_run_seen
      (fun s => decide (Guarded ((machine (Fin 3)).restrict FailsSafely) _ _ s [])) (by decide)
  obtain ⟨r, done, names, intact, swept⟩ := failures_swept run _ [] (of_decide_eq_true guarded)
  exact ⟨s, r, run, done, names, intact, swept⟩

end Buffer
end Syseng.ModernCpp
