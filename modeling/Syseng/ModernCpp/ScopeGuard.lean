import Mathlib.Logic.Function.Basic
import Syseng.Support.Scopes

/-! `ScopeGuard`, which runs a callback when it goes out of scope, however the scope is left. -/

namespace Syseng.ModernCpp
open Support Scopes

structure ScopeGuard (σ : Type) where
  fn : σ → σ
  active : Bool

namespace ScopeGuard

structure World (σ ι : Type) where
  client : σ
  guard : ι → Option (ScopeGuard σ)

/-- `act` is work of the client's own, which says whether it threw. -/
inductive Call (σ ι : Type) where
  | makeScopeGuard (this : ι) (fn : σ → σ)
  | dismiss (this : ι)
  | act (work : σ → σ × Bool)
  | destroy (this : ι)

inductive Value where
  | done
  | threw
  | ran
  | skipped
  deriving DecidableEq, Repr

variable {σ ι : Type}

namespace World

def object (s : World σ ι) (x : ι) : Except Fault (ScopeGuard σ) :=
  match s.guard x with
  | some g => .ok g
  | none => .error .deadObject

variable [DecidableEq ι]

def set (s : World σ ι) (x : ι) (g : Option (ScopeGuard σ)) : World σ ι :=
  { s with guard := Function.update s.guard x g }

/-- The guard is built where the caller keeps it: there is no move to account for. -/
def makeScopeGuard (s : World σ ι) (this : ι) (fn : σ → σ) : World σ ι :=
  s.set this (some { fn, active := true })

def dismiss (s : World σ ι) (this : ι) : Except Fault (World σ ι) := do
  let g ← s.object this
  .ok (s.set this (some { g with active := false }))

def act (s : World σ ι) (work : σ → σ × Bool) : World σ ι × Value :=
  let (client, threw) := work s.client
  ({ s with client }, if threw then .threw else .done)

def destroy (s : World σ ι) (this : ι) : Except Fault (World σ ι × Value) := do
  let g ← s.object this
  if g.active then .ok ({ s with client := g.fn s.client }, .ran) else .ok (s, .skipped)

@[simp] theorem guard_set (s : World σ ι) (x : ι) (g : Option (ScopeGuard σ)) :
    (s.set x g).guard = Function.update s.guard x g := rfl

@[simp] theorem client_set (s : World σ ι) (x : ι) (g : Option (ScopeGuard σ)) :
    (s.set x g).client = s.client := rfl

end World

def allowed (s : World σ ι) : Call σ ι → Prop
  | .makeScopeGuard this _ => s.guard this = none
  | .dismiss this => (s.guard this).isSome
  | .act _ => True
  | .destroy this => (s.guard this).isSome

def step [DecidableEq ι] (s : World σ ι) : Call σ ι → Except Fault (World σ ι × Value)
  | .makeScopeGuard this fn => .ok (s.makeScopeGuard this fn, .done)
  | .dismiss this => do .ok (← s.dismiss this, .done)
  | .act work => .ok (s.act work)
  | .destroy this => do
    let (s, v) ← s.destroy this
    .ok (s.set this none, v)

def machine (σ ι : Type) [DecidableEq ι] : Machine (World σ ι) (Call σ ι) Value Fault where
  allowed := allowed
  step := step

instance (s : World σ ι) (e : Call σ ι) : Decidable (allowed s e) :=
  match e with
  | .makeScopeGuard this _ => inferInstanceAs (Decidable (s.guard this = none))
  | .dismiss this => inferInstanceAs (Decidable ((s.guard this).isSome = true))
  | .act _ => inferInstanceAs (Decidable True)
  | .destroy this => inferInstanceAs (Decidable ((s.guard this).isSome = true))

instance [DecidableEq ι] (s : World σ ι) (e : Call σ ι) : Decidable ((machine σ ι).allowed s e) :=
  inferInstanceAs (Decidable (allowed s e))

def objects (σ ι : Type) : Objects (Call σ ι) Value ι where
  makes
    | .makeScopeGuard this _ => some this
    | _ => none
  ended
    | .destroy this => some this
    | _ => none
  destroy := .destroy
  throws v := v == .threw
  ended_destroy _ := rfl
  makes_destroy _ := rfl
  ended_of_makes {e _} makes := by
    cases e with
    | makeScopeGuard this fn => rfl
    | _ => cases makes

@[simp] theorem throws_eq (v : Value) : (objects σ ι).throws v = (v == .threw) := rfl

def live (s : World σ ι) (x : ι) : Prop := (s.guard x).isSome = true

theorem object_some {s : World σ ι} {x : ι} {g : ScopeGuard σ} (there : s.guard x = some g) :
    s.object x = .ok g := by
  simp [World.object, there]

def due (g : ScopeGuard σ) : Option (σ → σ) := if g.active then some g.fn else none

def pendingAfter [DecidableEq ι] (x : ι) (pending : Option (σ → σ)) : Call σ ι → Option (σ → σ)
  | .makeScopeGuard this fn => if this = x then some fn else pending
  | .dismiss this => if this = x then none else pending
  | _ => pending

/-- The callback last given to a guard of that name, unless the guard has been dismissed since. -/
def pending [DecidableEq ι] (x : ι) (es : List (Call σ ι)) : Option (σ → σ) :=
  es.foldl (pendingAfter x) none

section Steps
variable [DecidableEq ι]

theorem dismiss_ok {s : World σ ι} {x : ι} {g : ScopeGuard σ} (there : s.guard x = some g) :
    s.dismiss x = .ok (s.set x (some { g with active := false })) := by
  simp [World.dismiss, object_some there]

theorem destroy_ok {s : World σ ι} {x : ι} {g : ScopeGuard σ} (there : s.guard x = some g) :
    step s (.destroy x) = .ok ({ s.set x none with client := if g.active then g.fn s.client else s.client },
      if g.active then .ran else .skipped) := by
  rw [step, World.destroy, object_some there, ok_bind]
  by_cases active : g.active = true
  · simp only [active, if_true]
    rfl
  · simp only [active]
    rfl

theorem step_ok {s : World σ ι} {e : Call σ ι} (may : allowed s e) :
    ∃ t v, step s e = .ok (t, v) ∧ ∀ y, live t y ↔
      ((objects σ ι).makes e = some y ∧ (objects σ ι).throws v = false) ∨
        (objects σ ι).ended e ≠ some y ∧ live s y := by
  cases e with
  | makeScopeGuard this fn =>
    refine ⟨s.makeScopeGuard this fn, .done, rfl, fun y => ?_⟩
    by_cases same : y = this
    · subst same
      simp [live, World.makeScopeGuard, objects]
    · simp [live, World.makeScopeGuard, objects, same, Ne.symm same]
  | dismiss this =>
    obtain ⟨g, there⟩ := Option.isSome_iff_exists.mp may
    refine ⟨s.set this (some { g with active := false }), .done, by rw [step, dismiss_ok there]; rfl,
      fun y => ?_⟩
    by_cases same : y = this
    · subst same
      simp [live, objects, there]
    · simp [live, objects, same]
  | act work => exact ⟨_, _, rfl, fun y => by simp [live, objects]⟩
  | destroy this =>
    obtain ⟨g, there⟩ := Option.isSome_iff_exists.mp may
    refine ⟨_, _, destroy_ok there, fun y => ?_⟩
    by_cases same : y = this
    · subst same
      simp [live, objects]
    · simp [live, objects, same, Ne.symm same]

theorem pending_step {s t : World σ ι} {e : Call σ ι} {v : Value} (now : step s e = .ok (t, v)) (x : ι)
    {before : Option (σ → σ)} (known : ∀ g, s.guard x = some g → g.due = before) (g : ScopeGuard σ)
    (there : t.guard x = some g) : g.due = pendingAfter x before e := by
  cases e with
  | makeScopeGuard this fn =>
    cases now
    by_cases same : this = x
    · subst same
      have new : g = { fn, active := true } := by simpa [World.makeScopeGuard, eq_comm] using there
      simp [new, due, pendingAfter]
    · have kept : s.guard x = some g := by simpa [World.makeScopeGuard, Ne.symm same] using there
      simpa [pendingAfter, same] using known g kept
  | dismiss this =>
    obtain ⟨s', dismissed, result⟩ := bind_ok now
    obtain ⟨old, found, updated⟩ := bind_ok dismissed
    cases result
    cases updated
    by_cases same : this = x
    · subst same
      have new : g = { old with active := false } := by simpa [eq_comm] using there
      simp [new, due, pendingAfter]
    · have kept : s.guard x = some g := by simpa [Ne.symm same] using there
      simpa [pendingAfter, same] using known g kept
  | act work =>
    cases now
    exact known g there
  | destroy this =>
    obtain ⟨⟨u, w⟩, destroyed, result⟩ := bind_ok now
    obtain ⟨old, found, ran⟩ := bind_ok destroyed
    cases result
    have left : (u.set this none).guard = Function.update s.guard this none := by
      by_cases active : old.active = true
      · simp only [active] at ran
        cases ran
        rfl
      · simp only [active] at ran
        cases ran
        rfl
    rw [left] at there
    by_cases same : x = this
    · simp [same] at there
    · exact known g (by simpa [same] using there)

theorem pending_run {s t : World σ ι} {es : List (Call σ ι)} {vs : List Value}
    (run : (machine σ ι).Run s es vs t) (x : ι) {before : Option (σ → σ)}
    (known : ∀ g, s.guard x = some g → g.due = before) (g : ScopeGuard σ) (there : t.guard x = some g) :
    g.due = es.foldl (pendingAfter x) before := by
  induction run generalizing before with
  | nil s => exact known g there
  | cons may now later ih => exact ih (pending_step now x known) there

theorem lifetimes : Lifetimes (machine σ ι) (objects σ ι) (fun _ => True) live := by
  apply Lifetimes.of_step
  · exact fun s x _ there => there
  · intro s e x _ may makes
    cases e with
    | makeScopeGuard this fn =>
      cases makes
      have unborn : s.guard x = none := may
      simp [live, unborn]
    | _ => cases makes
  · intro s e _ may
    obtain ⟨t, v, stepped, lives⟩ := step_ok may
    exact ⟨t, v, stepped, trivial, lives⟩

/-- What a block does with the guards that it makes. In `fires`, `u` is the world at the end of
the guard's life and `w` the one after it. -/
structure Fired (s t : World σ ι) (trace : List (Call σ ι × Value)) : Prop where
  nested : Nested ((objects σ ι).marks trace)
  live_iff : ∀ x, live t x ↔ live s x
  fires : ∀ before x v after, trace = before ++ (.destroy x, v) :: after → ∃ u w,
    (machine σ ι).Run s (before.map Prod.fst) (before.map Prod.snd) u ∧ step u (.destroy x) = .ok (w, v) ∧
    match pending x (before.map Prod.fst) with
    | some fn => v = .ran ∧ w.client = fn u.client
    | none => v = .skipped ∧ w.client = u.client

/-- Whatever the client does between its calls, and however it leaves its blocks, every guard is
destroyed once, the latest first, and its callback runs then unless it was dismissed. -/
theorem guards_fire (body : Code (Call σ ι) ι) (s : World σ ι) (locals : List ι)
    (guarded : Guarded (machine σ ι) (objects σ ι) body s []) :
    ∃ r, exec (machine σ ι) (objects σ ι) (.block body) s locals = .ok r ∧ r.locals = locals ∧
      Fired s r.state r.trace := by
  obtain ⟨r, done, names, tidy⟩ := block_tidy lifetimes body trivial locals guarded
  refine ⟨r, done, names, tidy.nested, tidy.live_iff, ?_⟩
  intro before x v after split
  have run := tidy.run
  have spared := tidy.spares x
  rw [split] at run spared
  rw [List.map_append, List.map_append, List.map_cons, List.map_cons] at run
  obtain ⟨us, u, ws, first, second, values⟩ := run.split
  have lengths : us.length = (before.map Prod.snd).length := by
    rw [← first.length, List.length_map, List.length_map]
  obtain ⟨rfl, rfl⟩ := List.append_inj values.symm lengths
  cases second with
  | @cons _ w _ _ _ _ _ may now later =>
    refine ⟨u, w, first, now, ?_⟩
    obtain ⟨g, there⟩ := Option.isSome_iff_exists.mp may
    have ours : s.guard x = none := by
      by_contra outer
      have outlives := spared (Option.isSome_iff_ne_none.mpr outer) (.destroy x) (by simp)
      exact outlives.2 rfl
    have known : g.due = pending x (before.map Prod.fst) :=
      pending_run first x (by simp [ours]) g there
    have result := now.symm.trans (destroy_ok there)
    rw [← known, due]
    cases active : g.active with
    | true =>
      rw [active] at result
      cases result
      exact ⟨rfl, rfl⟩
    | false =>
      rw [active] at result
      cases result
      exact ⟨rfl, rfl⟩

theorem guards_fire_thrown : ∃ r, exec (machine Nat Bool) (objects Nat Bool)
    (.block (.attempt (.seq (.declare false (.makeScopeGuard false (· + 1)))
      (.seq (.declare true (.makeScopeGuard true (· * 10))) (.seq (.call (.dismiss false)) .throw))) .skip))
      { client := 4, guard := fun _ => none } [] = .ok r ∧ r.locals = [] ∧
    Fired { client := 4, guard := fun _ => none } r.state r.trace :=
  guards_fire _ _ _ (by decide)

end Steps

structure Work (σ ι : Type) where
  guard : ι
  act : σ → σ × Bool
  undo : σ → σ

def perform : List (Work σ ι) → Code (Call σ ι) ι
  | [] => .skip
  | w :: ws => .seq (.seq (.call (.act w.act)) (.declare w.guard (.makeScopeGuard w.guard w.undo)))
      (perform ws)

def dismissAll : List ι → Code (Call σ ι) ι
  | [] => .skip
  | x :: xs => .seq (.call (.dismiss x)) (dismissAll xs)

/-- Risky work as the header has it: a guard after each step, dismissed when all have succeeded. -/
def transaction (ws : List (Work σ ι)) : Code (Call σ ι) ι :=
  .block (.seq (perform ws) (dismissAll (ws.map Work.guard)))

/-- What a transaction is for: all of its steps, or none. -/
def attempted : List (Work σ ι) → σ → Option σ
  | [], c => some c
  | w :: ws, c => if (w.act c).2 then none else attempted ws (w.act c).1

/-- A step that throws has done nothing, and its callback takes a step back that did not throw. -/
def Work.Reversible (w : Work σ ι) : Prop :=
  ∀ c, if (w.act c).2 then (w.act c).1 = c else w.undo (w.act c).1 = c

section Transactions
variable [DecidableEq ι]

theorem unwind_dismissed (xs : List ι) (s : World σ ι) (distinct : xs.Nodup)
    (quiet : ∀ x ∈ xs, ∃ g, s.guard x = some g ∧ g.active = false) :
    ∃ t trace, unwind (machine σ ι) (objects σ ι) xs s = .ok (t, trace) ∧ t.client = s.client ∧
      ∀ y, t.guard y = if y ∈ xs then none else s.guard y := by
  induction xs generalizing s with
  | nil => exact ⟨s, [], rfl, rfl, by simp⟩
  | cons x xs ih =>
    obtain ⟨apart, others⟩ := List.nodup_cons.mp distinct
    obtain ⟨⟨g, there, dismissed⟩, rest⟩ := List.forall_mem_cons.mp quiet
    have destroyed : (machine σ ι).step s ((objects σ ι).destroy x) = .ok (s.set x none, .skipped) := by
      change step s (.destroy x) = _
      rw [destroy_ok there, dismissed]
      rfl
    have still : ∀ y ∈ xs, ∃ g, (s.set x none).guard y = some g ∧ g.active = false := by
      intro y member
      have differs : y ≠ x := fun same => apart (same ▸ member)
      simpa [differs] using rest y member
    obtain ⟨t, trace, unwound, client, guards⟩ := ih (s.set x none) others still
    refine ⟨t, ((objects σ ι).destroy x, .skipped) :: trace, ?_, client, fun y => ?_⟩
    · simp [unwind, destroyed, unwound]
    · by_cases same : y = x
      · simp [guards, same]
      · simp [guards, same]

theorem dismissAll_ok (xs : List ι) (s : World σ ι) (locals : List ι) (there : ∀ x ∈ xs, live s x) :
    ∃ t trace, exec (machine σ ι) (objects σ ι) (dismissAll xs) s locals = .ok ⟨t, locals, .next, trace⟩ ∧
      t.client = s.client ∧ (∀ x ∈ xs, ∃ g, t.guard x = some g ∧ g.active = false) ∧
      ∀ y, y ∉ xs → t.guard y = s.guard y := by
  induction xs generalizing s with
  | nil => exact ⟨s, [], rfl, rfl, by simp, by simp⟩
  | cons x xs ih =>
    obtain ⟨first, rest⟩ := List.forall_mem_cons.mp there
    obtain ⟨g, found⟩ := Option.isSome_iff_exists.mp first
    have dismissed : (machine σ ι).step s (.dismiss x) =
        .ok (s.set x (some { g with active := false }), .done) := by
      simp [machine, step, dismiss_ok found]
    have still : ∀ y ∈ xs, live (s.set x (some { g with active := false })) y := by
      intro y member
      by_cases same : y = x
      · simp [live, same]
      · simpa [live, same] using rest y member
    obtain ⟨t, trace, done, client, quiet, kept⟩ := ih _ still
    refine ⟨t, (.dismiss x, .done) :: trace, ?_, client, ?_, ?_⟩
    · simp [dismissAll, exec, dismissed, done]
    · intro y member
      by_cases later : y ∈ xs
      · exact quiet y later
      · have same : y = x := (List.mem_cons.mp member).resolve_right later
        refine ⟨{ g with active := false }, ?_, rfl⟩
        rw [kept y later, same]
        simp
    · intro y absent
      obtain ⟨differs, later⟩ := not_or.mp (mt List.mem_cons.mpr absent)
      simp [kept y later, differs]

def Work.result (w : Work σ ι) (s : World σ ι) : World σ ι :=
  ({ s with client := (w.act s.client).1 } : World σ ι).makeScopeGuard w.guard w.undo

@[simp] theorem result_client (w : Work σ ι) (s : World σ ι) :
    (w.result s).client = (w.act s.client).1 := rfl

@[simp] theorem result_guard (w : Work σ ι) (s : World σ ι) : (w.result s).guard =
    Function.update s.guard w.guard (some { fn := w.undo, active := true }) := rfl

theorem work_ok (w : Work σ ι) (s : World σ ι) (locals : List ι) (goesOn : (w.act s.client).2 = false) :
    ∃ trace, exec (machine σ ι) (objects σ ι)
      (.seq (.call (.act w.act)) (.declare w.guard (.makeScopeGuard w.guard w.undo))) s locals =
        .ok ⟨w.result s, w.guard :: locals, .next, trace⟩ := by
  have acted : (machine σ ι).step s (.act w.act) = .ok ({ s with client := (w.act s.client).1 }, .done) := by
    simp [machine, step, World.act, goesOn]
  have made : ∀ u : World σ ι, (machine σ ι).step u (.makeScopeGuard w.guard w.undo) =
      .ok (u.makeScopeGuard w.guard w.undo, .done) := fun u => rfl
  exact ⟨[(.act w.act, .done), (.makeScopeGuard w.guard w.undo, .done)], by simp [exec, acted, made, Work.result]⟩

theorem perform_ends (ws : List (Work σ ι)) (s : World σ ι) (locals : List ι)
    (distinct : (ws.map Work.guard).Nodup) {c : σ} (ends : attempted ws s.client = some c) :
    ∃ t trace, exec (machine σ ι) (objects σ ι) (perform ws) s locals =
        .ok ⟨t, (ws.map Work.guard).reverse ++ locals, .next, trace⟩ ∧
      t.client = c ∧ (∀ x ∈ ws.map Work.guard, live t x) ∧
      ∀ y, y ∉ ws.map Work.guard → t.guard y = s.guard y := by
  induction ws generalizing s locals with
  | nil =>
    cases ends
    exact ⟨s, [], rfl, rfl, by simp, by simp⟩
  | cons w ws ih =>
    rw [List.map_cons] at distinct ⊢
    obtain ⟨apart, others⟩ := List.nodup_cons.mp distinct
    have goesOn : (w.act s.client).2 = false := by
      cases threw : (w.act s.client).2 with
      | true => simp [attempted, threw] at ends
      | false => rfl
    obtain ⟨first, worked⟩ := work_ok w s locals goesOn
    obtain ⟨t, trace, done, client, lives, kept⟩ := ih (w.result s) (w.guard :: locals) others
      (by simpa [attempted, goesOn] using ends)
    refine ⟨t, first ++ trace, ?_, client, ?_, ?_⟩
    · rw [perform, exec, worked, ok_bind]
      simp [done]
    · intro x member
      by_cases later : x ∈ ws.map Work.guard
      · exact lives x later
      · have same : x = w.guard := (List.mem_cons.mp member).resolve_right later
        rw [live, kept x later, same]
        simp
    · intro y absent
      obtain ⟨differs, later⟩ := not_or.mp (mt List.mem_cons.mpr absent)
      simp [kept y later, differs]

/-- Where a step throws, the guards that are there take back the steps before it. -/
theorem perform_throws (ws : List (Work σ ι)) (s : World σ ι) (locals : List ι)
    (distinct : (ws.map Work.guard).Nodup) (fresh : ∀ x ∈ ws.map Work.guard, s.guard x = none)
    (reversible : ∀ w ∈ ws, w.Reversible) (throws : attempted ws s.client = none) :
    ∃ t new trace cleanup, exec (machine σ ι) (objects σ ι) (perform ws) s locals =
        .ok ⟨t, new ++ locals, .thrown, trace⟩ ∧
      unwind (machine σ ι) (objects σ ι) new t = .ok (s, cleanup) := by
  induction ws generalizing s locals with
  | nil => cases throws
  | cons w ws ih =>
    rw [List.map_cons] at distinct fresh
    obtain ⟨apart, others⟩ := List.nodup_cons.mp distinct
    obtain ⟨unborn, later⟩ := List.forall_mem_cons.mp fresh
    obtain ⟨back, backs⟩ := List.forall_mem_cons.mp reversible
    have undone := back s.client
    cases threw : (w.act s.client).2 with
    | true =>
      have nothing : (w.act s.client).1 = s.client := by simpa [threw] using undone
      have acted : (machine σ ι).step s (.act w.act) = .ok (s, .threw) := by
        simp [machine, step, World.act, threw, nothing]
      exact ⟨s, [], [(.act w.act, .threw)], [], by simp [perform, exec, acted], rfl⟩
    | false =>
      have undoes : w.undo (w.act s.client).1 = s.client := by simpa [threw] using undone
      obtain ⟨first, worked⟩ := work_ok w s locals threw
      obtain ⟨t, new, trace, cleanup, done, unwound⟩ := ih (w.result s) (w.guard :: locals) others
        (by
          intro x member
          have differs : x ≠ w.guard := fun same => apart (same ▸ member)
          simpa [differs] using later x member)
        backs (by simpa [attempted, threw] using throws)
      have last : unwind (machine σ ι) (objects σ ι) [w.guard] (w.result s) =
          .ok (s, [((objects σ ι).destroy w.guard, .ran)]) := by
        have destroyed : (machine σ ι).step (w.result s) ((objects σ ι).destroy w.guard) = .ok (s, .ran) := by
          change step _ (.destroy w.guard) = _
          rw [destroy_ok (Function.update_self ..)]
          simp [World.set, undoes, ← unborn]
        simp [unwind, destroyed]
      refine ⟨t, new ++ [w.guard], first ++ trace, _, ?_, unwind_append unwound last⟩
      rw [perform, exec, worked, ok_bind]
      simp [done]

/-- A transaction whose steps can be taken back happens as a whole or not at all, and none of its
guards outlives it. -/
theorem transaction_atomic (ws : List (Work σ ι)) (s : World σ ι) (locals : List ι)
    (distinct : (ws.map Work.guard).Nodup) (fresh : ∀ x ∈ ws.map Work.guard, s.guard x = none)
    (reversible : ∀ w ∈ ws, w.Reversible) :
    ∃ trace, exec (machine σ ι) (objects σ ι) (transaction ws) s locals =
      match attempted ws s.client with
      | some c => .ok ⟨{ s with client := c }, locals, .next, trace⟩
      | none => .ok ⟨s, locals, .thrown, trace⟩ := by
  cases tried : attempted ws s.client with
  | none =>
    obtain ⟨t, new, trace, cleanup, done, unwound⟩ :=
      perform_throws ws s [] distinct fresh reversible tried
    rw [List.append_nil] at done
    refine ⟨trace ++ cleanup, ?_⟩
    simp [transaction, exec, done, close, unwound]
  | some c =>
    obtain ⟨t, trace, done, client, lives, kept⟩ := perform_ends ws s [] distinct tried
    obtain ⟨u, more, dismissed, sameClient, quiet, sameGuards⟩ :=
      dismissAll_ok (ws.map Work.guard) t ((ws.map Work.guard).reverse ++ []) lives
    obtain ⟨v, cleanup, unwound, finalClient, finalGuards⟩ :=
      unwind_dismissed (ws.map Work.guard).reverse u (List.nodup_reverse.mpr distinct) fun x member =>
        quiet x (List.mem_reverse.mp member)
    have final : v = { s with client := c } := by
      have clients : v.client = c := finalClient.trans (sameClient.trans client)
      have guards : v.guard = s.guard := by
        funext y
        rw [finalGuards]
        by_cases ours : y ∈ ws.map Work.guard
        · rw [if_pos (List.mem_reverse.mpr ours), fresh y ours]
        · rw [if_neg (mt List.mem_reverse.mp ours), sameGuards y ours, kept y ours]
      rw [← clients, ← guards]
    refine ⟨(trace ++ more) ++ cleanup, ?_⟩
    rw [List.append_nil] at done dismissed
    simp [transaction, exec, done, dismissed, close, unwound, final]

def deposits : List (Work Int Bool) :=
  [⟨false, fun c => (c + 5, false), fun c => c - 5⟩, ⟨true, fun c => (c, decide (c > 100)), id⟩]

theorem transaction_atomic_overdrawn : ∃ trace,
    exec (machine Int Bool) (objects Int Bool) (transaction deposits) ⟨98, fun _ => none⟩ [] =
      .ok ⟨⟨98, fun _ => none⟩, [], .thrown, trace⟩ := by
  have reversible : ∀ w ∈ deposits, w.Reversible := by simp [deposits, Work.Reversible]
  exact transaction_atomic deposits ⟨98, fun _ => none⟩ [] (by decide) (by simp) reversible

end Transactions
end ScopeGuard
end Syseng.ModernCpp
