import Mathlib.Data.List.Basic

/-! A component as its clients drive it: a state, the calls a client may make in
it, and what a call does. A step returns the next state and a value, or a fault
when the call breaks a rule of the language it is written in. -/

namespace Syseng.Support

/-- `allowed` is what the client and the environment promise about a call, `step`
what the code does on it. The code itself never looks at `allowed`. -/
structure Machine (State Event Value Fault : Type*) where
  allowed : State → Event → Prop
  step : State → Event → Except Fault (State × Value)

namespace Machine
variable {State Event Value Fault Spec : Type*}

/-- The same code under a further promise about the calls. -/
def restrict (m : Machine State Event Value Fault) (only : State → Event → Prop) :
    Machine State Event Value Fault where
  allowed := fun s e => m.allowed s e ∧ only s e
  step := m.step

instance (m : Machine State Event Value Fault) (only : State → Event → Prop)
    [∀ s e, Decidable (m.allowed s e)] [∀ s e, Decidable (only s e)] (s : State) (e : Event) :
    Decidable ((m.restrict only).allowed s e) :=
  inferInstanceAs (Decidable (m.allowed s e ∧ only s e))

/-- `m.Run s es vs t`: the calls `es`, each allowed when it is made, return `vs`
without a fault and lead from `s` to `t`. -/
inductive Run (m : Machine State Event Value Fault) :
    State → List Event → List Value → State → Prop where
  | nil (s : State) : m.Run s [] [] s
  | cons {s t u : State} {e : Event} {v : Value} {es : List Event} {vs : List Value}
      (may : m.allowed s e) (now : m.step s e = .ok (t, v)) (later : m.Run t es vs u) :
      m.Run s (e :: es) (v :: vs) u

/-- The calls carried out, as long as each is allowed and does not fault. -/
def exec (m : Machine State Event Value Fault) [∀ s e, Decidable (m.allowed s e)] :
    State → List Event → Option (State × List Value)
  | s, [] => some (s, [])
  | s, e :: es =>
    if m.allowed s e then
      match m.step s e with
      | .ok (t, v) => (m.exec t es).map fun (u, vs) => (u, v :: vs)
      | .error _ => none
    else none

theorem run_of_exec {m : Machine State Event Value Fault} [∀ s e, Decidable (m.allowed s e)]
    {s t : State} {es : List Event} {vs : List Value} (ran : m.exec s es = some (t, vs)) :
    m.Run s es vs t := by
  induction es generalizing s vs with
  | nil =>
    cases ran
    exact .nil _
  | cons e es ih =>
    by_cases may : m.allowed s e
    · cases now : m.step s e with
      | error fault => simp [exec, may, now] at ran
      | ok result =>
        obtain ⟨u, v⟩ := result
        simp only [exec, if_pos may, now, Option.map_eq_some_iff] at ran
        obtain ⟨⟨t', vs'⟩, rest, same⟩ := ran
        cases same
        exact .cons may now (ih rest)
    · simp [exec, may] at ran

/-- The returned values alone show that there is such a run. -/
theorem exists_run {m : Machine State Event Value Fault} [∀ s e, Decidable (m.allowed s e)]
    {s : State} {es : List Event} {vs : List Value} {holds : State → Prop}
    (ran : (m.exec s es).map Prod.snd = some vs) (after : ∀ t, m.Run s es vs t → holds t) :
    ∃ t, m.Run s es vs t ∧ holds t := by
  obtain ⟨⟨t, vs'⟩, ran, same⟩ := Option.map_eq_some_iff.mp ran
  have run : m.Run s es vs t := same ▸ run_of_exec ran
  exact ⟨t, run, after t run⟩

theorem exists_run_seen {m : Machine State Event Value Fault}
    [∀ s e, Decidable (m.allowed s e)] {Sight : Type*} (look : State → Sight) {s : State}
    {es : List Event} {vs : List Value} {seen : Sight}
    (ran : (m.exec s es).map (fun r => (look r.1, r.2)) = some (seen, vs)) :
    ∃ t, m.Run s es vs t ∧ look t = seen := by
  obtain ⟨⟨t, vs'⟩, finished, same⟩ := Option.map_eq_some_iff.mp ran
  cases same
  exact ⟨t, run_of_exec finished, rfl⟩

theorem exists_run_then {m : Machine State Event Value Fault}
    [∀ s e, Decidable (m.allowed s e)] {Result Before After : Type*}
    (call : State → Except Fault Result) (before : State → Before) (after : Result → After)
    {s : State} {es : List Event} {vs : List Value} {x : Before} {y : After}
    (ran : (m.exec s es).map (fun r => ((before r.1, (call r.1).toOption.map after), r.2)) =
      some ((x, some y), vs)) :
    ∃ t r, m.Run s es vs t ∧ before t = x ∧ call t = .ok r ∧ after r = y := by
  obtain ⟨t, run, seen⟩ :=
    exists_run_seen (fun s => (before s, (call s).toOption.map after)) ran
  obtain ⟨seenBefore, seenAfter⟩ := Prod.mk.inj seen
  cases done : call t with
  | error fault =>
    rw [done] at seenAfter
    cases seenAfter
  | ok r =>
    rw [done] at seenAfter
    exact ⟨t, r, run, seenBefore, done, Option.some.inj seenAfter⟩

/-- What every call that does not fault preserves holds after a run. -/
theorem Run.preserves {m : Machine State Event Value Fault} {inv : State → Prop} {s t : State}
    {es : List Event} {vs : List Value} (run : m.Run s es vs t) (start : inv s)
    (each : ∀ s e t v, inv s → m.allowed s e → m.step s e = .ok (t, v) → inv t) : inv t := by
  induction run with
  | nil s => exact start
  | cons may now later ih => exact ih (each _ _ _ _ start may now)

/-- Of each of the calls, made one after the other, `P` holds in the state it is made in. After
a fault there is none to be made. -/
def Throughout (m : Machine State Event Value Fault) (P : State → Event → Prop) : State → List Event → Prop
  | _, [] => True
  | s, e :: es => P s e ∧ ∀ t v, m.step s e = .ok (t, v) → m.Throughout P t es

theorem throughout_iff {m : Machine State Event Value Fault} {P Q : State → Event → Prop}
    {inv : State → Prop} (same : ∀ s e, inv s → m.allowed s e → (P s e ↔ Q s e))
    (each : ∀ s e t v, inv s → m.allowed s e → m.step s e = .ok (t, v) → inv t) {s : State}
    {es : List Event} (start : inv s) (may : ∀ s, ∀ e ∈ es, m.allowed s e) :
    m.Throughout P s es ↔ m.Throughout Q s es := by
  induction es generalizing s with
  | nil => exact Iff.rfl
  | cons e es ih =>
    have first := may s e List.mem_cons_self
    apply and_congr (same s e start first)
    apply forall₃_congr
    intro t v now
    exact ih (each s e t v start first now) fun s e member => may s e (List.mem_cons_of_mem _ member)

/-- One call: it does not fault, and what held before it holds after it. -/
def Keeps (m : Machine State Event Value Fault) (inv : State → Prop) : Prop :=
  ∀ s e, inv s → m.allowed s e → ∃ t v, m.step s e = .ok (t, v) ∧ inv t

theorem Keeps.run {m : Machine State Event Value Fault} {inv : State → Prop}
    (keeps : m.Keeps inv) {s t : State} {es : List Event} {vs : List Value}
    (run : m.Run s es vs t) (start : inv s) : inv t := by
  apply run.preserves start
  intro s e t v held may now
  obtain ⟨next, value, stepped, kept⟩ := keeps s e held may
  cases now.symm.trans stepped
  exact kept

def replay (next : Spec → Event → Spec × Value) : Spec → List Event → Spec × List Value
  | a, [] => (a, [])
  | a, e :: es =>
    let (b, v) := next a e
    let (c, vs) := replay next b es
    (c, v :: vs)

@[simp] theorem replay_nil (next : Spec → Event → Spec × Value) (a : Spec) :
    replay next a [] = (a, []) := rfl

@[simp] theorem replay_cons (next : Spec → Event → Spec × Value) (a : Spec) (e : Event)
    (es : List Event) :
    replay next a (e :: es) = ((replay next (next a e).1 es).1,
      (next a e).2 :: (replay next (next a e).1 es).2) := rfl

/-- Every allowed call is simulated by the abstract model and returns its value. -/
def Refines (m : Machine State Event Value Fault) (next : Spec → Event → Spec × Value)
    (rel : State → Spec → Prop) : Prop :=
  ∀ s a e, rel s a → m.allowed s e →
    ∃ t, m.step s e = .ok (t, (next a e).2) ∧ rel t (next a e).1

theorem Refines.run {m : Machine State Event Value Fault} {next : Spec → Event → Spec × Value}
    {rel : State → Spec → Prop} (refines : m.Refines next rel) {s t : State} {a : Spec}
    {es : List Event} {vs : List Value} (run : m.Run s es vs t) (start : rel s a) :
    rel t (replay next a es).1 ∧ vs = (replay next a es).2 := by
  induction run generalizing a with
  | nil s => exact ⟨start, rfl⟩
  | cons may now later ih =>
    obtain ⟨next, stepped, related⟩ := refines _ _ _ start may
    rw [now] at stepped
    cases stepped
    obtain ⟨final, values⟩ := ih related
    exact ⟨final, by rw [replay_cons, values]⟩

section Simulation
variable {Refusal Part Sight : Type*}

/-- Whatever the specification does the machine does, with the same value, and no part of the state
looks different that the call does not touch. -/
def Simulates (m : Machine State Event Value Fault) (spec : Machine Spec Event Value Refusal)
    (rel : State → Spec → Prop) (look : State → Part → Sight) (touches : Event → Part → Prop) : Prop :=
  ∀ s a e b v, rel s a → spec.allowed a e → spec.step a e = .ok (b, v) →
    m.allowed s e ∧ ∃ t, m.step s e = .ok (t, v) ∧ rel t b ∧ ∀ p, ¬ touches e p → look t p = look s p

theorem Simulates.run {m : Machine State Event Value Fault} {spec : Machine Spec Event Value Refusal}
    {rel : State → Spec → Prop} {look : State → Part → Sight} {touches : Event → Part → Prop}
    (simulates : m.Simulates spec rel look touches) {a b : Spec} {es : List Event} {vs : List Value}
    (run : spec.Run a es vs b) {s : State} (start : rel s a) :
    ∃ t, m.Run s es vs t ∧ rel t b ∧ ∀ p, (∀ e ∈ es, ¬ touches e p) → look t p = look s p := by
  induction run generalizing s with
  | nil a => exact ⟨s, .nil s, start, fun _ _ => rfl⟩
  | cons may now later ih =>
    obtain ⟨allowed, t, stepped, related, same⟩ := simulates _ _ _ _ _ start may now
    obtain ⟨u, rest, final, frame⟩ := ih related
    refine ⟨u, .cons allowed stepped rest, final, fun p untouched => ?_⟩
    obtain ⟨first, others⟩ := List.forall_mem_cons.mp untouched
    exact (frame p others).trans (same p first)

end Simulation

theorem Run.counts {m : Machine State Event Value Fault} {s t : State} {es : List Event}
    {vs : List Value} (run : m.Run s es vs t) (inv : State → Prop) (start : inv s)
    (amount : State → Int) (counted : Event → Bool)
    (each : ∀ s e, inv s → m.allowed s e → e ∈ es → ∃ t v, m.step s e = .ok (t, v) ∧ inv t ∧
      amount t = amount s + if counted e then 1 else 0) :
    amount t = amount s + es.countP counted := by
  induction run with
  | nil s => simp
  | @cons s t u e v es vs may now later ih =>
    obtain ⟨next, value, stepped, kept, change⟩ := each s e start may (by simp)
    rw [now] at stepped
    cases stepped
    have rest := ih kept fun s e held allowed member => each s e held allowed (by simp [member])
    rw [rest, change, List.countP_cons]
    push_cast
    split <;> omega

/-- Where every call uses something up, what there is at first bounds the number of calls. -/
theorem Keeps.bounded {m : Machine State Event Value Fault} {inv : State → Prop} (keeps : m.Keeps inv)
    (fuel : State → Nat)
    (uses : ∀ s e t v, inv s → m.allowed s e → m.step s e = .ok (t, v) → fuel t + 1 ≤ fuel s)
    {s t : State} {es : List Event} {vs : List Value} (run : m.Run s es vs t) (start : inv s) :
    fuel t + es.length ≤ fuel s := by
  induction run with
  | nil s => exact Nat.le_refl _
  | @cons s t u e v es vs may now later ih =>
    obtain ⟨next, value, stepped, kept⟩ := keeps s e start may
    cases now.symm.trans stepped
    have first := uses s e t v start may now
    have rest := ih kept
    rw [List.length_cons]
    omega

def tally (m : Machine State Event Value Fault) (cost : State → Event → Nat) : State → List Event → Nat
  | _, [] => 0
  | s, e :: es => cost s e + match m.step s e with
    | .ok (t, _) => m.tally cost t es
    | .error _ => 0

theorem Run.tallied {m : Machine State Event Value Fault} {cost : State → Event → Nat}
    {holds : State → Nat → Prop} {s t : State} {es : List Event} {vs : List Value} (run : m.Run s es vs t)
    {spent : Nat} (start : holds s spent)
    (each : ∀ s e t v n, holds s n → m.allowed s e → m.step s e = .ok (t, v) → holds t (n + cost s e)) :
    holds t (spent + m.tally cost s es) := by
  induction run generalizing spent with
  | nil s => exact start
  | @cons s t u e v es vs may now later ih =>
    have rest := ih (each s e t v spent start may now)
    rwa [tally, now, ← Nat.add_assoc]

theorem Run.split {m : Machine State Event Value Fault} {s u : State} {es fs : List Event}
    {vs : List Value} (run : m.Run s (es ++ fs) vs u) :
    ∃ us t ws, m.Run s es us t ∧ m.Run t fs ws u ∧ vs = us ++ ws := by
  induction es generalizing s vs with
  | nil => exact ⟨[], s, vs, .nil s, run, rfl⟩
  | cons e es ih =>
    cases run with
    | cons may now later =>
      obtain ⟨us, t, ws, before, after, rfl⟩ := ih later
      exact ⟨_ :: us, t, ws, .cons may now before, after, rfl⟩

theorem Run.length {m : Machine State Event Value Fault} {s t : State} {es : List Event}
    {vs : List Value} (run : m.Run s es vs t) : es.length = vs.length := by
  induction run with
  | nil s => rfl
  | cons may now later ih => rw [List.length_cons, List.length_cons, ih]

theorem Run.append {m : Machine State Event Value Fault} {s t u : State} {es fs : List Event}
    {vs ws : List Value} (first : m.Run s es vs t) (second : m.Run t fs ws u) :
    m.Run s (es ++ fs) (vs ++ ws) u := by
  induction first with
  | nil s => exact second
  | cons may now later ih => exact .cons may now (ih second)

def Reaches (m : Machine State Event Value Fault) (goal : State → Prop) (s : State) : Prop :=
  ∃ es vs t, m.Run s es vs t ∧ goal t

/-- Where a call can be made that uses something up until the goal is there, it can be reached. -/
theorem reaches_of_progress {m : Machine State Event Value Fault} {goal : State → Prop} (inv : State → Prop)
    (fuel : State → Nat)
    (progress : ∀ s, inv s → ¬ goal s →
      ∃ e t v, m.allowed s e ∧ m.step s e = .ok (t, v) ∧ inv t ∧ fuel t < fuel s)
    {s : State} (start : inv s) : m.Reaches goal s := by
  induction amount : fuel s using Nat.strongRecOn generalizing s with
  | ind n ih =>
    by_cases there : goal s
    · exact ⟨[], [], s, .nil s, there⟩
    · obtain ⟨e, t, v, may, now, kept, less⟩ := progress s start there
      obtain ⟨es, vs, u, later, final⟩ := ih (fuel t) (amount ▸ less) kept rfl
      exact ⟨e :: es, v :: vs, u, .cons may now later, final⟩

end Machine
end Syseng.Support
