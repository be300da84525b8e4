import Mathlib.Data.List.Perm.Basic
import Mathlib.Data.List.Nodup
import Syseng.Support.Machine
import Syseng.Support.Table

/-! Blocks of code whose objects are destroyed, latest first, however a block is left. The
objects and their calls are those of a machine, and an exception is a value that a call returns. -/

namespace Syseng.Support.Scopes
variable {State Event Value Name Fault : Type}

/-- What a client writes. A loop that has run is the sequence of its rounds. -/
inductive Code (Event Name : Type) where
  | skip
  | call (e : Event)
  | declare (x : Name) (e : Event)
  | seq (first second : Code Event Name)
  | block (body : Code Event Name)
  | ret
  | throw
  | function (body : Code Event Name)
  | attempt (body handler : Code Event Name)

inductive Exit where
  | next
  | returned
  | thrown
  deriving DecidableEq, Repr

/-- Which calls begin the life of an object, and which call ends it. -/
structure Objects (Event Value Name : Type) where
  makes : Event → Option Name
  ended : Event → Option Name
  destroy : Name → Event
  throws : Value → Bool
  ended_destroy : ∀ x, ended (destroy x) = some x
  makes_destroy : ∀ x, makes (destroy x) = none
  ended_of_makes : ∀ {e x}, makes e = some x → ended e = none

structure Result (State Event Value Name : Type) where
  state : State
  locals : List Name
  exit : Exit
  trace : List (Event × Value)

section Execution
variable (m : Machine State Event Value Fault) (o : Objects Event Value Name)

def unwind : List Name → State → Except Fault (State × List (Event × Value))
  | [], s => .ok (s, [])
  | x :: xs, s => do
    let (t, v) ← m.step s (o.destroy x)
    let (u, trace) ← unwind xs t
    .ok (u, (o.destroy x, v) :: trace)

def close (locals : List Name) (r : Result State Event Value Name) :
    Except Fault (Result State Event Value Name) := do
  let (t, cleanup) ← unwind m o r.locals r.state
  .ok ⟨t, locals, r.exit, r.trace ++ cleanup⟩

/-- An object whose constructor throws has never begun its life. -/
def exec : Code Event Name → State → List Name → Except Fault (Result State Event Value Name)
  | .skip, s, locals => .ok ⟨s, locals, .next, []⟩
  | .call e, s, locals => do
    let (t, v) ← m.step s e
    .ok ⟨t, locals, if o.throws v then .thrown else .next, [(e, v)]⟩
  | .declare x e, s, locals => do
    let (t, v) ← m.step s e
    if o.throws v then .ok ⟨t, locals, .thrown, [(e, v)]⟩ else .ok ⟨t, x :: locals, .next, [(e, v)]⟩
  | .seq first second, s, locals => do
    let r ← exec first s locals
    if r.exit = .next then
      let r' ← exec second r.state r.locals
      .ok { r' with trace := r.trace ++ r'.trace }
    else .ok r
  | .block body, s, locals => do
    let r ← exec body s []
    close m o locals r
  | .ret, s, locals => .ok ⟨s, locals, .returned, []⟩
  | .throw, s, locals => .ok ⟨s, locals, .thrown, []⟩
  | .function body, s, locals => do
    let r ← exec body s []
    let r ← close m o locals r
    .ok { r with exit := if r.exit = .returned then .next else r.exit }
  | .attempt body handler, s, locals => do
    let r ← exec body s []
    let r ← close m o locals r
    if r.exit = .thrown then
      let r' ← exec handler r.state []
      let r' ← close m o locals r'
      .ok { r' with trace := r.trace ++ r'.trace }
    else .ok r

def After (p : Result State Event Value Name → Prop) :
    Except Fault (Result State Event Value Name) → Prop
  | .ok r => p r
  | .error _ => True

/-- What the client answers for: each call that it makes itself is allowed when it is made, and
it leaves the destructors to the blocks. -/
def Guarded : Code Event Name → State → List Name → Prop
  | .call e, s, _ => m.allowed s e ∧ o.makes e = none ∧ o.ended e = none
  | .declare x e, s, _ => m.allowed s e ∧ o.makes e = some x
  | .seq first second, s, locals => Guarded first s locals ∧
    After (fun r => r.exit = .next → Guarded second r.state r.locals) (exec m o first s locals)
  | .block body, s, _ => Guarded body s []
  | .function body, s, _ => Guarded body s []
  | .attempt body handler, s, locals => Guarded body s [] ∧
    After (fun r => r.exit = .thrown → Guarded handler r.state []) (exec m o body s [] >>= close m o locals)
  | .skip, _, _ => True
  | .ret, _, _ => True
  | .throw, _, _ => True

instance {p : Result State Event Value Name → Prop} [∀ r, Decidable (p r)] :
    (x : Except Fault (Result State Event Value Name)) → Decidable (After p x)
  | .ok r => inferInstanceAs (Decidable (p r))
  | .error _ => inferInstanceAs (Decidable True)

instance decidableGuarded [∀ s e, Decidable (m.allowed s e)] [DecidableEq Name] :
    (c : Code Event Name) → (s : State) → (locals : List Name) → Decidable (Guarded m o c s locals)
  | .call e, s, _ => inferInstanceAs (Decidable (m.allowed s e ∧ o.makes e = none ∧ o.ended e = none))
  | .declare x e, s, _ => inferInstanceAs (Decidable (m.allowed s e ∧ o.makes e = some x))
  | .seq first second, _, _ =>
    have := decidableGuarded first
    have := decidableGuarded second
    inferInstanceAs (Decidable (_ ∧ After (fun r => r.exit = .next → _) _))
  | .block body, s, _ => decidableGuarded body s []
  | .function body, s, _ => decidableGuarded body s []
  | .attempt body handler, _, _ =>
    have := decidableGuarded body
    have := decidableGuarded handler
    inferInstanceAs (Decidable (_ ∧ After (fun r => r.exit = .thrown → _) _))
  | .skip, _, _ => inferInstanceAs (Decidable True)
  | .ret, _, _ => inferInstanceAs (Decidable True)
  | .throw, _, _ => inferInstanceAs (Decidable True)

end Execution

inductive Mark (Name : Type) where
  | made (x : Name)
  | gone (x : Name)
  deriving DecidableEq

/-- Lives that lie inside one another or side by side. -/
inductive Nested : List (Mark Name) → Prop where
  | nil : Nested []
  | life (x : Name) {within after : List (Mark Name)} (inner : Nested within) (rest : Nested after) :
      Nested (.made x :: within ++ .gone x :: after)

/-- The same, but for the lives of `xs`, latest first, that still go on. -/
inductive Open : List Name → List (Mark Name) → Prop where
  | nil {marks : List (Mark Name)} (nested : Nested marks) : Open [] marks
  | cons {x : Name} {xs : List Name} {before within : List (Mark Name)} (outer : Open xs before)
      (nested : Nested within) : Open (x :: xs) (before ++ .made x :: within)

theorem Nested.append {first second : List (Mark Name)} (left : Nested first) (right : Nested second) :
    Nested (first ++ second) := by
  induction left with
  | nil => exact right
  | life x inner rest _ ih =>
    have joined := Nested.life x inner ih
    simpa only [List.append_assoc, List.cons_append] using joined

theorem Open.append {xs : List Name} {marks more : List (Mark Name)} (pending : Open xs marks)
    (nested : Nested more) : Open xs (marks ++ more) := by
  cases pending with
  | nil before => exact .nil (before.append nested)
  | cons outer within =>
    rw [List.append_assoc, List.cons_append]
    exact .cons outer (within.append nested)

theorem Open.push {xs : List Name} {marks : List (Mark Name)} (pending : Open xs marks) (x : Name) :
    Open (x :: xs) (marks ++ [.made x]) := .cons pending .nil

theorem Open.trans {xs ys : List Name} {marks more : List (Mark Name)} (first : Open xs marks)
    (second : Open ys more) : Open (ys ++ xs) (marks ++ more) := by
  induction second with
  | nil nested => exact first.append nested
  | cons outer nested ih =>
    rw [← List.append_assoc]
    exact .cons ih nested

theorem Open.close {xs : List Name} {marks : List (Mark Name)} (pending : Open xs marks) :
    Nested (marks ++ xs.map .gone) := by
  induction xs generalizing marks with
  | nil =>
    cases pending with
    | nil nested => rwa [List.map_nil, List.append_nil]
  | cons x xs ih =>
    cases pending with
    | @cons _ _ before within outer nested =>
      have whole := ih (outer.append (.life x nested .nil))
      simpa using whole

def Objects.mark (o : Objects Event Value Name) (call : Event × Value) : Option (Mark Name) :=
  match o.makes call.1 with
  | some x => if o.throws call.2 then none else some (.made x)
  | none => (o.ended call.1).map .gone

def Objects.marks (o : Objects Event Value Name) (trace : List (Event × Value)) : List (Mark Name) :=
  trace.filterMap o.mark

/-- How the objects of a machine live: `inv` holds between calls, and `live` says who is there. -/
structure Lifetimes (m : Machine State Event Value Fault) (o : Objects Event Value Name)
    (inv : State → Prop) (live : State → Name → Prop) : Prop where
  keeps : m.Keeps inv
  may_destroy : ∀ s x, inv s → live s x → m.allowed s (o.destroy x)
  made : ∀ s e x t v, inv s → m.allowed s e → o.makes e = some x → m.step s e = .ok (t, v) →
    ¬ live s x ∧ ∀ y, live t y ↔ (y = x ∧ o.throws v = false) ∨ live s y
  gone : ∀ s x t v, inv s → live s x → m.step s (o.destroy x) = .ok (t, v) →
    ∀ y, live t y ↔ y ≠ x ∧ live s y
  other : ∀ s e t v, inv s → m.allowed s e → o.makes e = none → o.ended e = none →
    m.step s e = .ok (t, v) → ∀ y, live t y ↔ live s y

section Lives
variable {m : Machine State Event Value Fault} {o : Objects Event Value Name} {inv : State → Prop}
  {live : State → Name → Prop}

theorem marks_append (trace more : List (Event × Value)) :
    o.marks (trace ++ more) = o.marks trace ++ o.marks more := List.filterMap_append

theorem mark_destroy (x : Name) (v : Value) : o.mark (o.destroy x, v) = some (.gone x) := by
  simp [Objects.mark, o.makes_destroy, o.ended_destroy]

/-- The same from what one call does to a name: it begins a life, ends one, or neither. -/
theorem Lifetimes.of_step (may_destroy : ∀ s x, inv s → live s x → m.allowed s (o.destroy x))
    (absent : ∀ s e x, inv s → m.allowed s e → o.makes e = some x → ¬ live s x)
    (each : ∀ s e, inv s → m.allowed s e → ∃ t v, m.step s e = .ok (t, v) ∧ inv t ∧ ∀ y, live t y ↔
      (o.makes e = some y ∧ o.throws v = false) ∨ o.ended e ≠ some y ∧ live s y) :
    Lifetimes m o inv live where
  keeps := by
    intro s e held may
    obtain ⟨t, v, stepped, kept, -⟩ := each s e held may
    exact ⟨t, v, stepped, kept⟩
  may_destroy := may_destroy
  made := by
    intro s e x t v held may makes now
    obtain ⟨t', v', stepped, -, lives⟩ := each s e held may
    cases now.symm.trans stepped
    refine ⟨absent s e x held may makes, fun y => ?_⟩
    rw [lives, makes, o.ended_of_makes makes, Option.some_inj, @eq_comm _ y x]
    simp
  gone := by
    intro s x t v held there now y
    obtain ⟨t', v', stepped, -, lives⟩ := each s _ held (may_destroy s x held there)
    cases now.symm.trans stepped
    rw [lives, o.makes_destroy, o.ended_destroy, ne_eq, ne_eq, Option.some_inj, @eq_comm _ y x]
    simp
  other := by
    intro s e t v held may notMade notGone now y
    obtain ⟨t', v', stepped, -, lives⟩ := each s e held may
    cases now.symm.trans stepped
    simpa [notMade, notGone] using lives y

structure Leads (m : Machine State Event Value Fault) (o : Objects Event Value Name) (inv : State → Prop)
    (live : State → Name → Prop) (s t : State) (trace : List (Event × Value)) (fresh : List Name) : Prop where
  kept : inv t
  run : m.Run s (trace.map Prod.fst) (trace.map Prod.snd) t
  lives : Open fresh (o.marks trace)
  distinct : fresh.Nodup
  absent : ∀ x ∈ fresh, ¬ live s x
  live_iff : ∀ x, live t x ↔ x ∈ fresh ∨ live s x
  spares : ∀ x, live s x → ∀ e ∈ trace.map Prod.fst, o.makes e ≠ some x ∧ o.ended e ≠ some x

theorem Leads.refl {s : State} (held : inv s) : Leads m o inv live s s [] [] where
  kept := held
  run := .nil s
  lives := .nil .nil
  distinct := List.nodup_nil
  absent := by simp
  live_iff := by simp
  spares := by simp

theorem Leads.trans {s t u : State} {trace more : List (Event × Value)} {fresh newer : List Name}
    (first : Leads m o inv live s t trace fresh) (second : Leads m o inv live t u more newer) :
    Leads m o inv live s u (trace ++ more) (newer ++ fresh) where
  kept := second.kept
  run := by
    rw [List.map_append, List.map_append]
    exact first.run.append second.run
  lives := by
    rw [marks_append]
    exact first.lives.trans second.lives
  distinct := by
    rw [List.nodup_append']
    refine ⟨second.distinct, first.distinct, fun x new old => ?_⟩
    exact second.absent x new ((first.live_iff x).mpr (Or.inl old))
  absent := by
    intro x member
    rcases List.mem_append.mp member with new | old
    · exact fun before => second.absent x new ((first.live_iff x).mpr (Or.inr before))
    · exact first.absent x old
  live_iff := by
    intro x
    rw [second.live_iff, first.live_iff, List.mem_append, or_assoc]
  spares := by
    intro x before e member
    rw [List.map_append, List.mem_append] at member
    rcases member with old | new
    · exact first.spares x before e old
    · exact second.spares x ((first.live_iff x).mpr (Or.inr before)) e new

theorem call_leads (lifetimes : Lifetimes m o inv live) {s : State} (held : inv s) {e : Event}
    (may : m.allowed s e) (notMade : o.makes e = none) (notGone : o.ended e = none) :
    ∃ t v, m.step s e = .ok (t, v) ∧ Leads m o inv live s t [(e, v)] [] := by
  obtain ⟨t, v, stepped, kept⟩ := lifetimes.keeps s e held may
  refine ⟨t, v, stepped, kept, .cons may stepped (.nil t), ?_, List.nodup_nil, by simp, ?_, ?_⟩
  · have silent : o.mark (e, v) = none := by simp [Objects.mark, notMade, notGone]
    simpa [Objects.marks, silent] using Open.nil Nested.nil
  · intro x
    simpa using lifetimes.other s e t v held may notMade notGone stepped x
  · simp [notMade, notGone]

theorem declare_leads (lifetimes : Lifetimes m o inv live) {s : State} (held : inv s) {e : Event} {x : Name}
    (may : m.allowed s e) (makes : o.makes e = some x) :
    ∃ t v, m.step s e = .ok (t, v) ∧
      Leads m o inv live s t [(e, v)] (if o.throws v then [] else [x]) := by
  obtain ⟨t, v, stepped, kept⟩ := lifetimes.keeps s e held may
  obtain ⟨absent, lives⟩ := lifetimes.made s e x t v held may makes stepped
  have run : m.Run s [e] [v] t := .cons may stepped (.nil t)
  have notGone : o.ended e = none := o.ended_of_makes makes
  have spares : ∀ y, live s y → ∀ e' ∈ [e], o.makes e' ≠ some y ∧ o.ended e' ≠ some y := by
    intro y before e' member
    rw [List.mem_singleton.mp member, makes, notGone]
    refine ⟨?_, (Option.some_ne_none y).symm⟩
    rintro ⟨⟩
    exact absent before
  refine ⟨t, v, stepped, ?_⟩
  by_cases threw : o.throws v = true
  · have silent : o.mark (e, v) = none := by simp [Objects.mark, makes, threw]
    rw [if_pos threw]
    refine ⟨kept, run, ?_, List.nodup_nil, by simp, fun y => ?_, spares⟩
    · simpa [Objects.marks, silent] using Open.nil Nested.nil
    · simpa [threw] using lives y
  · have shown : o.mark (e, v) = some (.made x) := by simp [Objects.mark, makes, threw]
    rw [if_neg threw]
    refine ⟨kept, run, ?_, List.nodup_singleton x, by simpa using absent, fun y => ?_, spares⟩
    · simpa [Objects.marks, shown] using (Open.nil Nested.nil).push x
    · simpa [threw] using lives y

theorem unwind_ok (lifetimes : Lifetimes m o inv live) {xs : List Name} (distinct : xs.Nodup) {s : State}
    (held : inv s) (there : ∀ x ∈ xs, live s x) :
    ∃ t trace, unwind m o xs s = .ok (t, trace) ∧ inv t ∧
      m.Run s (trace.map Prod.fst) (trace.map Prod.snd) t ∧ o.marks trace = xs.map .gone ∧
      (∀ y, live t y ↔ y ∉ xs ∧ live s y) ∧ trace.map Prod.fst = xs.map o.destroy := by
  induction xs generalizing s with
  | nil => exact ⟨s, [], rfl, held, .nil s, rfl, by simp, rfl⟩
  | cons x xs ih =>
    obtain ⟨first, rest⟩ := List.forall_mem_cons.mp there
    obtain ⟨apart, others⟩ := List.nodup_cons.mp distinct
    have may := lifetimes.may_destroy s x held first
    obtain ⟨t, v, stepped, kept⟩ := lifetimes.keeps s _ held may
    have lives := lifetimes.gone s x t v held first stepped
    have still : ∀ y ∈ xs, live t y := by
      intro y member
      apply (lives y).mpr
      refine ⟨?_, rest y member⟩
      rintro rfl
      exact apart member
    obtain ⟨u, trace, unwound, kept', run, marks, lives', calls⟩ := ih others kept still
    refine ⟨u, (o.destroy x, v) :: trace, ?_, kept', .cons may stepped run, ?_, fun y => ?_, ?_⟩
    · simp [unwind, stepped, unwound]
    · rw [Objects.marks, List.filterMap_cons_some (mark_destroy x v), List.map_cons]
      exact congrArg _ marks
    · rw [lives', lives, List.mem_cons, not_or, and_assoc, and_left_comm]
    · rw [List.map_cons, calls, List.map_cons]

theorem unwind_append {xs ys : List Name} {s t u : State} {trace more : List (Event × Value)}
    (first : unwind m o xs s = .ok (t, trace)) (second : unwind m o ys t = .ok (u, more)) :
    unwind m o (xs ++ ys) s = .ok (u, trace ++ more) := by
  induction xs generalizing s trace with
  | nil =>
    cases first
    exact second
  | cons x xs ih =>
    obtain ⟨⟨s', v⟩, stepped, rest⟩ := bind_ok first
    obtain ⟨⟨t', trace'⟩, unwound, result⟩ := bind_ok rest
    cases result
    simp [unwind, stepped, ih unwound]

theorem close_ok (lifetimes : Lifetimes m o inv live) {s : State} {r : Result State Event Value Name}
    (leads : Leads m o inv live s r.state r.trace r.locals) (locals : List Name) :
    ∃ r', close m o locals r = .ok r' ∧ r'.locals = locals ∧ r'.exit = r.exit ∧
      Leads m o inv live s r'.state r'.trace [] := by
  have there : ∀ x ∈ r.locals, live r.state x := fun x member => (leads.live_iff x).mpr (Or.inl member)
  obtain ⟨t, cleanup, unwound, kept, run, marks, lives, calls⟩ :=
    unwind_ok lifetimes leads.distinct leads.kept there
  refine ⟨⟨t, locals, r.exit, r.trace ++ cleanup⟩, by simp [close, unwound], rfl, rfl, ?_⟩
  exact
    { kept := kept
      run := by
        rw [List.map_append, List.map_append]
        exact leads.run.append run
      lives := by
        rw [marks_append, marks]
        exact .nil leads.lives.close
      distinct := List.nodup_nil
      absent := by simp
      live_iff := by
        intro x
        rw [lives, leads.live_iff]
        have before := leads.absent x
        simp only [List.not_mem_nil, false_or]
        tauto
      spares := by
        intro x before e member
        rw [List.map_append, List.mem_append, calls] at member
        rcases member with body | cleaned
        · exact leads.spares x before e body
        · obtain ⟨y, declared, rfl⟩ := List.mem_map.mp cleaned
          rw [o.makes_destroy, o.ended_destroy]
          refine ⟨(Option.some_ne_none x).symm, ?_⟩
          rintro ⟨⟩
          exact leads.absent x declared before }

/-- Any client that makes only calls that are allowed runs to an end without a fault. -/
theorem exec_leads (lifetimes : Lifetimes m o inv live) (c : Code Event Name) {s : State} (held : inv s)
    (locals : List Name) (guarded : Guarded m o c s locals) :
    ∃ r fresh, exec m o c s locals = .ok r ∧ r.locals = fresh ++ locals ∧
      Leads m o inv live s r.state r.trace fresh := by
  induction c generalizing s locals with
  | skip => exact ⟨⟨s, locals, .next, []⟩, [], rfl, rfl, .refl held⟩
  | ret => exact ⟨⟨s, locals, .returned, []⟩, [], rfl, rfl, .refl held⟩
  | throw => exact ⟨⟨s, locals, .thrown, []⟩, [], rfl, rfl, .refl held⟩
  | call e =>
    obtain ⟨may, notMade, notGone⟩ := guarded
    obtain ⟨t, v, stepped, leads⟩ := call_leads lifetimes held may notMade notGone
    exact ⟨⟨t, locals, if o.throws v then .thrown else .next, [(e, v)]⟩, [], by simp [exec, stepped], rfl, leads⟩
  | declare x e =>
    obtain ⟨may, makes⟩ := guarded
    obtain ⟨t, v, stepped, leads⟩ := declare_leads lifetimes held may makes
    by_cases threw : o.throws v = true
    · rw [if_pos threw] at leads
      exact ⟨⟨t, locals, .thrown, [(e, v)]⟩, [], by simp [exec, stepped, threw], rfl, leads⟩
    · rw [if_neg threw] at leads
      exact ⟨⟨t, x :: locals, .next, [(e, v)]⟩, [x], by simp [exec, stepped, threw], rfl, leads⟩
  | seq first second ihFirst ihSecond =>
    obtain ⟨before, later⟩ := guarded
    obtain ⟨r, fresh, done, names, leads⟩ := ihFirst held locals before
    by_cases goesOn : r.exit = .next
    · rw [done] at later
      obtain ⟨r', newer, done', names', leads'⟩ := ihSecond leads.kept r.locals (later goesOn)
      refine ⟨{ r' with trace := r.trace ++ r'.trace }, newer ++ fresh, ?_, ?_, leads.trans leads'⟩
      · simp [exec, done, goesOn, done']
      · rw [names', names, List.append_assoc]
    · exact ⟨r, fresh, by simp [exec, done, goesOn], names, leads⟩
  | block body ih =>
    obtain ⟨r, fresh, done, names, leads⟩ := ih held [] guarded
    rw [List.append_nil] at names
    obtain ⟨r', closed, names', -, leads'⟩ := close_ok lifetimes (names ▸ leads) locals
    exact ⟨r', [], by simp [exec, done, closed], names', leads'⟩
  | function body ih =>
    obtain ⟨r, fresh, done, names, leads⟩ := ih held [] guarded
    rw [List.append_nil] at names
    obtain ⟨r', closed, names', -, leads'⟩ := close_ok lifetimes (names ▸ leads) locals
    exact ⟨{ r' with exit := if r'.exit = .returned then .next else r'.exit }, [],
      by simp [exec, done, closed], names', leads'⟩
  | attempt body handler ihBody ihHandler =>
    obtain ⟨before, later⟩ := guarded
    obtain ⟨r, fresh, done, names, leads⟩ := ihBody held [] before
    rw [List.append_nil] at names
    obtain ⟨r', closed, names', -, leads'⟩ := close_ok lifetimes (names ▸ leads) locals
    by_cases threw : r'.exit = .thrown
    · rw [done, ok_bind, closed] at later
      obtain ⟨h, caught, doneH, namesH, leadsH⟩ := ihHandler leads'.kept [] (later threw)
      rw [List.append_nil] at namesH
      obtain ⟨h', closedH, namesH', -, leadsH'⟩ := close_ok lifetimes (namesH ▸ leadsH) locals
      refine ⟨{ h' with trace := r'.trace ++ h'.trace }, [], ?_, namesH', leads'.trans leadsH'⟩
      simp [exec, done, closed, threw, doneH, closedH]
    · exact ⟨r', [], by simp [exec, done, closed, threw], names', leads'⟩

/-- What a client can rely on at the end of a block, however it was left. -/
structure Tidy (m : Machine State Event Value Fault) (o : Objects Event Value Name) (inv : State → Prop)
    (live : State → Name → Prop) (s t : State) (trace : List (Event × Value)) : Prop where
  kept : inv t
  run : m.Run s (trace.map Prod.fst) (trace.map Prod.snd) t
  nested : Nested (o.marks trace)
  live_iff : ∀ x, live t x ↔ live s x
  spares : ∀ x, live s x → ∀ e ∈ trace.map Prod.fst, o.makes e ≠ some x ∧ o.ended e ≠ some x

theorem block_tidy (lifetimes : Lifetimes m o inv live) (body : Code Event Name) {s : State} (held : inv s)
    (locals : List Name) (guarded : Guarded m o body s []) :
    ∃ r, exec m o (.block body) s locals = .ok r ∧ r.locals = locals ∧
      Tidy m o inv live s r.state r.trace := by
  obtain ⟨r, fresh, done, names, leads⟩ := exec_leads lifetimes body held [] guarded
  rw [List.append_nil] at names
  obtain ⟨r', closed, names', -, leads'⟩ := close_ok lifetimes (names ▸ leads) locals
  refine ⟨r', by simp [exec, done, closed], names', leads'.kept, leads'.run, ?_, ?_, leads'.spares⟩
  · cases leads'.lives with
    | nil nested => exact nested
  · intro x
    simpa using leads'.live_iff x

end Lives
end Syseng.Support.Scopes
