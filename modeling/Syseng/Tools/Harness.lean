import Mathlib.Algebra.Order.Ring.Int
import Mathlib.Algebra.Order.Ring.Nat
import Mathlib.Data.List.Basic
import Syseng.Support.Signed

/-! The test framework of `common.h` and `common.hpp`: an assertion that fails counts, prints and
returns from the function that it stands in, and `TEST_END` turns the counts into the exit code. -/

namespace Syseng.Tools.Harness
open Support

variable {σ : Type}

/-- What a test function does, `σ` being all that it can change. `look` goes on as the state tells,
so branches and loops are unrolled; `call` is a helper function with assertions of its own. -/
inductive Test (σ : Type) where
  | done
  | act (work : σ → σ) (rest : Test σ)
  | check (holds : σ → Bool) (message : σ → String) (rest : Test σ)
  | call (helper rest : Test σ)
  | look (next : σ → Test σ)

inductive Line where
  | pass (test : String)
  | fail (test message : String)
  | summary (green : Bool) (passed run : Int32)
  deriving DecidableEq, Repr

namespace Line

def text : Line → String
  | .pass test => "\x1b[92m  PASS\x1b[0m " ++ test ++ "\n"
  | .fail test message => "\x1b[91m  FAIL\x1b[0m " ++ test ++ ": " ++ message ++ "\n"
  | .summary green passed run => "\n" ++ (if green then "\x1b[92m\x1b[1m" else "\x1b[91m\x1b[1m") ++
    toString passed ++ "/" ++ toString run ++ " tests passed\x1b[0m\n"

end Line

structure Counters where
  testsRun : Int32
  testsPassed : Int32
  testsFailed : Int32
  currentTest : Option String
  out : List Line
  deriving DecidableEq, Repr

namespace Counters

def fail (k : Counters) (message : String) : Except Fault Counters := do
  let testsFailed ← Signed.add k.testsFailed 1
  .ok { k with testsFailed, out := k.out ++ [.fail (k.currentTest.getD "(null)") message] }

def begins (k : Counters) : Counters := { k with testsRun := 0, testsPassed := 0, testsFailed := 0 }

end Counters

/-- The test function as it runs in the framework. -/
def Test.exec : Test σ → σ → Counters → Except Fault (σ × Counters)
  | .done, s, k => .ok (s, k)
  | .act work rest, s, k => rest.exec (work s) k
  | .check holds message rest, s, k =>
    if holds s then rest.exec s k
    else do
      let k ← k.fail (message s)
      .ok (s, k)
  | .call helper rest, s, k => do
    let (t, k) ← helper.exec s k
    rest.exec t k
  | .look next, s, k => (next s).exec s k

def runTest (name : String) (fn : Test σ) (s : σ) (k : Counters) : Except Fault (σ × Counters) := do
  let testsRun ← Signed.add k.testsRun 1
  let prevFailed := k.testsFailed
  let (t, k) ← fn.exec s { k with currentTest := some name, testsRun }
  if k.testsFailed = prevFailed then
    let testsPassed ← Signed.add k.testsPassed 1
    .ok (t, { k with testsPassed, out := k.out ++ [.pass name] })
  else .ok (t, k)

def runTests : List (String × Test σ) → σ → Counters → Except Fault (σ × Counters)
  | [], s, k => .ok (s, k)
  | (name, fn) :: tests, s, k => do
    let (t, k) ← runTest name fn s k
    runTests tests t k

structure Report (σ : Type) where
  state : σ
  counters : Counters
  exit : Nat

def testEnd (s : σ) (k : Counters) : Report σ where
  state := s
  counters := { k with out := k.out ++ [.summary (k.testsFailed == 0) k.testsPassed k.testsRun] }
  exit := if k.testsFailed = 0 then 0 else 1

def main (tests : List (String × Test σ)) (s : σ) : Except Fault (Report σ) := do
  let k : Counters := ⟨0, 0, 0, none, []⟩
  let (t, k) ← runTests tests s k.begins
  .ok (testEnd t k)

section Macros
variable (file : String) (line : Nat) (rest : Test σ)

def place (file : String) (line : Nat) : String := "  (" ++ file ++ ":" ++ toString line ++ ")"

/-- The casts of `ASSERT_EQ` in `common.h`. -/
def longLong (x : Int) : Int := x.bmod (2 ^ 64)

def assertEq (expected actual : σ → Int) : Test σ :=
  .check (fun s => longLong (expected s) == longLong (actual s))
    (fun s => "expected " ++ toString (longLong (expected s)) ++ ", got " ++
      toString (longLong (actual s)) ++ place file line) rest

def assertTrue (text : String) (cond : σ → Bool) : Test σ :=
  .check cond (fun _ => "assertion failed: " ++ text ++ place file line) rest

def assertFalse (text : String) (cond : σ → Bool) : Test σ :=
  assertTrue file line rest ("!(" ++ text ++ ")") fun s => !cond s

/-- `none` is the null pointer; it is unequal to any string, and to itself. -/
def assertStrEq (expected actual : σ → Option String) : Test σ :=
  .check (fun s => match expected s, actual s with
      | some e, some a => e == a
      | _, _ => false)
    (fun s => "expected \"" ++ (expected s).getD "(null)" ++ "\", got \"" ++ (actual s).getD "(null)" ++
      "\"" ++ place file line) rest

end Macros

/-- The same function where assertions are only looked at: where it ends, and whether each
assertion that it comes to holds. -/
def Test.plain : Test σ → σ → σ × Bool
  | .done, s => (s, true)
  | .act work rest, s => rest.plain (work s)
  | .check holds _ rest, s =>
    let (t, ok) := rest.plain s
    (t, holds s && ok)
  | .call helper rest, s =>
    let (t, ok) := helper.plain s
    let (u, ok') := rest.plain t
    (u, ok && ok')
  | .look next, s => (next s).plain s

def plainTests : List (String × Test σ) → σ → σ × Bool
  | [], s => (s, true)
  | (_, fn) :: tests, s =>
    let (t, ok) := fn.plain s
    let (u, ok') := plainTests tests t
    (u, ok && ok')

/-- `ASSERT_EQ` compares remainders: it cannot tell -1 from the largest 64-bit number. -/
theorem assertEq_plain (file : String) (line : Nat) (rest : Test σ) (expected actual : σ → Int) (s : σ) :
    ((assertEq file line rest expected actual).plain s).2 = true ↔
      expected s % (2 ^ 64 : Nat) = actual s % (2 ^ 64 : Nat) ∧ (rest.plain s).2 = true := by
  change (longLong (expected s) == longLong (actual s) && (rest.plain s).2) = true ↔ _
  rw [Bool.and_eq_true, beq_iff_eq, longLong, longLong]
  apply and_congr_left'
  constructor
  · intro same
    rw [← Int.bmod_emod, same, Int.bmod_emod]
  · intro same
    rw [← Int.emod_bmod, same, Int.emod_bmod]

/-- The same function but for the counters: where it ends in the framework, and the messages of the
assertions that have failed on the way. -/
def Test.failing : Test σ → σ → σ × List String
  | .done, s => (s, [])
  | .act work rest, s => rest.failing (work s)
  | .check holds message rest, s => if holds s then rest.failing s else (s, [message s])
  | .call helper rest, s =>
    let (t, first) := helper.failing s
    let (u, second) := rest.failing t
    (u, first ++ second)
  | .look next, s => (next s).failing s

/-- No assertion fails exactly where all those hold that the plain run comes to, and then both runs
end in the same state. -/
theorem failing_plain (test : Test σ) (s : σ) :
    ((test.failing s).2 = [] ↔ (test.plain s).2 = true) ∧
      ((test.plain s).2 = true → (test.failing s).1 = (test.plain s).1) := by
  induction test generalizing s with
  | done => simp [Test.failing, Test.plain]
  | act work rest ih => exact ih (work s)
  | look next ih => exact ih s s
  | check holds message rest ih =>
    cases here : holds s with
    | true => simpa [Test.failing, Test.plain, here] using ih s
    | false => simp [Test.failing, Test.plain, here]
  | call helper rest ihHelper ihRest =>
    obtain ⟨first, state⟩ := ihHelper s
    cases fine : (helper.plain s).2 with
    | false =>
      have some_ : (helper.failing s).2 ≠ [] := fun none_ => by simp [first.mp none_] at fine
      simp [Test.failing, Test.plain, fine, some_]
    | true =>
      have second := ihRest (helper.plain s).1
      simpa [Test.failing, Test.plain, fine, first.mpr fine, state fine] using second

structure Counters.After (k : Counters) (messages : List String) (l : Counters) : Prop where
  run : l.testsRun = k.testsRun
  passed : l.testsPassed = k.testsPassed
  failed : l.testsFailed.toInt = k.testsFailed.toInt + messages.length
  test : l.currentTest = k.currentTest
  out : l.out = k.out ++ messages.map (.fail (k.currentTest.getD "(null)"))

theorem Counters.After.refl (k : Counters) : k.After [] k := by
  constructor <;> simp

theorem Counters.After.trans {k l m : Counters} {first second : List String} (before : k.After first l)
    (after : l.After second m) : k.After (first ++ second) m where
  run := after.run.trans before.run
  passed := after.passed.trans before.passed
  failed := by
    rw [after.failed, before.failed, List.length_append]
    omega
  test := after.test.trans before.test
  out := by rw [after.out, before.out, before.test, List.map_append, List.append_assoc]

theorem fail_cases (k : Counters) (message : String) :
    (∃ l, k.fail message = .ok l ∧ k.After [message] l) ∨
      (k.fail message = .error .outOfRange ∧ 2 ^ 31 ≤ k.testsFailed.toInt + 1) := by
  unfold Counters.fail
  rcases Signed.add_one_cases k.testsFailed with ⟨next, made, value⟩ | ⟨refused, large⟩
  · rw [made]
    exact Or.inl ⟨_, rfl, rfl, rfl, value, rfl, rfl⟩
  · rw [refused]
    exact Or.inr ⟨rfl, large⟩

theorem exec_cases (test : Test σ) (s : σ) (k : Counters) :
    (∃ l, test.exec s k = .ok ((test.failing s).1, l) ∧ k.After (test.failing s).2 l) ∨
      (test.exec s k = .error .outOfRange ∧ 2 ^ 31 ≤ k.testsFailed.toInt + (test.failing s).2.length) := by
  induction test generalizing s k with
  | done => exact Or.inl ⟨k, rfl, .refl k⟩
  | act work rest ih => exact ih (work s) k
  | look next ih => exact ih s s k
  | check holds message rest ih =>
    cases here : holds s with
    | true => simpa [Test.exec, Test.failing, here] using ih s k
    | false =>
      rcases fail_cases k (message s) with ⟨l, failed, after⟩ | ⟨refused, large⟩
      · refine Or.inl ⟨l, by simp [Test.exec, Test.failing, here, failed], ?_⟩
        simpa [Test.failing, here] using after
      · exact Or.inr ⟨by simp [Test.exec, here, refused], by simpa [Test.failing, here] using large⟩
  | call helper rest ihHelper ihRest =>
    have all : (Test.call helper rest).failing s = ((rest.failing (helper.failing s).1).1,
      (helper.failing s).2 ++ (rest.failing (helper.failing s).1).2) := rfl
    rw [all, List.length_append]
    rcases ihHelper s k with ⟨l, first, before⟩ | ⟨refused, large⟩
    · have failed := before.failed
      rcases ihRest (helper.failing s).1 l with ⟨m, second, after⟩ | ⟨refused, large⟩
      · exact Or.inl ⟨m, by rw [Test.exec, first]; exact second, before.trans after⟩
      · exact Or.inr ⟨by rw [Test.exec, first]; exact refused, by omega⟩
    · exact Or.inr ⟨by rw [Test.exec, refused]; rfl, by omega⟩

def linesOf (name : String) (messages : List String) : List Line :=
  if messages = [] then [.pass name] else messages.map (.fail name)

def allLines : List (String × Test σ) → σ → List Line
  | [], _ => []
  | (name, fn) :: tests, s => linesOf name (fn.failing s).2 ++ allLines tests (fn.failing s).1

def Line.isPass : Line → Bool
  | .pass _ => true
  | _ => false

def Line.isFail : Line → Bool
  | .fail _ _ => true
  | _ => false

theorem countP_fails (name : String) (messages : List String) :
    (messages.map (Line.fail name)).countP Line.isFail = messages.length := by
  rw [List.countP_map, List.countP_eq_length]
  intro message member
  rfl

theorem countP_passes (name : String) (messages : List String) :
    (messages.map (Line.fail name)).countP Line.isPass = 0 := by
  rw [List.countP_map, List.countP_eq_zero]
  intro message member
  simp [Line.isPass]

theorem fails_linesOf (name : String) (messages : List String) :
    (linesOf name messages).countP Line.isFail = messages.length := by
  unfold linesOf
  split
  next none_ => simp [none_, Line.isFail]
  next some_ => exact countP_fails name messages

structure Counters.Grows (k : Counters) (tests : Nat) (lines : List Line) (l : Counters) : Prop where
  run : l.testsRun.toInt = k.testsRun.toInt + tests
  passed : l.testsPassed.toInt = k.testsPassed.toInt + lines.countP Line.isPass
  failed : l.testsFailed.toInt = k.testsFailed.toInt + lines.countP Line.isFail
  out : l.out = k.out ++ lines

theorem Counters.Grows.refl (k : Counters) : k.Grows 0 [] k := by
  constructor <;> simp

theorem Counters.Grows.trans {k l m : Counters} {n o : Nat} {first second : List Line}
    (before : k.Grows n first l) (after : l.Grows o second m) : k.Grows (n + o) (first ++ second) m where
  run := by
    rw [after.run, before.run]
    omega
  passed := by
    rw [after.passed, before.passed, List.countP_append]
    omega
  failed := by
    rw [after.failed, before.failed, List.countP_append]
    omega
  out := by rw [after.out, before.out, List.append_assoc]

theorem passed_grows {k l : Counters} {run more : Int32} {name : String}
    (after : { k with currentTest := some name, testsRun := run }.After [] l)
    (counted : run.toInt = k.testsRun.toInt + 1) (added : more.toInt = k.testsPassed.toInt + 1) :
    k.Grows 1 [.pass name] { l with testsPassed := more, out := l.out ++ [.pass name] } where
  run := (congrArg Int32.toInt after.run).trans counted
  passed := added
  failed := after.failed
  out := by
    rw [after.out, List.map_nil, List.append_nil]

theorem failed_grows {k l : Counters} {run : Int32} {name : String} {messages : List String}
    (after : { k with currentTest := some name, testsRun := run }.After messages l)
    (counted : run.toInt = k.testsRun.toInt + 1) : k.Grows 1 (messages.map (.fail name)) l where
  run := (congrArg Int32.toInt after.run).trans counted
  passed := by rw [after.passed, countP_passes, Nat.cast_zero, add_zero]
  failed := by rw [after.failed, countP_fails]
  out := after.out

theorem runTest_cases (name : String) (fn : Test σ) (s : σ) {k : Counters}
    (sane : k.testsPassed.toInt ≤ k.testsRun.toInt) :
    (∃ l, runTest name fn s k = .ok ((fn.failing s).1, l) ∧ k.Grows 1 (linesOf name (fn.failing s).2) l ∧
        l.testsPassed.toInt ≤ l.testsRun.toInt) ∨
      (runTest name fn s k = .error .outOfRange ∧ (2 ^ 31 ≤ k.testsRun.toInt + 1 ∨
        2 ^ 31 ≤ k.testsFailed.toInt + (fn.failing s).2.length)) := by
  unfold runTest
  rcases Signed.add_one_cases k.testsRun with ⟨run, counted, value⟩ | ⟨refused, large⟩
  · rw [counted, ok_bind]
    have high := run.toInt_lt
    rcases exec_cases fn s { k with currentTest := some name, testsRun := run } with
      ⟨l, executed, after⟩ | ⟨refused, large⟩
    · rw [executed, ok_bind]
      have failed : l.testsFailed.toInt = k.testsFailed.toInt + (fn.failing s).2.length := after.failed
      have passed : l.testsPassed = k.testsPassed := after.passed
      by_cases none_ : (fn.failing s).2 = []
      · have same : l.testsFailed = k.testsFailed := by
          apply Int32.toInt_inj.mp
          simpa [none_] using failed
        rcases Signed.add_one_cases l.testsPassed with ⟨more, added, amount⟩ | ⟨-, large⟩
        · rw [passed] at amount
          rw [none_] at after
          have grows := passed_grows after value amount
          have total : l.testsRun.toInt = k.testsRun.toInt + 1 := grows.run
          refine Or.inl ⟨_, (if_pos same).trans (by rw [added, ok_bind]), ?_, ?_⟩
          · rwa [linesOf, if_pos none_]
          · change more.toInt ≤ l.testsRun.toInt
            omega
        · rw [passed] at large
          omega
      · have grows := failed_grows after value
        have differs : l.testsFailed ≠ k.testsFailed := by
          intro same
          have positive := List.length_pos_of_ne_nil none_
          rw [same] at failed
          omega
        refine Or.inl ⟨l, by simp only [if_neg differs], by simpa only [linesOf, if_neg none_] using grows, ?_⟩
        have total := grows.run
        rw [passed]
        omega
    · rw [refused]
      exact Or.inr ⟨rfl, Or.inr large⟩
  · rw [refused]
    exact Or.inr ⟨rfl, Or.inl large⟩

def failures (tests : List (String × Test σ)) (s : σ) : Nat := (allLines tests s).countP Line.isFail

theorem runTests_cases (tests : List (String × Test σ)) (s : σ) {k : Counters}
    (sane : k.testsPassed.toInt ≤ k.testsRun.toInt) :
    (∃ t l, runTests tests s k = .ok (t, l) ∧ k.Grows tests.length (allLines tests s) l ∧
        ((plainTests tests s).2 = true → t = (plainTests tests s).1)) ∨
      (runTests tests s k = .error .outOfRange ∧ (2 ^ 31 ≤ k.testsRun.toInt + tests.length ∨
        2 ^ 31 ≤ k.testsFailed.toInt + failures tests s)) := by
  induction tests generalizing s k with
  | nil => exact Or.inl ⟨s, k, rfl, .refl k, fun _ => rfl⟩
  | cons test tests ih =>
    obtain ⟨name, fn⟩ := test
    have split : failures ((name, fn) :: tests) s =
        (fn.failing s).2.length + failures tests (fn.failing s).1 := by
      rw [failures, allLines, List.countP_append, fails_linesOf, failures]
    rw [split, List.length_cons, runTests]
    rcases runTest_cases name fn s sane with ⟨l, first, before, kept⟩ | ⟨refused, large⟩
    · rw [first, ok_bind]
      have run := before.run
      have failed := before.failed
      rw [fails_linesOf] at failed
      rcases ih (fn.failing s).1 kept with ⟨t, m, second, after, state⟩ | ⟨refused, large⟩
      · refine Or.inl ⟨t, m, second, Nat.add_comm 1 tests.length ▸ before.trans after, ?_⟩
        intro holds
        obtain ⟨fine, rest⟩ : (fn.plain s).2 = true ∧ (plainTests tests (fn.plain s).1).2 = true := by
          simpa [plainTests] using holds
        rw [(failing_plain fn s).2 fine] at state
        exact state rest
      · exact Or.inr ⟨refused, by omega⟩
    · rw [refused]
      exact Or.inr ⟨rfl, by omega⟩

/-- Each test, and whether all assertions hold that it comes to from the state it is started in. -/
def started : List (String × Test σ) → σ → List (String × Bool)
  | [], _ => []
  | (name, fn) :: tests, s => (name, (fn.plain s).2) :: started tests (fn.failing s).1

/-- The lines of a whole run: a PASS for each test that holds, one FAIL or more for each other. -/
inductive Reported : List (String × Bool) → List Line → Prop where
  | nil : Reported [] []
  | pass {tests : List (String × Bool)} {lines : List Line} (name : String) (rest : Reported tests lines) :
      Reported ((name, true) :: tests) (.pass name :: lines)
  | fail {tests : List (String × Bool)} {lines : List Line} (name : String) {messages : List String}
      (some_ : messages ≠ []) (rest : Reported tests lines) :
      Reported ((name, false) :: tests) (messages.map (.fail name) ++ lines)

theorem all_reported (tests : List (String × Test σ)) (s : σ) :
    Reported (started tests s) (allLines tests s) := by
  induction tests generalizing s with
  | nil => exact .nil
  | cons test tests ih =>
    obtain ⟨name, fn⟩ := test
    obtain ⟨none_, -⟩ := failing_plain fn s
    rw [started, allLines, linesOf]
    cases fine : (fn.plain s).2 with
    | true =>
      rw [if_pos (none_.mpr fine)]
      exact .pass name (ih _)
    | false =>
      have some_ : (fn.failing s).2 ≠ [] := fun empty => by simp [none_.mp empty] at fine
      rw [if_neg some_]
      exact .fail name some_ (ih _)

theorem Reported.passes {tests : List (String × Bool)} {lines : List Line} (reported : Reported tests lines) :
    lines.countP Line.isPass = tests.countP Prod.snd := by
  induction reported with
  | nil => rfl
  | pass name rest ih =>
    rw [List.countP_cons, List.countP_cons, ih]
    rfl
  | fail name some_ rest ih =>
    rw [List.countP_append, countP_passes, List.countP_cons, ih, Nat.zero_add]
    rfl

theorem Reported.no_fail_iff {tests : List (String × Bool)} {lines : List Line}
    (reported : Reported tests lines) :
    lines.countP Line.isFail = 0 ↔ tests.countP Prod.snd = tests.length := by
  induction reported with
  | nil => simp
  | @pass tests lines name rest ih => simpa [List.countP_cons, Line.isFail] using ih
  | @fail tests lines name messages some_ rest ih =>
    have positive := List.length_pos_of_ne_nil some_
    have below := tests.countP_le_length (p := Prod.snd)
    rw [List.countP_append, countP_fails, List.countP_cons, List.length_cons]
    simp only [Bool.false_eq_true, if_false]
    omega

theorem started_length (tests : List (String × Test σ)) (s : σ) : (started tests s).length = tests.length := by
  induction tests generalizing s with
  | nil => rfl
  | cons test tests ih =>
    obtain ⟨name, fn⟩ := test
    rw [started, List.length_cons, List.length_cons, ih]

theorem plain_iff (tests : List (String × Test σ)) (s : σ) :
    (plainTests tests s).2 = true ↔ (started tests s).countP Prod.snd = tests.length := by
  induction tests generalizing s with
  | nil => simp [plainTests, started]
  | cons test tests ih =>
    obtain ⟨name, fn⟩ := test
    have below := (started tests (fn.failing s).1).countP_le_length (p := Prod.snd)
    rw [started_length] at below
    cases holds : (fn.plain s).2 with
    | true =>
      rw [started, (failing_plain fn s).2 holds, List.countP_cons, holds, List.length_cons]
      simp only [plainTests, holds, Bool.true_and, if_true, ih, Nat.add_right_cancel_iff]
    | false =>
      rw [started, List.countP_cons, holds, List.length_cons]
      simp only [plainTests, holds, Bool.false_and, Bool.false_eq_true, if_false, false_iff]
      omega

theorem no_failures_iff (tests : List (String × Test σ)) (s : σ) :
    failures tests s = 0 ↔ (plainTests tests s).2 = true := by
  rw [failures, (all_reported tests s).no_fail_iff, started_length, plain_iff]

theorem main_cases (tests : List (String × Test σ)) (s : σ) :
    (∃ t k, main tests s = .ok (testEnd t k) ∧
        (⟨0, 0, 0, none, []⟩ : Counters).Grows tests.length (allLines tests s) k ∧
        ((plainTests tests s).2 = true → t = (plainTests tests s).1)) ∨
      (main tests s = .error .outOfRange ∧ (2 ^ 31 ≤ tests.length ∨ 2 ^ 31 ≤ failures tests s)) := by
  unfold main
  rcases runTests_cases tests s (k := ⟨0, 0, 0, none, []⟩) (Int.le_refl _) with
    ⟨t, l, ran, grows, state⟩ | ⟨refused, large⟩
  · exact Or.inl ⟨t, l, by simp [Counters.begins, ran], grows, state⟩
  · refine Or.inr ⟨by simp [Counters.begins, refused], ?_⟩
    have zero : (0 : Int32).toInt = 0 := rfl
    rw [zero] at large
    omega

theorem main_ok_iff (tests : List (String × Test σ)) (s : σ) :
    (∃ r, main tests s = .ok r) ↔ tests.length < 2 ^ 31 ∧ failures tests s < 2 ^ 31 := by
  have zero : (0 : Int32).toInt = 0 := rfl
  rcases main_cases tests s with ⟨t, k, ended, grows, -⟩ | ⟨refused, large⟩
  · apply iff_of_true ⟨_, ended⟩
    have run := grows.run
    have failed := grows.failed
    have small := k.testsRun.toInt_lt
    have small' := k.testsFailed.toInt_lt
    rw [zero] at run failed
    unfold failures
    omega
  · apply iff_of_false
    · simp [refused]
    · omega

theorem exit_cases {tests : List (String × Test σ)} {s : σ} {r : Report σ} (ended : main tests s = .ok r) :
    (r.exit = 0 ↔ (plainTests tests s).2 = true) ∧ (r.exit = 0 ∨ r.exit = 1) := by
  rcases main_cases tests s with ⟨t, k, done, grows, -⟩ | ⟨refused, -⟩
  · cases done.symm.trans ended
    have failed : k.testsFailed.toInt = failures tests s := by simpa [failures] using grows.failed
    have zero : k.testsFailed = 0 ↔ failures tests s = 0 := by
      rw [← Int32.toInt_inj, failed]
      exact Int.natCast_eq_zero
    rw [← no_failures_iff, ← zero]
    unfold testEnd
    by_cases none_ : k.testsFailed = 0
    · simp [none_]
    · simp [none_]
  · cases refused.symm.trans ended

/-- What a test program reports, against the same tests without the framework. -/
structure Verdict (tests : List (String × Test σ)) (s : σ) (r : Report σ) : Prop where
  exit_zero : r.exit = 0 ↔ (plainTests tests s).2 = true
  exit_one : r.exit ≠ 0 → r.exit = 1
  state : r.exit = 0 → r.state = (plainTests tests s).1
  run : r.counters.testsRun.toInt = tests.length
  passed : r.counters.testsPassed.toInt = (started tests s).countP Prod.snd
  all_passed : r.exit = 0 ↔ r.counters.testsPassed = r.counters.testsRun
  printed : ∃ lines, Reported (started tests s) lines ∧
    r.counters.testsFailed.toInt = lines.countP Line.isFail ∧
    r.counters.out = lines ++ [.summary (r.exit == 0) r.counters.testsPassed r.counters.testsRun]

/-- No counter overflows exactly where an `int` can hold the number of tests and of failures, and then
the program exits with 0 exactly when every assertion holds that its tests come to, also in helper
functions, from which a failing assertion returns into the test; each test has its PASS, or its FAILs,
and no other lines. -/
theorem main_verdict (tests : List (String × Test σ)) (s : σ) :
    ((∃ r, main tests s = .ok r) ↔ tests.length < 2 ^ 31 ∧ failures tests s < 2 ^ 31) ∧
      ∀ r, main tests s = .ok r → Verdict tests s r := by
  refine ⟨main_ok_iff tests s, fun r ended => ?_⟩
  obtain ⟨exit_zero, exits⟩ := exit_cases ended
  have reported := all_reported tests s
  rcases main_cases tests s with ⟨t, k, done, grows, state⟩ | ⟨refused, -⟩
  · cases done.symm.trans ended
    have run : k.testsRun.toInt = tests.length := by simpa using grows.run
    have passed : k.testsPassed.toInt = (started tests s).countP Prod.snd := by
      simpa [← reported.passes] using grows.passed
    have failed : k.testsFailed.toInt = (allLines tests s).countP Line.isFail := by simpa using grows.failed
    refine ⟨exit_zero, exits.resolve_left, fun zero => state (exit_zero.mp zero), run, passed, ?_, _, reported,
      failed, ?_⟩
    · rw [exit_zero, plain_iff]
      change _ ↔ k.testsPassed = k.testsRun
      rw [← Int32.toInt_inj, run, passed, Nat.cast_inj]
    · have green : ((testEnd t k).exit == 0) = (k.testsFailed == 0) := by
        unfold testEnd
        by_cases none_ : k.testsFailed = 0
        · simp [none_]
        · simp [none_]
      rw [green]
      simp [testEnd, grows.out]
  · cases refused.symm.trans ended

example : (main [("helped", .call (.check (· == 1) (fun _ => "a") .done) (.check (· == 2) (fun _ => "b") .done)),
    ("left", .act (· + 1) (.check (· == 1) (fun _ => "c") .done))] 0).map (·.counters.out) =
    .ok [.fail "helped" "a", .fail "helped" "b", .pass "left", .summary false 1 2] := by decide

end Syseng.Tools.Harness
