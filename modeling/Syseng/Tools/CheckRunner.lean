import Syseng.Tools.Harness

/-! `check.py`, which runs a test program, under `valgrind` if asked to, and passes its verdict on. -/

namespace Syseng.Tools.CheckRunner
open Harness

variable {σ : Type}

/-- What `subprocess.run` comes to: a return code is negative where a signal ended the program. -/
inductive Outcome where
  | exited (returncode : Int) (stdout stderr : String)
  | timeoutExpired
  | fileNotFound
  deriving DecidableEq, Repr

inductive Message where
  | stdout (text : String)
  | stderr (text : String)
  | completed (elapsed : String)
  | allTestsPassed
  | memoryErrors
  | someTestsFailed (returncode : Int)
  | timeout (elapsed : String)
  | notFound (command : String)
  | usage (script : String)
  deriving DecidableEq, Repr

namespace Message

def text : Message → String
  | .stdout text => text
  | .stderr text => "\x1b[93m" ++ text ++ "\x1b[0m"
  | .completed elapsed => "\n\x1b[96mCompleted in " ++ elapsed ++ "s\x1b[0m\n"
  | .allTestsPassed => "\x1b[92m\x1b[1mALL TESTS PASSED\x1b[0m\n"
  | .memoryErrors => "\x1b[91m\x1b[1mMEMORY ERRORS DETECTED\x1b[0m\n"
  | .someTestsFailed returncode =>
    "\x1b[91m\x1b[1mSOME TESTS FAILED (exit code " ++ toString returncode ++ ")\x1b[0m\n"
  | .timeout elapsed => "\x1b[91m\x1b[1mTIMEOUT\x1b[0m after " ++ elapsed ++ "s\n"
  | .notFound command => "\x1b[91mError: " ++ command ++ " not found. Did you run 'make'?\x1b[0m\n"
  | .usage script => "Usage: " ++ script ++ " [--valgrind] ./test_binary [args...]\n"

end Message

def command (cmd : List String) (useValgrind : Bool) : List String :=
  if useValgrind then ["valgrind", "--leak-check=full", "--error-exitcode=99"] ++ cmd else cmd

def printed (stdout stderr clock : String) : List Message :=
  (if stdout = "" then [] else [.stdout stdout]) ++ (if stderr = "" then [] else [.stderr stderr]) ++
    [.completed clock]

/-- `spawn` runs a command for 30 seconds at most, and `clock` is the time that it took, as printed. -/
def runTest (spawn : List String → Outcome) (clock : String) (cmd : List String) (useValgrind : Bool) :
    Int × List Message :=
  let cmd := command cmd useValgrind
  match spawn cmd with
  | .timeoutExpired => (1, [.timeout clock])
  | .fileNotFound => (1, [.notFound (cmd.headD "")])
  | .exited returncode stdout stderr =>
    let verdict := if returncode = 0 then .allTestsPassed
      else if useValgrind ∧ returncode = 99 then .memoryErrors
      else .someTestsFailed returncode
    (returncode, printed stdout stderr clock ++ [verdict])

/-- `argv` has the name of the script first. The flag may stand anywhere after it; the result is the
argument of `sys.exit`, and what is printed before. -/
def main (spawn : List String → Outcome) (clock : String) (argv : List String) : Int × List Message :=
  let args := argv.drop 1
  let useValgrind := args.contains "--valgrind"
  let args := args.erase "--valgrind"
  if args = [] then (1, [.usage (argv.headD "")]) else runTest spawn clock args useValgrind

def status (code : Int) : Int := code % 256

/-- The ways in which a test program with this exit code can end; `valgrind` exits with 99 where it
has found `errors`, and else as the program does. -/
inductive Ends (exit : Nat) (useValgrind errors : Bool) : Outcome → Prop where
  | timeout : Ends exit useValgrind errors .timeoutExpired
  | signal (n : Int) (positive : 0 < n) (small : n < 128) (stdout stderr : String) :
      Ends exit useValgrind errors (.exited (-n) stdout stderr)
  | exited (stdout stderr : String) :
      Ends exit useValgrind errors (.exited (if useValgrind && errors then 99 else exit) stdout stderr)

/-- The program came to its end by itself and in time. -/
def Outcome.Finished : Outcome → Prop
  | .exited returncode _ _ => 0 ≤ returncode
  | _ => False

section Outcomes
variable {spawn : List String → Outcome} {clock : String} {cmd : List String} {useValgrind : Bool}

end Outcomes

end Syseng.Tools.CheckRunner
