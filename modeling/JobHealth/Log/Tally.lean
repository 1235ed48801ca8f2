import JobHealth.Build
import JobHealth.Diagnostic
import JobHealth.Log.Line
/-!
# `JobHealth.Log.Tally` — failures gathered over the logs of many builds

`Failures` lists the failed tests in the order in which they were first named,
each with the builds whose logs name it, once per line that does.  `Tally` adds
the numbers of lines that report a failed build or a watchdog timeout.
Recording is additive: a log recorded twice counts twice.
-/

namespace JobHealth.Log

/-- Test keys in order of first occurrence, each with its builds in order. -/
structure Failures where
  entries : List (String × List Build)
  /-- The place of each listed test among the entries. -/
  index : List (String × Nat)
  deriving DecidableEq, Repr

namespace Failures

def empty : Failures := ⟨[], []⟩

/-- The place of a test among the entries, if it is listed. -/
def position? (f : Failures) (test : String) : Option Nat := f.index.lookup test

/-- Adds a build to a test, which is appended if it was not listed yet. -/
def push (f : Failures) (test : String) (build : Build) : Failures :=
  match f.position? test with
  | some slot =>
    { f with entries := f.entries.modify slot fun (t, builds) => (t, builds ++ [build]) }
  | none => ⟨f.entries ++ [(test, [build])], (test, f.entries.length) :: f.index⟩

def get? (f : Failures) (test : String) : Option (List Build) :=
  (f.position? test).bind fun slot => f.entries[slot]?.map Prod.snd

def tests (f : Failures) : List String := f.entries.map Prod.fst

def size (f : Failures) : Nat := f.entries.length

def isEmpty (f : Failures) : Bool := f.entries.isEmpty

/-- Each test with the number of lines that named it. -/
def counts (f : Failures) : List (String × Nat) :=
  f.entries.map fun (t, builds) => (t, builds.length)

end Failures

structure Tally where
  failures : Failures
  /-- The number of lines that report a failed build. -/
  failureLines : Nat
  /-- The number of lines that report a watchdog timeout. -/
  hangLines : Nat
  deriving DecidableEq, Repr

namespace Tally

def empty : Tally := ⟨.empty, 0, 0⟩

/-- Adds what one line of a build's log says.  Lines that report a failed build are counted apart,
from the beginning of the log. -/
def addLine (build : Build) : Tally × Nat → List Char → Tally × Nat
  | (t, n), line =>
    let report := classify line
    ({ t with
        failures := match report.failedTest with
          | some test => t.failures.push test.key build
          | none => t.failures
        hangLines := t.hangLines + report.hang.toNat },
      n + report.buildFailure.toNat)

/-- Adds a build's log, and gives the number of its lines that report a failed build. -/
def record (t : Tally) (build : Build) (log : String) : Tally × Nat :=
  let (t, n) := (Text.lines log.toList).foldl (addLine build) (t, 0)
  ({ t with failureLines := t.failureLines + n }, n)

end Tally

/-- The failed tests that a log names, line by line. -/
def failedTests (log : String) : List TestName := (Text.lines log.toList).filterMap failedTest?

/-- What is noted when a build's log is recorded: each failed test that it names. -/
def recordNotes (build : Build) (log : String) : List Diagnostic :=
  (failedTests log).map fun test =>
    ⟨.debug, .tally, "Failure identified, " ++ test.shown, [("build", .text build.name)]⟩

end JobHealth.Log
