import JobHealth.Text.Blank
import JobHealth.Text.Lines
/-!
# `JobHealth.Log.Line` — what one log line says about its build

A line can report that the whole build failed, that a watchdog timed out, and
that a test failed.  The first two are fixed words anywhere in the line.  A
failed test is named as `Class > method`, blanks around the `>` optional, and
`FAILED` somewhere behind the method before the next line feed.

The class is sought word by word from the left.  Within one word the longest
class wins: first the whole word with the `>` behind it, then the part before
the last `>` inside the word, and so on to the left.  The method is the longest
start of its word that still leaves a `FAILED` behind it.  Neither is empty and
neither holds a blank.
-/

namespace JobHealth.Log

open JobHealth.Text

structure TestName where
  className : String
  method : String
  deriving DecidableEq, Repr

namespace TestName

/-- The key under which the failures of a test are gathered. -/
def key (t : TestName) : String := t.className ++ "." ++ t.method

def shown (t : TestName) : String := "Failure(" ++ t.className ++ ", " ++ t.method ++ ")"

end TestName

/-- The word that has to stand behind a failed test. -/
def failedMark : List Char := "FAILED".toList

/-- Whether `FAILED` begins somewhere in the text before its first line feed. -/
def leadsToFailed : List Char → Bool
  | [] => false
  | c :: cs => failedMark.isPrefixOf (c :: cs) || (c != '\n' && leadsToFailed cs)

/-- The longest non-empty start of the word at the front of the text that leaves a `FAILED` behind
it on the line.  If a start leaves one, each shorter start does, so the search ends at the first
that does not. -/
def longestMethod : List Char → List Char
  | [] => []
  | c :: cs => if isInk c && leadsToFailed cs then c :: longestMethod cs else []

/-- The method named by the text behind a `>`, if a failed test is named there. -/
def methodAfter? (cs : List Char) : Option (List Char) :=
  match longestMethod (dropBlank cs) with
  | [] => none
  | method => some method

/-- The longest class that ends inside `word`, in front of a `>` there, with its method; `tail`
follows the word.  Some of the class, `seen` in reverse, was already passed. -/
def classInside? (seen tail : List Char) : List Char → Option (List Char × List Char)
  | [] => none
  | c :: cs =>
    match classInside? (c :: seen) tail cs with
    | some found => some found
    | none =>
      if c = '>' && !seen.isEmpty then (methodAfter? (cs ++ tail)).map fun m => (seen.reverse, m)
      else none

/-- The failed test whose class is a start of `word`, which `tail` follows. -/
def testAt? (word tail : List Char) : Option (List Char × List Char) :=
  let whole := match dropBlank tail with
    | '>' :: rest => (methodAfter? rest).map fun m => (word, m)
    | _ => none
  match whole with
  | some found => some found
  | none => classInside? [] tail word

/-- The failed test named first in the text; `fuel` bounds the number of words. -/
def findTest? : (fuel : Nat) → List Char → Option (List Char × List Char)
  | 0, _ => none
  | fuel + 1, cs =>
    match dropBlank cs with
    | [] => none
    | text =>
      match testAt? (word text) (afterWord text) with
      | some found => some found
      | none => findTest? fuel (afterWord text)

/-- The failed test that a line names, if it names one; without the word `FAILED` it does not. -/
def failedTest? (line : List Char) : Option TestName :=
  if contains failedMark line then
    (findTest? (line.length + 1) line).map fun (c, m) => ⟨String.ofList c, String.ofList m⟩
  else none

structure LineReport where
  /-- The line reports that the whole build failed. -/
  buildFailure : Bool
  /-- The line reports a watchdog timeout. -/
  hang : Bool
  /-- The failed test that the line names. -/
  failedTest : Option TestName
  deriving DecidableEq, Repr

/-- Whether the line reports that the whole build failed. -/
def reportsBuildFailure (line : List Char) : Bool :=
  contains "BUILD FAILED".toList line || contains "Test Failed!".toList line

/-- Whether the line reports a watchdog timeout. -/
def reportsHang (line : List Char) : Bool := contains "timeout exceeded".toList line

def classify (line : List Char) : LineReport where
  buildFailure := reportsBuildFailure line
  hang := reportsHang line
  failedTest := failedTest? line

end JobHealth.Log
