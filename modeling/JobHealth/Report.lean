import JobHealth.Log.Tally
import JobHealth.Number.Decimal
/-!
# `JobHealth.Report` — the success rates of a job, for people to read

A report is a list of lines, and a line is a list of spans, each with its style
or plain.  Only `Span.render` knows how a style is written, so the text with
colours and the text without have the same spans.

| part                | line                                                 |
| :------------------ | :--------------------------------------------------- |
| no failed build     | one line that says so                                |
| overall             | a rule, the rate over all builds, a rule             |
| each test           | its failures and its rate, then its builds' addresses |

The tests stand in the order in which they were first named.
-/

namespace JobHealth

open JobHealth.Number

structure Totals where
  examined : Nat
  failureLines : Nat
  hangLines : Nat
  deriving DecidableEq, Repr

/-- How many hundredths of `examined` are left without `failed`.  The latter counts lines and not
builds, so the rate can be below zero. -/
def successRate (examined failed : Nat) : Binary64 :=
  let n := Binary64.ofNat examined
  ((n.sub (.ofNat failed)).mul (.ofNat 100)).div n

/-- The part of the examined builds that is left without the failure lines; all, if none was
examined. -/
def Totals.successRatio (t : Totals) : Binary64 :=
  if t.examined = 0 then .ofNat 1
  else
    let n := Binary64.ofNat t.examined
    (n.sub (.ofNat t.failureLines)).div n

/-- The examined builds less the failure lines, in signed 64-bit words. -/
def Totals.passed (t : Totals) : Int64 := Int64.ofNat t.examined - Int64.ofNat t.failureLines

namespace Report

inductive Colour where
  | red
  | green
  | yellow
  | blue
  | magenta
  | cyan
  deriving DecidableEq, Repr

def Colour.code : Colour → String
  | .red => "31"
  | .green => "32"
  | .yellow => "33"
  | .blue => "34"
  | .magenta => "35"
  | .cyan => "36"

structure Style where
  colour : Colour
  bold : Bool := false
  deriving DecidableEq, Repr

/-- A text with its style, if it has one. -/
structure Span where
  style : Option Style
  text : String
  deriving DecidableEq, Repr

/-- A control sequence of a terminal, by its code. -/
def control (code : String) : String := "\x1b[" ++ code ++ "m"

def Style.opening (s : Style) : String :=
  control s.colour.code ++ (if s.bold then control "1" else "")

def closing : String := control "0"

/-- A span as text; a style shows only with colours. -/
def Span.render (colours : Bool) (s : Span) : String :=
  match colours, s.style with
  | true, some style => style.opening ++ s.text ++ closing
  | _, _ => s.text

abbrev Line := List Span

def renderLine (colours : Bool) (line : Line) : String :=
  String.join (line.map (Span.render colours)) ++ "\n"

def plain (text : String) : Span := ⟨none, text⟩

def inColour (colour : Colour) (text : String) : Span := ⟨some { colour }, text⟩

def inBold (colour : Colour) (text : String) : Span := ⟨some { colour, bold := true }, text⟩

def rule : String := String.ofList (List.replicate 83 '*')

/-- The report on builds without a failure. -/
def cleanLine : Line := [inBold .green "No failures! 100% success rate"]

def overallLines (t : Totals) : List Line :=
  let rate := fixed 5 (successRate t.examined t.failureLines)
  [ [inColour .yellow rule]
  , [ plain " Overall build success rate: "
    , inColour .blue
        (rate ++ "% (" ++ toString t.passed.toInt ++ " of " ++ t.examined.repr ++ ")") ]
  , [inColour .yellow rule] ]

/-- The line on one test. -/
def testLine (examined : Nat) (test : String) (count : Nat) : Line :=
  [ inColour .cyan (test ++ ":")
  , plain " "
  , inColour .red (count.repr ++ " failures")
  , plain " "
  , inColour .blue ("(" ++ fixed 2 (successRate examined count) ++ "% success rate)") ]

/-- The line on one build in which a test failed. -/
def buildLine (base : String) (b : Build) : Line :=
  [ inColour .red ("  Failed build " ++ b.name)
  , plain " "
  , inBold .magenta ("at " ++ b.webUrl base) ]

def testLines (base : String) (examined : Nat) (entry : String × List Build) : List Line :=
  testLine examined entry.1 entry.2.length :: entry.2.map (buildLine base)

def lines (base : String) (t : Totals) (failures : Log.Failures) : List Line :=
  if t.failureLines = 0 then [cleanLine]
  else overallLines t ++ failures.entries.flatMap (testLines base t.examined)

def render (colours : Bool) (base : String) (t : Totals) (failures : Log.Failures) : String :=
  String.join ((lines base t failures).map (renderLine colours))

end Report
end JobHealth
