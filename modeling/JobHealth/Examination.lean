import JobHealth.Progress
import JobHealth.Report
import JobHealth.Selection
import JobHealth.Source
/-!
# `JobHealth.Examination` — one job examined from end to end

A page of builds is fetched, builds are selected from it, and the feed of each
selected build is read in turn, the most recent build first.  The first failure
ends the examination; nothing behind it is asked for.

`visits` is the list of builds whose feeds were asked for, each with what came
of it.  All else is read off the page and the visits: the summary or the fault,
the progress, and the notes.
-/

namespace JobHealth

structure Query where
  /-- How many completed builds to examine; 0 stands for all on the page. -/
  examine : Nat
  /-- How many builds to fetch; 0 stands for the job's full history. -/
  fetch : Nat
  /-- How long to wait for the next event of a feed. -/
  timeout : Feed.Span
  deriving DecidableEq, Repr

/-! ## The page -/

def decimalDigit? (c : Char) : Option Nat :=
  if '0' ≤ c && c ≤ '9' then some (c.toNat - '0'.toNat) else none

/-- The number that decimal digits write behind `n`, unless it exceeds `limit`. -/
def numberBehind? (limit : Nat) (n : Nat) : List Char → Option Nat
  | [] => some n
  | c :: cs =>
    match decimalDigit? c with
    | none => none
    | some d => if limit < 10 * n + d then none else numberBehind? limit (10 * n + d) cs

/-- The number of a numeral of decimal digits, perhaps behind a plus sign, up to `limit`. -/
def numberUpTo? (limit : Nat) (s : String) : Option Nat :=
  match s.toList with
  | [] => none
  | '+' :: d :: ds => numberBehind? limit 0 (d :: ds)
  | cs => numberBehind? limit 0 cs

def maxLimit : Nat := UInt32.size - 1

/-- What fetching a page came to: the limits asked for, and the page. -/
structure PageFetch where
  limits : List Nat
  result : Except Fault (List Build)
  notes : List Diagnostic

/-- The note on the number of builds in a full history. -/
def fullHistoryNote (total : Nat) : Diagnostic :=
  ⟨.info, .analysis, "Snooped: fetching a full history of " ++ total.repr ++ " builds",
    [("total", .count total)]⟩

/-- The number of builds that a job ran, read off the name of its most recent one: a job's builds
are named by counting from 1. -/
def historyLength (probe : List Build) : Except Fault Nat :=
  match probe with
  | [] => .error .emptyHistory
  | latest :: _ =>
    match numberUpTo? maxLimit latest.name with
    | some total => .ok total
    | none => .error (.nameNotNumber latest.name)

/-- Fetches a page.  A full history takes a fetch of the most recent build first, whose name says
how many there are. -/
def fetchPage (s : Source) (limit : Nat) : PageFetch :=
  if limit = 0 then
    let probe := s.page 0 1
    match probe.result.bind historyLength with
    | .error f => ⟨[1], .error f, probe.notes⟩
    | .ok total =>
      let page := s.page 1 total
      ⟨[1, total], page.result, probe.notes ++ fullHistoryNote total :: page.notes⟩
  else
    let page := s.page 0 limit
    ⟨[limit], page.result, page.notes⟩

/-! ## The visits -/

/-- A build whose feed was asked for. -/
structure Visit where
  build : Build
  /-- What its feed says. -/
  result : Except Fault Feed.Outcome
  /-- What was noted while its feed was opened and read. -/
  notes : List Diagnostic

/-- Asks for the feed of a build and reads it. -/
def visit (s : Source) (timeout : Feed.Span) (before : Nat) (b : Build) : Visit :=
  let answer := s.feed before b
  match answer.result with
  | .error f => ⟨b, .error f, answer.notes⟩
  | .ok feed =>
    ⟨b, Feed.consume b.name timeout feed, answer.notes ++ Feed.consumeNotes timeout feed⟩

/-- Visits builds in turn up to the first failure. -/
def visits (s : Source) (timeout : Feed.Span) : (before : Nat) → List Build → List Visit
  | _, [] => []
  | before, b :: bs =>
    let v := visit s timeout before b
    match v.result with
    | .error _ => [v]
    | .ok _ => v :: visits s timeout (before + 1) bs

/-- The outcomes of visits, or the fault that ended them. -/
def outcomes : List Visit → Except Fault (List (Build × Feed.Outcome))
  | [] => .ok []
  | v :: vs =>
    match v.result with
    | .error f => .error f
    | .ok o =>
      match outcomes vs with
      | .error f => .error f
      | .ok os => .ok ((v.build, o) :: os)

def Progress.visit (p : Progress) (v : Visit) : Progress :=
  let p := p.say ("build " ++ v.build.name)
  match v.result with
  | .error _ => p
  | .ok _ => p.advance 1

def outcomeNote (b : Build) (o : Feed.Outcome) : Diagnostic :=
  ⟨.debug, .analysis, "Results: Job status is " ++ o.status,
    [ ("build", .text b.name)
    , ("status", .text o.status)
    , ("termination", .text o.ending.shown) ]⟩

def Visit.allNotes (v : Visit) : List Diagnostic :=
  v.notes ++
    match v.result with
    | .error _ => []
    | .ok o => outcomeNote v.build o :: Log.recordNotes v.build o.log

/-! ## The summary -/

structure Summary where
  /-- The names of the examined builds, in the order of examination. -/
  examined : List String
  totals : Totals
  /-- The failed tests in the order in which they were first named, each with the number of log
  lines that name it. -/
  failingTests : List (String × Nat)
  /-- The text of the report. -/
  report : String
  deriving DecidableEq, Repr

def logsOf (examined : List (Build × Feed.Outcome)) : List (Build × String) :=
  examined.map fun (b, o) => (b, o.log)

/-- Records one more log, and adds the number that recording it gave. -/
def recordLog : Log.Tally × Nat → Build × String → Log.Tally × Nat
  | (t, n), (b, log) =>
    let (t, k) := t.record b log
    (t, n + k)

/-- What logs come to, recorded in turn: the tally, and the sum of the numbers that recording gave
for each of them. -/
def recordLogs (logs : List (Build × String)) : Log.Tally × Nat := logs.foldl recordLog (.empty, 0)

def totalsOf (examined : List (Build × Feed.Outcome)) : Totals :=
  let (tally, failureLines) := recordLogs (logsOf examined)
  ⟨examined.length, failureLines, tally.hangLines⟩

/-- The summary of an examination of the given builds. -/
def summarise (colours : Bool) (base : String) (examined : List (Build × Feed.Outcome)) : Summary :=
  let failures := (recordLogs (logsOf examined)).1.failures
  let totals := totalsOf examined
  { examined := examined.map fun (b, _) => b.name
    totals := totals
    failingTests := failures.counts
    report := Report.render colours base totals failures }

/-- The note on builds that hang, if there were any. -/
def hangNotes (t : Totals) : List Diagnostic :=
  if t.hangLines = 0 then []
  else
    [⟨.info, .analysis,
      "timeout exceeded seen " ++ t.hangLines.repr ++ " times across examined builds",
      [("hang_lines", .count t.hangLines), ("examined", .count t.examined)]⟩]

/-! ## The examination -/

/-- An examination that was carried out, or as much of it as there was. -/
structure Examination where
  /-- The limits of the pages asked for. -/
  limits : List Nat
  /-- The builds whose feeds were asked for. -/
  opened : List Build
  progress : Progress
  notes : List Diagnostic
  result : Except Fault Summary

def examine (s : Source) (colours : Bool) (progress : Progress) (q : Query) : Examination :=
  let page := fetchPage s q.fetch
  match page.result with
  | .error f => ⟨page.limits, [], progress, page.notes, .error f⟩
  | .ok builds =>
    let notes := page.notes ++ Selection.notes builds q.examine
    match Selection.ofPage builds q.examine with
    | .error f => ⟨page.limits, [], progress, notes, .error f⟩
    | .ok selection =>
      let visits := visits s q.timeout page.limits.length selection.builds
      let progress :=
        visits.foldl Progress.visit (progress.withLength (UInt64.ofNat selection.builds.length))
      let notes := notes ++ visits.flatMap Visit.allNotes
      let opened := visits.map Visit.build
      match outcomes visits with
      | .error f => ⟨page.limits, opened, progress, notes, .error f⟩
      | .ok examined =>
        ⟨page.limits, opened, progress, notes ++ hangNotes (totalsOf examined),
          .ok (summarise colours s.baseUrl examined)⟩

end JobHealth
