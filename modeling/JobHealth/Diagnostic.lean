import JobHealth.Text.Quoted
/-!
# `JobHealth.Diagnostic` — what the program notes while it works

A note has a level, a place in the program, a message and named values.  Notes
are values like any other: a computation that makes some returns them beside
its result, and no result depends on them.
-/

namespace JobHealth

/-- How much a note matters, from the most to the least. -/
inductive Level where
  | error
  | warn
  | info
  | debug
  | trace
  deriving DecidableEq, Repr

namespace Level

/-- All levels, from the least to the most important. -/
def all : List Level := [.trace, .debug, .info, .warn, .error]

def word : Level → String
  | .trace => "trace"
  | .debug => "debug"
  | .info => "info"
  | .warn => "warn"
  | .error => "error"

/-- How many levels matter at least as much, itself included. -/
def rank : Level → Nat
  | .error => 1
  | .warn => 2
  | .info => 3
  | .debug => 4
  | .trace => 5

end Level

/-- The part of the program that a note comes from. -/
inductive Origin where
  | logger
  | scan
  | client
  | selection
  | feed
  | tally
  | analysis
  deriving DecidableEq, Repr

/-- The name of a part of the program in its log files. -/
def Origin.target : Origin → String
  | .logger => "flakescan::infrastructure::logging::logger"
  | .scan => "flakescan::cli::commands::scan"
  | .client => "flakescan::infrastructure::concourse::client"
  | .selection => "flakescan::services::build_selector"
  | .feed => "flakescan::services::event_stream_parser"
  | .tally => "flakescan::services::failure_aggregator"
  | .analysis => "flakescan::services::job_analyzer"

inductive NoteValue where
  | text (s : String)
  | count (n : Nat)
  | flag (b : Bool)
  /-- Names, which are shown in quotes. -/
  | names (ns : List String)
  deriving DecidableEq, Repr

def NoteValue.shown : NoteValue → String
  | .text s => s
  | .count n => n.repr
  | .flag b => if b then "true" else "false"
  | .names ns => Text.Quoted.quoteAll ns

structure Diagnostic where
  level : Level
  origin : Origin
  message : String
  values : List (String × NoteValue)
  deriving DecidableEq, Repr

/-- A note in one line: its level, its message, and its values by name. -/
def Diagnostic.line (d : Diagnostic) : String :=
  String.intercalate " "
    (d.level.word :: d.message :: d.values.map fun (n, v) => n ++ "=" ++ v.shown)

end JobHealth
