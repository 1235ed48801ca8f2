import JobHealth.Logging
import JobHealth.ScanPlan
import JobHealth.Settings.Load
/-!
# `JobHealth.Program` — the program as a function

A run is given its arguments, its environment, the files at hand, a way to the
server, and how YAML and host names are read.  It comes to an exit code, what
goes to the standard output, the line that reports a fault, and the notes that
are logged.

The steps, in the order in which the first fault ends the run: reading the
arguments, loading the settings, planning the logs, switching them on, resolving
the plan, examining the job.
-/

namespace JobHealth.Program

open JobHealth.Settings (Environment Files)

def name : String := "flakescan"

def version : String := "0.1.0"

structure Setting where
  arguments : List String
  environment : Environment
  files : Files
  transport : Transport
  readYaml : Settings.YamlReader
  toAscii : Url.ToAscii

inductive RunFault where
  | settings (fault : Settings.LoadFault)
  | logPlan (fault : LogPlanFault)
  | logging (fault : LoggingFault)
  | plan (fault : Fault)
  | examination (plan : ScanPlan) (fault : Fault)
  deriving DecidableEq, Repr

def RunFault.message : RunFault → String
  | .settings f => f.message
  | .logPlan f => f.message
  | .logging f => f.message
  | .plan f => f.message
  | .examination p f =>
    "Failed to analyze " ++ p.pipeline ++ "/" ++ p.job ++ ": " ++ f.message

/-- What a run came to. -/
structure Outcome where
  /-- The summary, or the fault that ended the run. -/
  result : Except RunFault Summary
  /-- What was examined, if it came to that. -/
  examination : Option (ScanPlan × Examination)
  /-- How notes were logged, if it came to that. -/
  logPlan : Option LogPlan
  /-- The notes that were logged. -/
  logged : List Diagnostic

def valueIn? (env : Environment) (name : String) : Option String := env.lookup name

def cookieVariable : String := "CONCOURSE_COOKIE_TOKEN"

/-- The variable that holds the directives of logging. -/
def directivesVariable : String := "RUST_LOG"

def finish (p : Progress) : Except Fault Summary → Progress
  | .ok s => p.succeed (s.examined.length.repr ++ " builds examined")
  | .error _ => p.fail "analysis aborted"

/-- Examines a job by its plan, with logging on. -/
def scan (s : Setting) (plan : ScanPlan) (a : CommandLine.Arguments) (logPlan : LogPlan)
    (logs : Logging) : Outcome :=
  let source := plan.client.source s.toAscii s.transport
  let e := examine source false (.start !a.noProgress) plan.query
  let e := { e with progress := finish e.progress e.result }
  { result := e.result.mapError (.examination plan)
    examination := some (plan, e)
    logPlan := some logPlan
    logged := logs.logged (Logging.startNote logPlan :: plan.startNote :: e.notes) }

def originOf (a : CommandLine.Arguments) : Settings.Origin :=
  match a.config with
  | some path => .file path
  | none => .project

def run (s : Setting) (a : CommandLine.Arguments) : Outcome :=
  match Settings.load s.readYaml (originOf a) s.files s.environment with
  | .error f => ⟨.error (.settings f), none, none, []⟩
  | .ok settings =>
    match LogPlan.ofSettings settings.logging a.forcedLevel with
    | .error f => ⟨.error (.logPlan f), none, none, []⟩
    | .ok logPlan =>
      match Logging.off.switchOn logPlan (valueIn? s.environment directivesVariable) with
      | .error f => ⟨.error (.logging f), none, none, []⟩
      | .ok logs =>
        match ScanPlan.resolve s.toAscii a settings with
        | .error f =>
          ⟨.error (.plan f), none, some logPlan, logs.logged [Logging.startNote logPlan]⟩
        | .ok plan => scan s plan a logPlan logs

/-! ## What is seen from outside -/

/-- What a run leaves: its exit code, its output, its line on a fault, and the logged notes. -/
structure Exit where
  code : UInt8
  output : String
  /-- What is reported of the fault that ended the run. -/
  fault : Option String
  /-- The fault in the arguments, if there was one. -/
  usage : Option CommandLine.UsageFault
  logPlan : Option LogPlan
  logged : List Diagnostic
  /-- The requests that were made, whether or not they reached the server. -/
  requests : List Request

def faultLine (message : String) : String := "Error: " ++ message ++ "\n"

/-- How a run ends that was not begun. -/
def Exit.ofUsage (f : CommandLine.UsageFault) : Exit :=
  match f with
  | .versionAsked => ⟨0, name ++ " " ++ version ++ "\n", none, some f, none, [], []⟩
  | .helpAsked => ⟨0, CommandLine.help, none, some f, none, [], []⟩
  | _ => ⟨2, "", none, some f, none, [], []⟩

def Outcome.requests (toAscii : Url.ToAscii) (o : Outcome) : List Request :=
  match o.examination with
  | none => []
  | some (plan, e) => plan.client.requestsOf toAscii e

def Exit.ofOutcome (toAscii : Url.ToAscii) (o : Outcome) : Exit :=
  let requests := o.requests toAscii
  match o.result with
  | .ok summary => ⟨0, summary.report, none, none, o.logPlan, o.logged, requests⟩
  | .error f => ⟨1, "", some (faultLine f.message), none, o.logPlan, o.logged, requests⟩

def exitOf (s : Setting) : Exit :=
  match CommandLine.read s.arguments (valueIn? s.environment cookieVariable) with
  | .error f => .ofUsage f
  | .ok a => .ofOutcome s.toAscii (run s a)

end JobHealth.Program
