import JobHealth.Json.Fault
import JobHealth.Diagnostic
/-!
# `JobHealth.Settings` — what can be set, and what is valid

Settings fall into two sections: what to ask the server for and how long to wait
for it, and how to log.  Words are kept as they were given.  `Settings.check` has
lists of those that are allowed, and `LogPlan.ofSettings` knows what words mean;
that these agree is shown with the plans.
-/

namespace JobHealth

/-- What to ask the server for, and how long to wait. -/
structure ServerSettings where
  team : String
  /-- How many completed builds to examine; 0 stands for all that are fetched. -/
  examineLimit : UInt32
  /-- How many builds to fetch; 0 stands for the full history. -/
  fetchLimit : UInt32
  /-- How many seconds to wait for the next event of a feed. -/
  eventTimeout : UInt64
  /-- How many seconds to wait for a connection. -/
  connectTimeout : UInt64
  deriving DecidableEq, Repr

/-- How to log. -/
structure LogSettings where
  level : String
  format : String
  /-- The directory of log files; none are written without one. -/
  directory : Option String
  rotation : String
  deriving DecidableEq, Repr

structure Settings where
  server : ServerSettings
  logging : LogSettings
  deriving DecidableEq, Repr

/-- The settings that hold where nothing is set. -/
def Settings.default : Settings where
  server := ⟨"main", 50, 100, 60, 10⟩
  logging := ⟨"warn", "pretty", none, "daily"⟩

/-! ## Log words -/

inductive LogFormat where
  | json
  | pretty
  deriving DecidableEq, Repr

/-- When a new log file is begun. -/
inductive Rotation where
  | daily
  | hourly
  | never
  deriving DecidableEq, Repr

def LogFormat.shown : LogFormat → String
  | .json => "Json"
  | .pretty => "Pretty"

/-! ## Validity -/

inductive SettingsFault where
  | emptyTeam
  | eventTimeout (seconds : UInt64)
  | connectTimeout (seconds : UInt64)
  | logLevel (word : String)
  | logFormat (word : String)
  | rotation (word : String)
  deriving DecidableEq, Repr

def SettingsFault.message : SettingsFault → String
  | .emptyTeam => "Team name cannot be empty"
  | .eventTimeout n =>
    "Invalid event_timeout_secs: " ++ n.toNat.repr ++ ". Must be at least 1"
  | .connectTimeout n =>
    "Invalid connect_timeout_secs: " ++ n.toNat.repr ++ ". Must be at least 1"
  | .logLevel s =>
    "Invalid log level: " ++ s ++ ". Must be one of: trace, debug, info, warn, error"
  | .logFormat s => "Invalid log format: " ++ s ++ ". Must be one of: json, pretty"
  | .rotation s => "Invalid log rotation: " ++ s ++ ". Must be one of: daily, hourly, never"

namespace Settings

/-- The words that the level may be set to. -/
def allowedLevels : List String := ["trace", "debug", "info", "warn", "error"]

/-- The words that the format may be set to. -/
def allowedFormats : List String := ["json", "pretty"]

/-- The words that the rotation may be set to. -/
def allowedRotations : List String := ["daily", "hourly", "never"]

/-- What is wrong with settings; the first thing, if there are several. -/
def fault? (s : Settings) : Option SettingsFault :=
  if s.server.team = "" then some .emptyTeam
  else if s.server.eventTimeout = 0 then some (.eventTimeout s.server.eventTimeout)
  else if s.server.connectTimeout = 0 then some (.connectTimeout s.server.connectTimeout)
  else if !allowedLevels.contains s.logging.level then some (.logLevel s.logging.level)
  else if !allowedFormats.contains s.logging.format then some (.logFormat s.logging.format)
  else if !allowedRotations.contains s.logging.rotation then some (.rotation s.logging.rotation)
  else none

/-- Settings that are valid, or what is wrong with them. -/
def check (s : Settings) : Except SettingsFault Settings :=
  match s.fault? with
  | some f => .error f
  | none => .ok s

end Settings

/-! ## What the log settings mean -/

/-- The format of a word, letter for letter. -/
def LogFormat.ofWord? : String → Option LogFormat
  | "json" => some .json
  | "pretty" => some .pretty
  | _ => none

/-- The rotation of a word, letter for letter. -/
def Rotation.ofWord? : String → Option Rotation
  | "daily" => some .daily
  | "hourly" => some .hourly
  | "never" => some .never
  | _ => none

structure LogPlan where
  level : String
  format : LogFormat
  directory : Option String
  rotation : Rotation
  deriving DecidableEq, Repr

inductive LogPlanFault where
  | format (word : String)
  | rotation (word : String)
  deriving DecidableEq, Repr

def LogPlanFault.message : LogPlanFault → String
  | .format s => "Invalid log format: " ++ s
  | .rotation s => "Invalid log rotation: " ++ s

/-- What log settings mean; a forced level takes the place of the set one. -/
def LogPlan.ofSettings (s : LogSettings) (forced : Option String) : Except LogPlanFault LogPlan :=
  match LogFormat.ofWord? s.format, Rotation.ofWord? s.rotation with
  | none, _ => .error (.format s.format)
  | some _, none => .error (.rotation s.rotation)
  | some format, some rotation => .ok ⟨forced.getD s.level, format, s.directory, rotation⟩

end JobHealth
