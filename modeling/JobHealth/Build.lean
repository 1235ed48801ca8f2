import JobHealth.Json.Read
import JobHealth.Json.Write
/-!
# `JobHealth.Build` — one run of a job, as the server lists it

A build carries its status as text, since a page of builds may hold a status
that nobody knows; `Status` is the closed set of the known ones.  Only builds
that ran to an end of their own, succeeded or failed, are completed.

In JSON a build is a record of seven fields.  `Build.toJson` writes it in one
form; `Build.ofJson?` reads it in any order of the fields, among other members.
-/

namespace JobHealth

inductive Status where
  | succeeded
  | failed
  | aborted
  | errored
  | pending
  | started
  deriving DecidableEq, Repr

namespace Status

/-- All statuses, in the order in which they are listed. -/
def all : List Status := [.succeeded, .failed, .aborted, .errored, .pending, .started]

def word : Status → String
  | .succeeded => "succeeded"
  | .failed => "failed"
  | .aborted => "aborted"
  | .errored => "errored"
  | .pending => "pending"
  | .started => "started"

/-- Whether the build ran to an end of its own. -/
def isCompleted : Status → Bool
  | .succeeded => true
  | .failed => true
  | _ => false

/-- The status with that word, letter for letter. -/
def ofWord? (s : String) : Option Status := all.find? fun status => status.word == s

/-- The statuses in which a build was not run to an end of its own. -/
def incomplete : List Status := all.filter fun s => !s.isCompleted

theorem ofWord?_word (s : Status) : ofWord? s.word = some s := by
  cases s <;> decide

theorem mem_all (s : Status) : s ∈ all := by cases s <;> decide

/-- A status from its JSON text: its word as a string, or a record that maps the word to `null`. -/
def ofJson? (text : String) : Except Json.Fault Status := do
  let word ← Json.readAll (Json.readWordOf (all.map Status.word)) text
  match ofWord? word with
  | some s => .ok s
  | none => .error (.unknownVariant word (all.map Status.word))

def toJson (s : Status) : String := String.ofList (Json.writeString s.word.toList)

end Status

/-- One run of a job. -/
structure Build where
  id : UInt64
  name : String
  status : String
  apiUrl : String
  teamName : String
  pipelineName : String
  jobName : String
  deriving DecidableEq, Repr

namespace Build

/-- The build's status, if it is a known one. -/
def status? (b : Build) : Option Status := Status.ofWord? b.status

def hasStatus (s : Status) (b : Build) : Bool := b.status? == some s

/-- Where people look at the build. -/
def webUrl (base : String) (b : Build) : String :=
  base ++ "/teams/" ++ b.teamName ++ "/pipelines/" ++ b.pipelineName ++ "/jobs/" ++ b.jobName ++
    "/builds/" ++ b.name

/-- Where the server streams the build's events. -/
def eventsUrl (base : String) (b : Build) : String := base ++ b.apiUrl ++ "/events"

def shape : Json.Shape :=
  { name := "BuildSummary"
    fields :=
      { name := "id", kind := .word64 } ::
        ["name", "status", "api_url", "team_name", "pipeline_name", "job_name"].map
          fun n => { name := n, kind := .text } }

/-- The build that the fields of its shape describe. -/
def ofFields (fields : Json.Fields) : Build where
  id := fields.word64 "id"
  name := fields.text "name"
  status := fields.text "status"
  apiUrl := fields.text "api_url"
  teamName := fields.text "team_name"
  pipelineName := fields.text "pipeline_name"
  jobName := fields.text "job_name"

/-- A build at the front of a JSON text. -/
def read : Json.Reader Build := fun cs =>
  (Json.readRecord shape cs).map fun (fields, rest) => (ofFields fields, rest)

def ofJson? (text : String) : Except Json.Fault Build := Json.readAll read text

def pageOfJson? (text : String) : Except Json.Fault (List Build) :=
  Json.readAll (Json.readListOf read) text

def write (b : Build) : List Char :=
  let member (name value : String) := Json.writeMember name (Json.writeString value.toList)
  Json.writeRecord
    [ Json.writeMember "id" (Json.writeNat b.id.toNat)
    , member "name" b.name
    , member "status" b.status
    , member "api_url" b.apiUrl
    , member "team_name" b.teamName
    , member "pipeline_name" b.pipelineName
    , member "job_name" b.jobName ]

def toJson (b : Build) : String := String.ofList b.write

/-- The compact JSON text of a page of builds. -/
def pageToJson (page : List Build) : String := String.ofList (Json.writeList (page.map write))

/-- Builds ordered from the highest id down, equal ids in their given order. -/
def byRecency (builds : List Build) : List Build := builds.mergeSort fun a b => b.id ≤ a.id

/-- The names of builds, most recent first. -/
def namesByRecency (builds : List Build) : List String := (byRecency builds).map name

end Build
end JobHealth
