import JobHealth.Settings.Decode
import JobHealth.Settings.Environment
/-!
# `JobHealth.Settings.Load` — the settings of a run

Settings are laid together from layers, from the lowest to the highest: the
defaults, the files, and the environment.  The files are those of the project,
or a single one that was named; a file that is not there sets nothing, and so
does one without content.  How a file's text is read is not decided here: a
reader of YAML is handed in.

| fault        | meaning                                                   |
| :----------- | :-------------------------------------------------------- |
| `unreadable` | a file is no YAML, or its document is no record            |
| `misfit`     | a setting has a value of the wrong kind, or out of range   |
| `invalid`    | the settings as a whole are not valid                      |
-/

namespace JobHealth.Settings

open JobHealth.Json

/-- How a text in YAML is read: to the value of its document, or to none if that is empty.  A text
that is no such document is refused. -/
abbrev YamlReader := (text : String) → Option (Option Value)

/-- The files at hand, by path. -/
abbrev Files := String → Option String

/-- The project's files of settings, from the lowest to the highest. -/
def projectFiles : List String := [".flakescan/config.yaml", ".flakescan/local.yaml"]

/-- Where the settings come from, the environment apart. -/
inductive Origin where
  /-- The project's files. -/
  | project
  /-- The one file that was named. -/
  | file (path : String)
  deriving DecidableEq, Repr

/-- The files of an origin, from the lowest to the highest. -/
def Origin.paths : Origin → List String
  | .project => projectFiles
  | .file path => [path]

/-- What was being done when settings could not be put together. -/
def Origin.context : Origin → String
  | .project => "Failed to extract configuration from figment"
  | .file path => "Failed to load config from " ++ path

inductive LoadFault where
  | unreadable (origin : Origin)
  | misfit (origin : Origin) (m : Misfit)
  | invalid (fault : SettingsFault)
  deriving DecidableEq, Repr

def LoadFault.message : LoadFault → String
  | .unreadable origin => origin.context
  | .misfit origin _ => origin.context
  | .invalid fault => fault.message

/-- The layer of a file: its document has to be a record, or empty. -/
def fileLayer (read : YamlReader) (text : String) : Option Value :=
  match read text with
  | some none => some (.record [])
  | some (some (.record ms)) => some (.record ms)
  | _ => none

/-- The layers of files, from the lowest to the highest. -/
def fileLayers (read : YamlReader) (files : Files) : (paths : List String) → Option (List Value)
  | [] => some []
  | path :: paths =>
    match files path with
    | none => fileLayers read files paths
    | some text =>
      match fileLayer read text, fileLayers read files paths with
      | some layer, some layers => some (layer :: layers)
      | _, _ => none

/-- The settings that files and environment lay over the defaults. -/
def extract (read : YamlReader) (origin : Origin) (files : Files) (env : Environment) :
    Except LoadFault Settings :=
  match fileLayers read files origin.paths with
  | none => .error (.unreadable origin)
  | some layers =>
    (decode .lenient (overlayAll (layers ++ [environmentLayer env]))).mapError (.misfit origin)

/-- The valid settings of an origin and an environment. -/
def load (read : YamlReader) (origin : Origin) (files : Files) (env : Environment) :
    Except LoadFault Settings :=
  match extract read origin files env with
  | .error f => .error f
  | .ok s => s.check.mapError .invalid

end JobHealth.Settings
