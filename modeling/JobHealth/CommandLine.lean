import JobHealth.Text.Lines
/-!
# `JobHealth.CommandLine` — the arguments of a run

    flakescan <url> <pipeline> <job> [limit] [team] [fetch]

and the options `--cookie-token TOKEN`, `--config PATH`, `--debug`, `--verbose`,
`--no-progress`, `--help` and `--version`, in any order and between the others.

Arguments are read from left to right.  A value is looked at only when it is
clear that its argument has ended, which the next known argument shows, or the
end of the line.  So an argument that nobody knows is reported before a bad value
just in front of it, and a bad value before what follows a known argument.

| fault             | meaning                                                    |
| :---------------- | :--------------------------------------------------------- |
| `unknownArgument` | an option that there is not, or one argument too many       |
| `badValue`        | a limit that is no whole number below 2^32                  |
| `noValue`         | an option without its value, or an empty path               |
| `repeated`        | an option given twice                                      |
| `valueForFlag`    | a value for an option that takes none                       |
| `missing`         | url, pipeline or job was not given                          |
-/

namespace JobHealth.CommandLine

structure Arguments where
  url : String
  pipeline : String
  job : String
  limit : Option UInt32
  team : Option String
  fetch : Option UInt32
  cookieToken : Option String
  debug : Bool
  verbose : Bool
  config : Option String
  noProgress : Bool
  deriving DecidableEq, Repr

inductive UsageFault where
  | unknownArgument
  | badValue
  | noValue
  | repeated
  | valueForFlag
  | missing
  /-- Help was asked for. -/
  | helpAsked
  /-- The version was asked for. -/
  | versionAsked
  deriving DecidableEq, Repr

/-- The arguments that take a value. -/
inductive Slot where
  | url
  | pipeline
  | job
  | limit
  | team
  | fetch
  | cookieToken
  | config
  deriving DecidableEq, Repr

/-- The arguments that take none. -/
inductive Flag where
  | debug
  | verbose
  | noProgress
  deriving DecidableEq, Repr

/-- The arguments that stand without a name, in order. -/
def positional : List Slot := [.url, .pipeline, .job, .limit, .team, .fetch]

/-- What the name of an option stands for. -/
inductive Named where
  | slot (s : Slot)
  | flag (f : Flag)
  | help
  | version
  deriving DecidableEq, Repr

def options : List (String × Named) :=
  [ ("cookie-token", .slot .cookieToken)
  , ("config", .slot .config)
  , ("debug", .flag .debug)
  , ("verbose", .flag .verbose)
  , ("no-progress", .flag .noProgress)
  , ("help", .help)
  , ("version", .version) ]

/-! ## Values -/

/-- The value of the decimal digits behind `n`. -/
def digitsBehind? : (n : Nat) → List Char → Option Nat
  | n, [] => some n
  | n, c :: cs => if '0' ≤ c && c ≤ '9' then digitsBehind? (10 * n + (c.toNat - 48)) cs else none

/-- A whole number, perhaps with a sign. -/
def whole? : List Char → Option Int
  | '-' :: c :: cs => (digitsBehind? 0 (c :: cs)).map fun n => -(n : Int)
  | '+' :: c :: cs => (digitsBehind? 0 (c :: cs)).map Int.ofNat
  | [] => none
  | cs => (digitsBehind? 0 cs).map Int.ofNat

def limitOf? (text : String) : Option UInt32 :=
  match whole? text.toList with
  | some (.ofNat n) => if n < UInt32.size then some (UInt32.ofNat n) else none
  | _ => none

/-- What is wrong with a value. -/
def valueFault? (slot : Slot) (text : String) : Option UsageFault :=
  match slot with
  | .limit => if (limitOf? text).isNone then some .badValue else none
  | .fetch => if (limitOf? text).isNone then some .badValue else none
  | .config => if text.isEmpty then some .noValue else none
  | _ => none

/-! ## Reading -/

/-- An argument whose end is not clear yet, with its value if that was given. -/
structure Open where
  slot : Slot
  value : Option String
  deriving DecidableEq, Repr

structure Reading where
  values : List (Slot × String)
  flags : List Flag
  /-- How many arguments stood without a name. -/
  count : Nat
  current : Option Open
  deriving DecidableEq, Repr

namespace Reading

def start : Reading := ⟨[], [], 0, none⟩

def put (r : Reading) (slot : Slot) (text : String) : Except UsageFault Reading :=
  if (r.values.lookup slot).isSome then .error .repeated
  else
    match valueFault? slot text with
    | some f => .error f
    | none => .ok { r with values := (slot, text) :: r.values }

/-- Ends the argument that is open. -/
def close (r : Reading) : Except UsageFault Reading :=
  match r.current with
  | none => .ok r
  | some ⟨_, none⟩ => .error .noValue
  | some ⟨slot, some text⟩ => { r with current := none }.put slot text

def raise (r : Reading) (f : Flag) : Except UsageFault Reading :=
  if r.flags.contains f then .error .repeated else .ok { r with flags := f :: r.flags }

/-- Takes in an argument without a name. -/
def place (r : Reading) (text : String) : Except UsageFault Reading :=
  match positional[r.count]? with
  | none => .error .unknownArgument
  | some slot => do
    let r ← r.close
    return { r with count := r.count + 1, current := some ⟨slot, some text⟩ }

/-- Takes in a value: of the option that waits for one, or else without a name. -/
def value (r : Reading) (text : String) : Except UsageFault Reading :=
  match r.current with
  | some ⟨slot, none⟩ => .ok { r with current := some ⟨slot, some text⟩ }
  | _ => r.place text

/-- Takes in an option by its name, with the value behind its `=` if there is one. -/
def option (r : Reading) (name : String) (attached : Option String) : Except UsageFault Reading :=
  match options.lookup name, attached with
  | none, _ => .error .unknownArgument
  | some (.slot slot), none => do
    let r ← r.close
    return { r with current := some ⟨slot, none⟩ }
  | some (.slot slot), some text => do
    let r ← r.close
    r.put slot text
  | some (.flag f), none => do
    let r ← r.close
    r.raise f
  | some .help, none => do
    let _ ← r.close
    throw .helpAsked
  | some .version, none => do
    let _ ← r.close
    throw .versionAsked
  | some _, some _ => .error .valueForFlag

/-- Takes in an option by its letter. -/
def letter (r : Reading) (c : Char) : Except UsageFault Reading :=
  if c = 'h' then r.option "help" none
  else if c = 'V' then r.option "version" none
  else .error .unknownArgument

/-- Takes in an argument; `--` alone is none. -/
def take (r : Reading) (text : String) : Except UsageFault Reading :=
  match text.toList with
  | '-' :: '-' :: rest =>
    match Text.cutAt? '=' rest with
    | some (name, attached) => r.option (String.ofList name) (some (String.ofList attached))
    | none => r.option (String.ofList rest) none
  | '-' :: c :: _ => r.letter c
  | _ => r.value text

end Reading

/-- Takes in arguments that all stand without a name. -/
def placeAll : Reading → List String → Except UsageFault Reading
  | r, [] => .ok r
  | r, text :: texts => do
    let r ← r.place text
    placeAll r texts

/-- Takes in arguments up to `--`, and all behind it without a name. -/
def takeAll : Reading → List String → Except UsageFault Reading
  | r, [] => .ok r
  | r, text :: texts =>
    if text = "--" then placeAll r texts
    else do
      let r ← r.take text
      takeAll r texts

/-- The arguments of a command line; `cookie` is the token that the environment holds. -/
def read (texts : List String) (cookie : Option String) : Except UsageFault Arguments := do
  let r ← takeAll .start texts
  let r ← r.close
  let value := fun (slot : Slot) => r.values.lookup slot
  match value .url, value .pipeline, value .job with
  | some url, some pipeline, some job =>
    return {
      url := url
      pipeline := pipeline
      job := job
      limit := (value .limit).bind limitOf?
      team := value .team
      fetch := (value .fetch).bind limitOf?
      cookieToken := (value .cookieToken).or cookie
      debug := r.flags.contains .debug
      verbose := r.flags.contains .verbose
      config := value .config
      noProgress := r.flags.contains .noProgress }
  | _, _, _ => throw .missing

/-! ## In words -/

def usage : String :=
  "Usage: flakescan [OPTIONS] <URL> <PIPELINE> <JOB> [LIMIT] [TEAM] [FETCH]"

def help : String :=
  String.intercalate "\n"
    [ "Scan recent builds of a Concourse job for test failures"
    , ""
    , usage
    , ""
    , "Arguments:"
    , "  <URL>       URL to Concourse"
    , "  <PIPELINE>  Name of pipeline"
    , "  <JOB>       Name of job"
    , "  [LIMIT]     Number of completed jobs to examine. " ++
        "Enter 0 to examine all jobs fetched [default: 50]"
    , "  [TEAM]      Team to which the provided pipeline belongs [default: main]"
    , "  [FETCH]     Limit size of initial build-status page. " ++
        "Enter 0 to fetch the full history [default: 100]"
    , ""
    , "Options:"
    , "      --cookie-token <COOKIE_TOKEN>  Token of your ATC-Authorization cookie, " ++
        "if the pipeline requires authentication [env: CONCOURSE_COOKIE_TOKEN]"
    , "      --debug                        Enable debug logging. Implies --verbose"
    , "      --verbose                      Enable info logging"
    , "      --config <PATH>                " ++
        "Read configuration from this file instead of .flakescan/"
    , "      --no-progress                  Do not draw the progress bar"
    , "  -h, --help                         Print help"
    , "  -V, --version                      Print version"
    , "" ]

def UsageFault.message : UsageFault → String
  | .unknownArgument => "error: unexpected argument"
  | .badValue => "error: invalid value for '[LIMIT]' or '[FETCH]'"
  | .noValue => "error: an option was given without its value"
  | .repeated => "error: an option cannot be used multiple times"
  | .valueForFlag => "error: unexpected value for an option"
  | .missing => "error: <URL>, <PIPELINE> and <JOB> are required"
  | .helpAsked => help
  | .versionAsked => ""

/-- The log level that the arguments force. -/
def Arguments.forcedLevel (a : Arguments) : Option String :=
  if a.debug then some "debug" else if a.verbose then some "info" else none

end JobHealth.CommandLine
