import JobHealth.Program
import JobHealth.Url.Domain
import JobHealth.Yaml.Document
/-!
# `JobHealth.Main` — the command line

The one place where the program meets its surroundings: it gathers the arguments,
the environment and the files of settings, hands them to `Program.exitOf`, and
puts out what that comes to.  Nothing is decided here, but that YAML is read by
`Yaml.read?` and host names by `Url.domainToAscii?`.

There is no way to a server from here, so an examination ends with its first
request; a program that has one hands in its own transport.
-/

namespace JobHealth.Main

def textOf? (path : String) : IO (Option String) := do
  try return some (← IO.FS.readFile path) catch _ => return none

/-- The places where a file of settings is looked for, from the nearest outward. -/
def places (path : String) : List String :=
  if path.startsWith "/" then [path]
  else (List.range 32).map fun n => String.join (List.replicate n "../") ++ path

/-- The text of the first of these files that can be read. -/
def firstText? : List String → IO (Option String)
  | [] => return none
  | path :: paths => do
    match ← textOf? path with
    | some text => return some text
    | none => firstText? paths

/-- The files of settings that a run may ask for, with their texts. -/
def gather : List String → IO (List (String × String))
  | [] => return []
  | path :: paths => do
    let rest ← gather paths
    match ← firstText? (places path) with
    | some text => return (path, text) :: rest
    | none => return rest

/-- The variable of a line `NAME=value`. -/
def variableOf? (line : List Char) : Option (String × String) :=
  (Text.cutAt? '=' line).map fun (name, value) => (String.ofList name, String.ofList value)

def environment : IO Settings.Environment := do
  match ← textOf? "/proc/self/environ" with
  | some text => return (Text.pieces (Char.ofNat 0) text.toList).filterMap variableOf?
  | none =>
    let known ← [Program.cookieVariable, Program.directivesVariable].mapM fun name => do
      return (← IO.getEnv name).map fun value => (name, value)
    return known.filterMap id

/-- The files of settings that these arguments lead to. -/
def pathsOf (arguments : List String) (env : Settings.Environment) : List String :=
  match CommandLine.read arguments (Program.valueIn? env Program.cookieVariable) with
  | .error _ => []
  | .ok a => (Program.originOf a).paths

end JobHealth.Main

open JobHealth in
/-- Runs the program: the report goes to the standard output, notes and faults beside it. -/
def main (arguments : List String) : IO UInt32 := do
  let env ← Main.environment
  let files ← Main.gather (Main.pathsOf arguments env)
  let exit := Program.exitOf {
    arguments := arguments
    environment := env
    files := fun path => files.lookup path
    transport := .offline
    readYaml := fun text => Yaml.read? text.toList
    toAscii := Url.domainToAscii? }
  for note in exit.logged do
    IO.eprintln note.line
  IO.print exit.output
  match exit.usage, exit.fault with
  | some f, _ => if exit.code ≠ 0 then IO.eprintln (f.message ++ "\n\n" ++ CommandLine.usage)
  | none, some line => IO.eprint line
  | none, none => return exit.code.toUInt32
  return exit.code.toUInt32
