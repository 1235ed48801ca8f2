import JobHealth.Settings
import JobHealth.Text.Blank
import JobHealth.Text.Lines
/-!
# `JobHealth.Logging` — which notes are logged

A filter is a list of directives.  A directive admits notes up to a level, from
every part of the program or from those whose name begins with its target; of
the directives that fit a part the one with the longest target counts.

Directives come from a text, divided by commas: a level alone, `off`, a target
with its level behind `=`, or a target alone, which admits everything.  Words
that are no directive do not count, and where nothing is left the level of the
log settings is the one directive.

Logging is switched on once in a process; a second time is refused.
-/

namespace JobHealth

open JobHealth.Text

/-- What admits notes. -/
structure Directive where
  /-- What the part's name begins with; empty for every part. -/
  target : List Char
  /-- The greatest rank of a level that is admitted; 0 for none. -/
  rank : Nat
  deriving DecidableEq, Repr

structure LogFilter where
  directives : List Directive
  deriving DecidableEq, Repr

namespace LogFilter

/-- The small letters of a text, where they are Latin. -/
def lowered (cs : List Char) : List Char :=
  cs.map fun c => if 'A' ≤ c && c ≤ 'Z' then Char.ofNat (c.toNat + 32) else c

/-- The level that a directive names, in letters of either size. -/
def levelOf? (cs : List Char) : Option Level :=
  Level.all.find? fun l => l.word.toList == lowered cs

/-- The rank that the word of a directive names: a level, `off`, or the rank itself. -/
def rankOf? (cs : List Char) : Option Nat :=
  if cs = [] then some Level.error.rank
  else if lowered cs = "off".toList then some 0
  else
    match levelOf? cs with
    | some l => some l.rank
    | none =>
      match cs with
      | [c] => if '0' ≤ c && c ≤ '5' then some (c.toNat - '0'.toNat) else none
      | _ => none

/-- Whether a target may begin with this character. -/
def startsTarget (c : Char) : Bool :=
  c.isAlphanum || c == '-' || c == ':' || c == '_' || 0x80 ≤ c.toNat

def directive? (cs : List Char) : Option Directive :=
  match cs with
  | [] => none
  | c :: _ =>
    if !startsTarget c || cs.contains '[' then none
    else
      match cutAt? '=' cs with
      | some (target, level) => (rankOf? level).map fun n => ⟨target, n⟩
      | none =>
        match rankOf? cs with
        | some n => some ⟨[], n⟩
        | none => some ⟨cs, Level.trace.rank⟩

def trimmed (cs : List Char) : List Char :=
  ((cs.dropWhile isBlank).reverse.dropWhile isBlank).reverse

/-- The filter of a text, or of a level where the text has no directive. -/
def ofText (text : List Char) (fallback : Level) : LogFilter :=
  match (pieces ',' text).filterMap fun p => directive? (trimmed p) with
  | [] => ⟨[⟨[], fallback.rank⟩]⟩
  | ds => ⟨ds⟩

/-- The better of two directives for a part that both fit: the longer target, or the later one. -/
def better (best : Option Directive) (d : Directive) : Option Directive :=
  match best with
  | none => some d
  | some b => if d.target.length < b.target.length then some b else some d

/-- The rank that is admitted from a part of the program. -/
def rankFor (f : LogFilter) (part : List Char) : Nat :=
  match (f.directives.filter fun d => d.target.isPrefixOf part).foldl better none with
  | none => 0
  | some d => d.rank

/-- Whether notes of a level are logged from a part of the program. -/
def admits (f : LogFilter) (level : Level) (part : String) : Bool :=
  decide (level.rank ≤ f.rankFor part.toList)

def admitsNote (f : LogFilter) (d : Diagnostic) : Bool := f.admits d.level d.origin.target

end LogFilter

/-! ## Switching on -/

/-- Whether a process logs, and what. -/
structure Logging where
  filter : Option LogFilter
  deriving DecidableEq, Repr

inductive LoggingFault where
  | unknownLevel (word : String)
  | alreadyOn
  deriving DecidableEq, Repr

def LoggingFault.message : LoggingFault → String
  | .unknownLevel word => "Invalid log level: " ++ word
  | .alreadyOn =>
    "Failed to install tracing subscriber: a global default trace dispatcher has already been set"

namespace Logging

def off : Logging := ⟨none⟩

/-- The level of a word, in letters of either size.  No letter beyond Latin has a small form among
the letters of these words. -/
def level? (word : String) : Option Level :=
  match String.ofList (LogFilter.lowered word.toList) with
  | "trace" => some .trace
  | "debug" => some .debug
  | "info" => some .info
  | "warn" => some .warn
  | "error" => some .error
  | _ => none

/-- Switches logging on, with the text of directives from outside if there is one. -/
def switchOn (l : Logging) (plan : LogPlan) (directives : Option String) :
    Except LoggingFault Logging :=
  match level? plan.level with
  | none => .error (.unknownLevel plan.level)
  | some level =>
    match l.filter with
    | some _ => .error .alreadyOn
    | none => .ok ⟨some (LogFilter.ofText (directives.getD "").toList level)⟩

/-- Whether notes of a level are logged from a part of the program. -/
def admits (l : Logging) (level : Level) (part : String) : Bool :=
  match l.filter with
  | none => false
  | some f => f.admits level part

def logged (l : Logging) (notes : List Diagnostic) : List Diagnostic :=
  match l.filter with
  | none => []
  | some f => notes.filter f.admitsNote

def startNote (plan : LogPlan) : Diagnostic :=
  ⟨.debug, .logger, "logger initialized",
    [ ("level", .text plan.level)
    , ("format", .text plan.format.shown)
    , ("file_output", .flag plan.directory.isSome) ]⟩

end Logging
end JobHealth
