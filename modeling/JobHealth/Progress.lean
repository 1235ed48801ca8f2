/-
# `JobHealth.Progress` — how far an examination has come

A progress has a position and, once it is known, a length.  Drawing it is not
this library's business.  A hidden progress starts without length and label; a
visible one starts with length 0 and is labelled.
-/

namespace JobHealth

/-- How far an examination has come. -/
structure Progress where
  length : Option UInt64
  position : UInt64
  label : String
  message : String
  finished : Bool
  deriving DecidableEq, Repr

namespace Progress

def start (visible : Bool) : Progress where
  length := if visible then some 0 else none
  position := 0
  label := if visible then "Build pages examined" else ""
  message := ""
  finished := false

def withLength (p : Progress) (n : UInt64) : Progress := { p with length := some n }

def advance (p : Progress) (n : UInt64) : Progress := { p with position := p.position + n }

def say (p : Progress) (message : String) : Progress := { p with message := message }

/-- Ends in success: the position goes to the length, if there is one. -/
def succeed (p : Progress) (text : String) : Progress :=
  { p with
    position := p.length.getD p.position
    message := "✓ " ++ text
    finished := true }

/-- Ends in failure, where it is. -/
def fail (p : Progress) (text : String) : Progress :=
  { p with
    message := "✗ " ++ text
    finished := true }

end Progress
end JobHealth
