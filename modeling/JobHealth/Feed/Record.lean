import JobHealth.Text.Lines
/-!
# `JobHealth.Feed.Record` — one event of a build's feed

A feed is a stream of server-sent events.  One event is a block of lines of the
form `field: value`.  Of these only `event` and `data` count: the last `event`
names the record, the `data` values joined by line feeds are its data.  Empty
lines, lines that begin with a colon and lines of other fields say nothing, and
a block that has neither field is no record.

`Record.write` is the other direction: a block that is read back as the record.
-/

namespace JobHealth.Feed

open JobHealth.Text

/-- One event: its name and its data, which is never empty. -/
structure Record where
  event : String
  data : Option String
  deriving DecidableEq, Repr

namespace Record

/-- The name of a record without one. -/
def defaultEvent : String := "message"

def endEvent : String := "end"

def isEnd (r : Record) : Bool := r.event == endEvent

end Record

/-- A line of a block: the field's name and its value. -/
structure FieldLine where
  field : List Char
  value : List Char
  deriving DecidableEq, Repr

/-- The value without the one blank that may stand behind the colon. -/
def dropOneSpace : List Char → List Char
  | ' ' :: cs => cs
  | cs => cs

/-- What a line says, unless it is empty or a comment.  A line without colon is a field with an
empty value. -/
def FieldLine.ofLine? : List Char → Option FieldLine
  | [] => none
  | ':' :: _ => none
  | line =>
    match cutAt? ':' line with
    | some (field, value) => some ⟨field, dropOneSpace value⟩
    | none => some ⟨line, []⟩

/-- The values of a field in a block, in order. -/
def fieldValues (field : String) (ls : List FieldLine) : List (List Char) :=
  (ls.filter fun l => l.field == field.toList).map FieldLine.value

/-- The record that the lines of a block make. -/
def Record.ofFieldLines? (ls : List FieldLine) : Option Record :=
  let events := fieldValues "event" ls
  let data := fieldValues "data" ls
  if events.isEmpty && data.isEmpty then none
  else
    let joined := join '\n' data
    some
      { event := match events.getLast? with
          | some e => String.ofList e
          | none => defaultEvent
        data := if joined.isEmpty then none else some (String.ofList joined) }

def Record.ofBlock? (block : List Char) : Option Record :=
  ofFieldLines? ((lines block).filterMap FieldLine.ofLine?)

def writeFieldLine (field : String) (value : List Char) : List Char :=
  field.toList ++ ':' :: ' ' :: value ++ ['\n']

/-- The block of a record, with the empty line that ends it: the name, then one line for each line
of the data. -/
def Record.write (r : Record) : List Char :=
  writeFieldLine "event" r.event.toList ++
    (match r.data with
      | none => []
      | some d => (pieces '\n' d.toList).flatMap (writeFieldLine "data")) ++
    ['\n']

/-- A block that also numbers its record, as servers write it. -/
def Record.writeNumbered (i : Nat) (r : Record) : List Char :=
  writeFieldLine "id" (numeral i).toList ++ r.write

end JobHealth.Feed
