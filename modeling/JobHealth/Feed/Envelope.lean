import JobHealth.Fault
import JobHealth.Feed.Record
import JobHealth.Json.Read
import JobHealth.Json.Write
/-!
# `JobHealth.Feed.Envelope` — the event in a record's data

A record's data is a JSON envelope: the kind of event and its own data.  Two
kinds matter, `status` with the build's status and `log` with a piece of its
log; a record named `end` ends the feed whatever its data is.

`logRecord` and `statusRecord` write the records of such events.
-/

namespace JobHealth.Feed

/-- How many lists and records may be open in an event's own data, inside its envelope. -/
def dataDepth : Nat := 126

def envelopeShape : Json.Shape :=
  { name := "EventEnvelope"
    fields :=
      [ { name := "event", kind := .text }
      , { name := "data", kind := .free dataDepth, fallback := some (.free .null) } ] }

/-- The only text in an event's own data: the member `field` of a record, or the item of a list of
one; `shape` names the record in a fault. -/
def soleText (shape field : String) : Json.Value → Except Json.Fault String
  | .record members =>
    match Json.lookupLast field members with
    | some (.text s) => .ok s
    | some v => .error (.invalidType v.found "a string")
    | none => .error (.missingField field)
  | .list [] => .error (.invalidLength 0 ("struct " ++ shape ++ " with 1 element"))
  | .list [.text s] => .ok s
  | .list (.text _ :: rest) =>
    .error (.invalidLength (rest.length + 1) "fewer elements in array")
  | .list (v :: _) => .error (.invalidType v.found "a string")
  | v => .error (.invalidType v.found ("struct " ++ shape))

/-- An event with data of its own. -/
structure Envelope where
  event : String
  data : Json.Value

namespace Envelope

def read (text : String) : Except EventFault Envelope :=
  match Json.readAll (Json.readRecord envelopeShape) text with
  | .error f => .error (.notAnEvent f)
  | .ok fields => .ok ⟨fields.text "event", fields.free "data"⟩

/-- The status in the data of a status event. -/
def status (e : Envelope) : Except EventFault String :=
  (soleText "StatusData" "status" e.data).mapError .noStatus

/-- The piece of log in the data of a log event. -/
def payload (e : Envelope) : Except EventFault String :=
  (soleText "LogData" "payload" e.data).mapError .noPayload

end Envelope

/-! ## Writing -/

/-- The data of an event whose own data has one text member. -/
def writeEnvelope (kind field value : String) : String :=
  String.ofList <| Json.writeRecord
    [ Json.writeMember "event" (Json.writeString kind.toList)
    , Json.writeMember "data"
        (Json.writeRecord [Json.writeMember field (Json.writeString value.toList)]) ]

/-- The name of the records that carry an envelope. -/
def envelopeEvent : String := "event"

def logRecord (payload : String) : Record :=
  ⟨envelopeEvent, some (writeEnvelope "log" "payload" payload)⟩

def statusRecord (word : String) : Record :=
  ⟨envelopeEvent, some (writeEnvelope "status" "status" word)⟩

def endRecord : Record := ⟨Record.endEvent, none⟩

end JobHealth.Feed
