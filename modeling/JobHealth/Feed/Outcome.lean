import JobHealth.Build
import JobHealth.Diagnostic
import JobHealth.Feed.Envelope
import JobHealth.Feed.Span
import JobHealth.Feed.Stream
/-!
# `JobHealth.Feed.Outcome` — a build's status and log, put together from its feed

A `Reading` is what the records read so far say: the last status, the log, and
whether the feed is over.  It is over with a record named `end`, or as soon as
the status is `succeeded`; nothing that comes later counts.

Taking a record in may fail half-way, and leaves a reading all the same: what
was changed before the failure stays changed.  That nothing is changed before
one is a matter of the order of the steps, and is proved, not built in.

`consume` reads a feed in time: it waits for each item, and for the end of the
feed, at most the idle timeout, and what comes exactly then is in time.  A feed
that runs dry before it is over was cut short.
-/

namespace JobHealth.Feed

/-- How a feed came to be over. -/
inductive Ending where
  | endEvent
  | succeeded
  deriving DecidableEq, Repr

def Ending.shown : Ending → String
  | .endEvent => "EndEvent"
  | .succeeded => "Succeeded"

/-- The status that needs no further events. -/
def succeededWord : String := Status.succeeded.word

/-- The status before any status event. -/
def unknownWord : String := "unknown"

/-- What the records read so far say. -/
structure Reading where
  status : String
  log : String
  ending : Option Ending
  deriving DecidableEq, Repr

/-- What a whole feed says. -/
structure Outcome where
  status : String
  log : String
  ending : Ending
  deriving DecidableEq, Repr

namespace Reading

def start : Reading := ⟨unknownWord, "", none⟩

def isOver (r : Reading) : Bool := r.ending.isSome

end Reading

/-! ## Taking records in -/

/-- A reading, and what was noted on the way to it. -/
structure Noted where
  reading : Reading
  notes : List Diagnostic

/-- Steps that change a reading and make notes.  They may fail, and leave a reading even then. -/
abbrev Steps := ExceptT EventFault (StateM Noted)

namespace Steps

def change (f : Reading → Reading) : Steps Unit := modify fun s => { s with reading := f s.reading }

def note (d : Diagnostic) : Steps Unit := modify fun s => { s with notes := s.notes ++ [d] }

def ending : Steps (Option Ending) := return (← get).reading.ending

/-- Takes one record in, unless the feed is over, and gives how the feed is over then. -/
def take (rec : Record) : Steps (Option Ending) := do
  if (← get).reading.isOver then return ← ending
  if rec.isEnd then
    change fun r => { r with ending := some .endEvent }
    return ← ending
  let some text := rec.data
    | note ⟨.trace, .feed, "ignoring event without data", [("event", .text rec.event)]⟩
      return ← ending
  let envelope ← Envelope.read text
  if envelope.event = "status" then
    let status ← envelope.status
    note ⟨.debug, .feed, "build status event", [("status", .text status)]⟩
    change fun r => { r with status := status }
    if (← get).reading.status = succeededWord then
      change fun r => { r with ending := some .succeeded }
  else if envelope.event = "log" then
    let payload ← envelope.payload
    change fun r => { r with log := r.log ++ payload }
  else
    note ⟨.trace, .feed, "ignoring build event", [("event", .text envelope.event)]⟩
  ending

end Steps

namespace Reading

/-- Takes one record in: how the feed is over then, or what is wrong with the record, and in either
case the reading that is left. -/
def feed (r : Reading) (rec : Record) : Except EventFault (Option Ending) × Reading :=
  let (result, s) := (Steps.take rec).run.run ⟨r, []⟩
  (result, s.reading)

/-- What is noted when a record is taken in. -/
def feedNotes (r : Reading) (rec : Record) : List Diagnostic :=
  ((Steps.take rec).run.run ⟨r, []⟩).2.notes

/-- Takes records in one after the other, past those at fault. -/
def feedAll (r : Reading) (recs : List Record) : Reading :=
  recs.foldl (fun r rec => (r.feed rec).2) r

/-- What the feed of a build says, once it is over. -/
def finish (r : Reading) (build : String) : Except Fault Outcome :=
  match r.ending with
  | some ending => .ok ⟨r.status, r.log, ending⟩
  | none => .error (.feedCutShort build)

end Reading

/-! ## Feeds in time -/

/-- An item of a feed in time, and how long it lets wait: no span if it never comes. -/
structure Arrival where
  delay : Option Span
  item : Item

/-- A feed in time: its items, and how long its end lets wait behind the last of them. -/
structure Arrivals where
  items : List Arrival
  close : Option Span

/-- A feed that is there at once, to its end. -/
def Arrivals.ofItems (items : List Item) : Arrivals :=
  ⟨items.map fun i => ⟨some ⟨0⟩, i⟩, some ⟨0⟩⟩

def Arrivals.ofChunks (input : List Chunk) : Arrivals := Arrivals.ofItems (itemsOfChunks input)

/-- Whether a wait is over within the timeout. -/
def inTime (timeout : Span) : (delay : Option Span) → Bool
  | none => false
  | some d => d ≤ timeout

def timedOut (build : String) (timeout : Span) : Fault := .feedTimeout build timeout.wholeSeconds

/-- Reads on from a reading, waiting for each item and for the end at most as long as the timeout
says. -/
def consumeFrom (build : String) (timeout : Span) (close : Option Span) (r : Reading) :
    List Arrival → Except Fault Outcome
  | [] => if inTime timeout close then r.finish build else .error (timedOut build timeout)
  | a :: rest =>
    if inTime timeout a.delay then
      match a.item with
      | .error f => .error f
      | .ok rec =>
        match r.feed rec with
        | (.error f, _) => .error (.malformedEvent f)
        | (.ok (some _), r) => r.finish build
        | (.ok none, r) => consumeFrom build timeout close r rest
    else .error (timedOut build timeout)

def consumeNotesFrom (timeout : Span) (r : Reading) : List Arrival → List Diagnostic
  | [] => []
  | a :: rest =>
    if inTime timeout a.delay then
      match a.item with
      | .error _ => []
      | .ok rec =>
        r.feedNotes rec ++
          match r.feed rec with
          | (.ok none, r) => consumeNotesFrom timeout r rest
          | _ => []
    else []

/-- What the feed of a build says, read until it is over. -/
def consume (build : String) (timeout : Span) (feed : Arrivals) : Except Fault Outcome :=
  consumeFrom build timeout feed.close .start feed.items

def consumeNotes (timeout : Span) (feed : Arrivals) : List Diagnostic :=
  consumeNotesFrom timeout .start feed.items

end JobHealth.Feed
