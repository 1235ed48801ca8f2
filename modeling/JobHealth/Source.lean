import JobHealth.Feed.Outcome
/-!
# `JobHealth.Source` — where builds and their feeds come from

A source gives pages of a job's builds and the feeds of single builds.  An
answer may depend on how many requests the source got before, so that a server
which changes its mind is a source too, and a source stays a pure value.
-/

namespace JobHealth

/-- What a source gives, with what is noted on the way. -/
structure Answer (α : Type) where
  result : Except Fault α
  notes : List Diagnostic

def Answer.quiet (result : Except Fault α) : Answer α := ⟨result, []⟩

/-- Where builds and their feeds come from.  `before` counts the requests made so far. -/
structure Source where
  /-- The server's address, which links in reports begin with. -/
  baseUrl : String
  /-- The job's builds, the most recent first, at most `limit` of them. -/
  page : (before limit : Nat) → Answer (List Build)
  /-- The feed of a build. -/
  feed : (before : Nat) → Build → Answer Feed.Arrivals

/-- The feed of a build in memory: its items in time, or the status with which it is refused. -/
inductive StoredFeed where
  | open (feed : Feed.Arrivals)
  | refused (status : Nat)

/-- A source in memory: a history with the most recent build first, and what is stored for each
build. -/
def Source.stored (baseUrl : String) (history : List Build) (feeds : Build → StoredFeed) :
    Source where
  baseUrl := baseUrl
  page := fun _ limit => .quiet (.ok (history.take limit))
  feed := fun _ b =>
    match feeds b with
    | .open feed => .quiet (.ok feed)
    | .refused status => .quiet (.error (.feedRefused b.name status))

/-- The source whose requests for a page are refused where `refusal?` gives a status. -/
def Source.refusingPages (refusal? : Nat → Option Nat) (s : Source) : Source :=
  { s with
    page := fun before limit =>
      match refusal? before with
      | some status => .quiet (.error (.pageRefused status))
      | none => s.page before limit }

end JobHealth
