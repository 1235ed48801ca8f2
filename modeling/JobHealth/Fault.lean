import JobHealth.Json.Fault
import JobHealth.Text.Utf8
import JobHealth.Url.Fault
/-!
# `JobHealth.Fault` — why an examination cannot be done

Every way in which examining a job can fail is one constructor, with what a
reader of the message needs to know.  The wording is in `Fault.message` alone.
-/

namespace JobHealth

open JobHealth.Text

/-- What is wrong with an event of a build's feed. -/
inductive EventFault where
  /-- The event's bytes are not text. -/
  | notText (fault : Utf8.Fault)
  /-- The event's data is no event record. -/
  | notAnEvent (fault : Json.Fault)
  /-- A status event does not hold a status. -/
  | noStatus (fault : Json.Fault)
  /-- A log event does not hold a payload. -/
  | noPayload (fault : Json.Fault)
  deriving DecidableEq, Repr

def EventFault.message : EventFault → String
  | .notText f => "invalid UTF-8 in event stream: " ++ f.message
  | .notAnEvent f => f.message
  | .noStatus f => "status event without status: " ++ f.message
  | .noPayload f => "log event without payload: " ++ f.message

/-- What went wrong between here and the server. -/
inductive NetworkFault where
  /-- A request or its answer failed, in the words of the transport. -/
  | exchange (reason : String)
  /-- An event stream broke off, for the given reason. -/
  | interrupted (reason : String)
  /-- The answer to a request for builds is no page of builds. -/
  | unreadablePage (reason : String)
  deriving DecidableEq, Repr

def NetworkFault.message : NetworkFault → String
  | .exchange reason => reason
  | .interrupted reason => "event stream interrupted: " ++ reason
  | .unreadablePage reason => "build summary could not be decoded: " ++ reason

inductive EndpointFault where
  /-- The text is no URL. -/
  | notAUrl (fault : Url.Fault)
  | missingHost
  /-- The URL goes on behind the server's root. -/
  | beyondRoot
  deriving DecidableEq, Repr

def EndpointFault.message : EndpointFault → String
  | .notAUrl fault => fault.message
  | .missingHost => "missing host"
  | .beyondRoot => "expected the server root with no path"

/-- Why an examination cannot be done. -/
inductive Fault where
  | invalidEndpoint (url : String) (fault : EndpointFault)
  /-- Fewer builds would be fetched than are to be examined. -/
  | fetchBelowExamine (fetch examine : Nat)
  /-- The server refused the page of builds. -/
  | pageRefused (status : Nat)
  /-- The server refused a build's event feed. -/
  | feedRefused (build : String) (status : Nat)
  | network (fault : NetworkFault)
  /-- A build has a status that nobody knows. -/
  | unknownStatus (build status : String)
  /-- The page has too few completed builds. -/
  | tooFewCompleted (fetched completed requested : Nat)
  /-- A feed ended before its build did. -/
  | feedCutShort (build : String)
  | malformedEvent (fault : EventFault)
  /-- No event came within the idle timeout. -/
  | feedTimeout (build : String) (seconds : Nat)
  /-- The job never ran. -/
  | emptyHistory
  /-- The most recent build's name does not count the builds. -/
  | nameNotNumber (name : String)
  deriving DecidableEq, Repr

def Fault.message : Fault → String
  | .invalidEndpoint url fault => "Url " ++ url ++ " seems to be invalid: " ++ fault.message
  | .fetchBelowExamine fetch examine =>
    "Invalid arguments: fetching " ++ fetch.repr ++ " builds cannot satisfy examining " ++
      examine.repr
  | .pageRefused status => "Initial build summary query returned status code " ++ status.repr
  | .feedRefused build status =>
    "Event stream for build " ++ build ++ " returned status code " ++ status.repr
  | .network fault => "Network error: " ++ fault.message
  | .unknownStatus build status =>
    "Unexpected build status <" ++ status ++ "> found on build " ++ build
  | .tooFewCompleted fetched completed requested =>
    "The build report returned the " ++ fetched.repr ++ " most recent builds, with only " ++
      completed.repr ++ " of these completed. This cannot satisfy the desired target of " ++
      requested.repr ++ " jobs to analyze"
  | .feedCutShort build =>
    "Event stream for build " ++ build ++ " ended without an end event or a succeeded status"
  | .malformedEvent fault => "Malformed event: " ++ fault.message
  | .feedTimeout build seconds =>
    "No event received from build " ++ build ++ " within " ++ seconds.repr ++ "s"
  | .emptyHistory => "Probe fetch returned no builds; the job has never run"
  | .nameNotNumber name => "Build name " ++ Quoted.quote name ++ " is not a build number"

end JobHealth
