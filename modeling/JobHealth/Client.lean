import JobHealth.Examination
import JobHealth.Json.Bytes
import JobHealth.Url.Parse
/-!
# `JobHealth.Client` — a job's builds and feeds over HTTP

A client knows a server, a job there, and perhaps a token.  It asks for a page
of the job's builds and for the event stream of a build; both are plain `GET`
requests.  How a request gets to its server is not the client's business: it is
given a `Transport`, and with one it is a `Source`.  Nor is it how host names
become ASCII.

| reply to               | accepted      | refused                            |
| :--------------------- | :------------ | :--------------------------------- |
| a request for a page   | status 200    | any other status                   |
| a request for a stream | status 2xx    | any other status                   |
| either                 |               | no reply, or a request that cannot be built |

A request cannot be built from a text that is no URL with a host, from a scheme
other than `http` and `https`, or with a token that no header may hold.
-/

namespace JobHealth

structure Request where
  url : Url
  cookie : Option String
  accept : String
  deriving DecidableEq, Repr

/-- What becomes of a request. -/
inductive Reply where
  /-- There was no exchange with the server. -/
  | none
  /-- The server's answer, its body as it arrives. -/
  | response (status : Nat) (body : List Feed.Chunk)

/-- What becomes of requests; `before` counts the requests made so far. -/
abbrev Transport := (before : Nat) → Request → Reply

/-- The transport of a place without any connection. -/
def Transport.offline : Transport := fun _ _ => .none

/-- What a body gives that breaks off or is not what was asked for. -/
def brokenBody : String := "error decoding response body"

/-- Who asks, and for which job. -/
structure Client where
  base : String
  team : String
  pipeline : String
  job : String
  token : Option String
  deriving DecidableEq, Repr

/-- The cookie that carries a token; a token may say itself that it is a bearer's. -/
def authorizationCookie (token : String) : String :=
  let bare := (Text.after? "Bearer ".toList token.toList).getD token.toList
  "ATC-Authorization=\"Bearer " ++ String.ofList bare ++ "\""

/-- Whether a text may stand in a header: no controls but the tab. -/
def isHeaderText (s : String) : Bool :=
  s.toList.all fun c => (0x20 ≤ c.toNat || c == '\t') && c.toNat != 0x7F

namespace Client

/-! ## Requests -/

def pagePath (c : Client) : String :=
  "/api/v1/teams/" ++ c.team ++ "/pipelines/" ++ c.pipeline ++ "/jobs/" ++ c.job ++ "/builds"

def unbuildable (u : Option Url) : Fault :=
  match u with
  | none => .network (.exchange "builder error")
  | some u => .network (.exchange ("builder error for url (" ++ String.ofList u.render ++ ")"))

def isEncodedText (cs : List Char) : Bool :=
  (Text.Utf8.decode (Url.percentDecode cs)).toOption.isSome

/-- A URL without its name and password, if these are texts. -/
def publicUrl (u : Url) : Url :=
  let named := !u.username.isEmpty
  let secret := match u.password with
    | some p => isEncodedText p
    | none => false
  if isEncodedText u.username && (named || secret) then u.withoutUserInfo else u

/-- A request for what a text names, with a limit in its query if there is one. -/
def request (toAscii : Url.ToAscii) (c : Client) (text : String) (limit : Option Nat)
    (accept : String) : Except Fault Request :=
  match Url.parse toAscii text.toList with
  | .error _ => .error (unbuildable none)
  | .ok u =>
    if u.host.isNone then .error (unbuildable (some u))
    else
      let cookie := c.token.map authorizationCookie
      if !(cookie.all isHeaderText) then .error (unbuildable none)
      else
        let u := publicUrl u
        let u := match limit with
          | some n => u.addQuery "limit" n
          | none => u
        if u.scheme = "http".toList || u.scheme = "https".toList then .ok ⟨u, cookie, accept⟩
        else .error (unbuildable (some u))

def pageRequest (toAscii : Url.ToAscii) (c : Client) (limit : Nat) : Except Fault Request :=
  c.request toAscii (c.base ++ c.pagePath) (some limit) "*/*"

/-- The request for the event stream of a build. -/
def feedRequest (toAscii : Url.ToAscii) (c : Client) (b : Build) : Except Fault Request :=
  c.request toAscii (b.eventsUrl c.base) none "text/event-stream"

/-! ## Replies -/

def unreachable (r : Request) : Fault :=
  .network (.exchange ("error sending request for url (" ++ String.ofList r.url.render ++ ")"))

/-- The bytes of a body that arrives as a whole. -/
def wholeBody? : List Feed.Chunk → Option (List UInt8)
  | [] => some []
  | .bytes bs :: rest => (wholeBody? rest).map (bs ++ ·)
  | .pending :: rest => wholeBody? rest
  | .failure _ :: _ => none

def pageOfBody (body : List Feed.Chunk) : Except Fault (List Build) :=
  let unreadable := Except.error (.network (.unreadablePage brokenBody))
  match wholeBody? body with
  | none => unreadable
  | some bs =>
    match Build.pageOfJson? (String.ofList (Json.ofBytes bs)) with
    | .error _ => unreadable
    | .ok page => .ok page

/-- What a reply to the request for a page gives. -/
def pageOfReply (r : Request) : Reply → Answer (List Build)
  | .none => .quiet (.error (unreachable r))
  | .response status body =>
    { result := if status = 200 then pageOfBody body else .error (.pageRefused status)
      notes := [⟨.debug, .client, "build summary response", [("status", .count status)]⟩] }

/-- What a reply to the request for a build's event stream gives. -/
def feedOfReply (r : Request) (b : Build) : Reply → Answer Feed.Arrivals
  | .none => .quiet (.error (unreachable r))
  | .response status body =>
    { result :=
        if 200 ≤ status ∧ status < 300 then .ok (Feed.Arrivals.ofChunks body)
        else .error (.feedRefused b.name status)
      notes :=
        [⟨.debug, .client, "Event Status is " ++ status.repr, [("status", .count status)]⟩] }

/-! ## The source -/

/-- The client as a source of builds, with a way to its server. -/
def source (toAscii : Url.ToAscii) (c : Client) (transport : Transport) : Source where
  baseUrl := c.base
  page := fun before limit =>
    match c.pageRequest toAscii limit with
    | .error f => .quiet (.error f)
    | .ok r => pageOfReply r (transport before r)
  feed := fun before b =>
    match c.feedRequest toAscii b with
    | .error f => .quiet (.error f)
    | .ok r => feedOfReply r b (transport before r)

/-- The requests of an examination that could be built, in order. -/
def requestsOf (toAscii : Url.ToAscii) (c : Client) (e : Examination) : List Request :=
  (e.limits.map (c.pageRequest toAscii) ++ e.opened.map (c.feedRequest toAscii)).filterMap
    Except.toOption

end Client
end JobHealth
