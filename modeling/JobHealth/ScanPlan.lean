import JobHealth.CommandLine
import JobHealth.Client
import JobHealth.Endpoint
import JobHealth.Settings
/-!
# `JobHealth.ScanPlan` — what one run does, decided before it begins

The arguments are laid over the settings: what was given on the command line
holds, and the settings hold for the rest.  The address is checked first.  Then
fewer builds to fetch than to examine are refused, since such a run cannot
succeed; so a full history, asked for by fetching 0, goes only with examining
everything, asked for by 0 too.
-/

namespace JobHealth

structure ScanPlan where
  base : String
  team : String
  pipeline : String
  job : String
  examine : UInt32
  fetch : UInt32
  token : Option String
  eventTimeout : UInt64
  connectTimeout : UInt64
  deriving DecidableEq, Repr

namespace ScanPlan

/-- The plan of arguments laid over settings. -/
def resolve (toAscii : Url.ToAscii) (a : CommandLine.Arguments) (s : Settings) :
    Except Fault ScanPlan :=
  match Endpoint.ofText toAscii a.url with
  | .error f => .error f
  | .ok base =>
    let examine := a.limit.getD s.server.examineLimit
    let fetch := a.fetch.getD s.server.fetchLimit
    if fetch < examine then .error (.fetchBelowExamine fetch.toNat examine.toNat)
    else
      .ok {
        base := base
        team := a.team.getD s.server.team
        pipeline := a.pipeline
        job := a.job
        examine := examine
        fetch := fetch
        token := a.cookieToken
        eventTimeout := s.server.eventTimeout
        connectTimeout := s.server.connectTimeout }

def client (p : ScanPlan) : Client := ⟨p.base, p.team, p.pipeline, p.job, p.token⟩

def query (p : ScanPlan) : Query :=
  ⟨p.examine.toNat, p.fetch.toNat, .ofSeconds p.eventTimeout.toNat⟩

def startNote (p : ScanPlan) : Diagnostic :=
  ⟨.info, .scan, "scanning job",
    [ ("url", .text p.base)
    , ("team", .text p.team)
    , ("pipeline", .text p.pipeline)
    , ("job", .text p.job)
    , ("limit", .count p.examine.toNat)
    , ("fetch", .count p.fetch.toNat) ]⟩

end ScanPlan
end JobHealth
