import JobHealth.Fault
import JobHealth.Url.Parse
/-!
# `JobHealth.Endpoint` — the address of a server

A server is named by the URL of its root.  Slashes at the end do not count, and
are left out of the address that is kept, since paths are appended to it.
-/

namespace JobHealth.Endpoint

def withoutTrailingSlashes (cs : List Char) : List Char := (cs.reverse.dropWhile (· == '/')).reverse

/-- What is wrong with a URL as the address of a server. -/
def faultOf? (u : Url) : Option EndpointFault :=
  if u.host.isNone then some .missingHost
  else if u.path.render != ['/'] || u.query.isSome || u.fragment.isSome then some .beyondRoot
  else none

/-- The address of a server, from the text that names it. -/
def ofText (toAscii : Url.ToAscii) (raw : String) : Except Fault String :=
  let kept := withoutTrailingSlashes raw.toList
  match Url.parse toAscii kept with
  | .error f => .error (.invalidEndpoint raw (.notAUrl f))
  | .ok u =>
    match faultOf? u with
    | some f => .error (.invalidEndpoint raw f)
    | none => .ok (String.ofList kept)

end JobHealth.Endpoint
