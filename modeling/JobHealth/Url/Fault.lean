/-
# `JobHealth.Url.Fault` — why a text is no URL

One constructor for each thing that can be wrong, and the wording beside it.
-/

namespace JobHealth.Url

inductive Fault where
  /-- There is no scheme, and nothing that the text could be relative to. -/
  | noScheme
  /-- The scheme asks for a host, and there is none. -/
  | emptyHost
  | invalidPort
  | invalidIpv4
  | invalidIpv6
  /-- The host is no domain name. -/
  | invalidDomain
  /-- The host of a scheme without rules of its own holds a character that no host may hold. -/
  | invalidHostCharacter
  deriving DecidableEq, Repr

def Fault.message : Fault → String
  | .noScheme => "relative URL without a base"
  | .emptyHost => "empty host"
  | .invalidPort => "invalid port number"
  | .invalidIpv4 => "invalid IPv4 address"
  | .invalidIpv6 => "invalid IPv6 address"
  | .invalidDomain => "invalid international domain name"
  | .invalidHostCharacter => "invalid domain character"

end JobHealth.Url
