import JobHealth.Url.Host
/-!
# `JobHealth.Url` — absolute URLs

A URL is kept in its parts, each already encoded as it is shown, so showing a
URL only puts the parts together.  The path is a list of segments behind a
slash each, or a text of its own where a scheme goes without.

Six schemes have rules of their own: they ask for a host (`file` may do
without), read a backslash as a slash, always have a path, and five of them
leave out their own port.
-/

namespace JobHealth

inductive Url.Path where
  /-- Segments with a slash in front of each. -/
  | segments (ss : List (List Char))
  /-- A text without a slash in front. -/
  | rootless (text : List Char)
  deriving DecidableEq, Repr

structure Url where
  scheme : List Char
  username : List Char
  password : Option (List Char)
  host : Option Url.Host
  port : Option Nat
  path : Url.Path
  query : Option (List Char)
  fragment : Option (List Char)
  deriving DecidableEq, Repr

namespace Url

/-- How a scheme is read. -/
inductive Rules where
  /-- A host, backslashes for slashes, and perhaps a port of its own. -/
  | special (port : Nat)
  /-- As `special`, but the host may be absent and there is no port. -/
  | file
  /-- No rules of its own. -/
  | none
  deriving DecidableEq, Repr

/-- The schemes with rules and a port of their own. -/
def specialSchemes : List (String × Nat) :=
  [("http", 80), ("https", 443), ("ws", 80), ("wss", 443), ("ftp", 21)]

def rulesOf (scheme : List Char) : Rules :=
  match specialSchemes.find? fun (s, _) => s.toList == scheme with
  | some (_, port) => .special port
  | Option.none => if scheme = "file".toList then .file else .none

def Rules.isSpecial : Rules → Bool
  | .none => false
  | _ => true

/-! ## Showing -/

def Path.render : Path → List Char
  | .segments ss => ss.flatMap fun s => '/' :: s
  | .rootless text => text

/-- Name and password with what ends them. -/
def renderUserInfo (username : List Char) (password : Option (List Char)) : List Char :=
  match username, password with
  | [], Option.none => []
  | _, Option.none => username ++ ['@']
  | _, some p => username ++ ':' :: p ++ ['@']

/-- Whether a path would be read as a host if it stood behind the scheme alone. -/
def Path.looksLikeHost : Path → Bool
  | .segments ([] :: _ :: _) => true
  | _ => false

/-- What stands between the scheme and the path. -/
def renderAuthority (u : Url) : List Char :=
  match u.host with
  | Option.none =>
    if rulesOf u.scheme = .file then ['/', '/']
    else if u.path.looksLikeHost then ['/', '.']
    else []
  | some host =>
    '/' :: '/' :: renderUserInfo u.username u.password ++ host.render ++
      match u.port with
      | Option.none => []
      | some p => ':' :: Nat.toDigits 10 p

def renderPart (mark : Char) : Option (List Char) → List Char
  | Option.none => []
  | some text => mark :: text

def render (u : Url) : List Char :=
  u.scheme ++ ':' :: renderAuthority u ++ u.path.render ++ renderPart '?' u.query ++
    renderPart '#' u.fragment

/-- The text of a URL without its fragment, as a request names it. -/
def renderRequested (u : Url) : List Char := render { u with fragment := Option.none }

/-! ## Changes -/

def addQuery (u : Url) (name : String) (n : Nat) : Url :=
  let pair := name.toList ++ '=' :: Nat.toDigits 10 n
  { u with
    query := some <| match u.query with
      | Option.none => pair
      | some [] => pair
      | some q => q ++ '&' :: pair }

def withoutUserInfo (u : Url) : Url := { u with username := [], password := Option.none }

end Url
end JobHealth
