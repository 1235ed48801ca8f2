import JobHealth.Url
/-!
# `JobHealth.Url.Parse` — URLs out of texts

Blanks and controls around a text do not count, nor do tabs and line ends
anywhere.  The scheme comes first and decides how the rest is read; the rest
falls into what stands before the first `?` or `#`, the query and the fragment,
and the first part into the authority and the path.

In a path of segments, `.` stands for nothing and `..` takes back the segment
before it, also where their dots are written as `%2e`.
-/

namespace JobHealth.Url

/-! ## The text and its scheme -/

/-- Characters that do not count at the ends of a text. -/
def isEdge (c : Char) : Bool := c.toNat ≤ 0x20

/-- Characters that do not count anywhere. -/
def isSkipped (c : Char) : Bool := c == '\t' || c == '\n' || c == '\r'

def significant (cs : List Char) : List Char :=
  ((cs.dropWhile isEdge).reverse.dropWhile isEdge).reverse.filter fun c => !isSkipped c

def isLetter (c : Char) : Bool := ('a' ≤ c && c ≤ 'z') || ('A' ≤ c && c ≤ 'Z')

/-- Whether a character may stand in a scheme behind its first letter. -/
def inScheme (c : Char) : Bool := isLetter c || c.isDigit || c == '+' || c == '-' || c == '.'

def small (c : Char) : Char := if 'A' ≤ c && c ≤ 'Z' then Char.ofNat (c.toNat + 32) else c

/-- The scheme in small letters, and what stands behind its colon. -/
def cutScheme? : List Char → Option (List Char × List Char)
  | [] => none
  | c :: cs =>
    if isLetter c then
      match cs.dropWhile inScheme with
      | ':' :: rest => some (small c :: (cs.takeWhile inScheme).map small, rest)
      | _ => none
    else none

/-! ## Authority -/

def isSlash (special : Bool) (c : Char) : Bool := c == '/' || (special && c == '\\')

def endsAuthority (special : Bool) (c : Char) : Bool := isSlash special c || c == '?' || c == '#'

/-- A text cut in two at the last `@`, if it has one. -/
def cutUserInfo? (cs : List Char) : Option (List Char × List Char) :=
  if cs.contains '@' then
    let after := (cs.reverse.takeWhile (· != '@')).reverse
    some (cs.take (cs.length - after.length - 1), after)
  else none

def readUserInfo (cs : List Char) : List Char × Option (List Char) :=
  match Text.cutAt? ':' cs with
  | none => (percentEncode inUserInfo cs, none)
  | some (name, []) => (percentEncode inUserInfo name, none)
  | some (name, password) =>
    (percentEncode inUserInfo name, some (percentEncode inUserInfo password))

/-- A text cut in two at its first colon outside brackets; the colon stays with the second part. -/
def cutPort : (inside : Bool) → List Char → List Char × List Char
  | _, [] => ([], [])
  | inside, c :: cs =>
    if c = ':' && !inside then ([], c :: cs)
    else
      let inside := if c = '[' then true else if c = ']' then false else inside
      let (host, port) := cutPort inside cs
      (c :: host, port)

/-- A port from the digits behind its colon; an empty one and the scheme's own are left out. -/
def readPort (own : Option Nat) (n : Nat) : List Char → Except Fault (Option Nat)
  | [] => .ok (if own = some n then none else some n)
  | c :: cs =>
    if c.isDigit then
      let n := 10 * n + (c.toNat - 48)
      if 65535 < n then .error .invalidPort else readPort own n cs
    else .error .invalidPort

/-- The port of what `cutPort` leaves. -/
def portOf (own : Option Nat) : List Char → Except Fault (Option Nat)
  | [] => .ok none
  | [_] => .ok none
  | _ :: ds => readPort own 0 ds

/-- What stands between the slashes and the path. -/
structure Authority where
  username : List Char
  password : Option (List Char)
  host : Option Host
  port : Option Nat

/-- The authority of a scheme with rules and the given port. -/
def readSpecialAuthority (toAscii : ToAscii) (own : Nat) (cs : List Char) :
    Except Fault Authority := do
  let (user, cs) := (cutUserInfo? cs).getD ([], cs)
  let (username, password) := readUserInfo user
  let (host, port) := cutPort false cs
  if host.isEmpty then throw .emptyHost
  let host ← readHost toAscii host
  let port ← portOf (some own) port
  return ⟨username, password, some host, port⟩

/-- The authority of a scheme without rules; all of it may be empty.  Only at the end of the text
may an `@` stand there alone; `more` says that the text goes on. -/
def readPlainAuthority (more : Bool) (cs : List Char) : Except Fault Authority := do
  if more && cs == ['@'] then throw .emptyHost
  let (user, cs) := (cutUserInfo? cs).getD ([], cs)
  let (username, password) := readUserInfo user
  let (host, port) := cutPort false cs
  if host.isEmpty then
    if port.isEmpty && username.isEmpty && password.isNone then return ⟨[], none, none, none⟩
    else throw .emptyHost
  let host ← readVerbatim host
  let port ← portOf none port
  return ⟨username, password, some host, port⟩

/-! ## Path -/

/-- The pieces of a text between its slashes. -/
def splitSlashes (special : Bool) : List Char → List (List Char)
  | [] => [[]]
  | c :: cs =>
    if isSlash special c then [] :: splitSlashes special cs
    else match splitSlashes special cs with
      | [] => [[c]]
      | p :: ps => (c :: p) :: ps

/-- How many dots a segment consists of, if it consists of dots, written plainly or encoded. -/
def dotCount? : List Char → Option Nat
  | [] => some 0
  | '.' :: cs => (dotCount? cs).map (· + 1)
  | '%' :: '2' :: 'e' :: cs => (dotCount? cs).map (· + 1)
  | '%' :: '2' :: 'E' :: cs => (dotCount? cs).map (· + 1)
  | _ => none

/-- Whether a text is a letter and a colon, or a bar in its place. -/
def isDrive : List Char → Bool
  | [c, m] => isLetter c && (m == ':' || m == '|')
  | _ => false

/-- The segments so far, in reverse, without the last; a drive in front stays. -/
def takeBack (rules : Rules) : List (List Char) → List (List Char)
  | [] => []
  | [s] => if rules = .file && isDrive s then [s] else []
  | _ :: done => done

/-- Walks over pieces of a path.  `done` holds the segments so far, in reverse. -/
def walk (rules : Rules) : (done : List (List Char)) → List (List Char) → List (List Char)
  | done, [] => done.reverse
  | done, p :: ps =>
    match dotCount? p with
    | some 1 => if ps.isEmpty then ([] :: done).reverse else walk rules done ps
    | some 2 =>
      let done := takeBack rules done
      if ps.isEmpty then ([] :: done).reverse else walk rules done ps
    | _ => walk rules (percentEncode inPath p :: done) ps

/-- The segments of a path behind its first slash. -/
def readSegments (rules : Rules) (cs : List Char) : List (List Char) :=
  walk rules [] (splitSlashes rules.isSpecial cs)

def readPath (rules : Rules) : List Char → Path
  | [] => if rules.isSpecial then .segments [[]] else .segments []
  | c :: cs => .segments (readSegments rules (if isSlash rules.isSpecial c then cs else c :: cs))

/-! ## Query and fragment -/

/-- A text cut in three: before the query, the query, the fragment. -/
def cutParts (cs : List Char) : List Char × Option (List Char) × Option (List Char) :=
  let (front, fragment) := match Text.cutAt? '#' cs with
    | some (front, fragment) => (front, some fragment)
    | none => (cs, none)
  match Text.cutAt? '?' front with
  | some (front, query) => (front, some query, fragment)
  | none => (front, none, fragment)

/-! ## The whole -/

/-- Authority and path of a scheme with rules and the given port. -/
def readSpecial (toAscii : ToAscii) (own : Nat) (cs : List Char) :
    Except Fault (Authority × Path) := do
  let cs := cs.dropWhile (isSlash true)
  let authority ← readSpecialAuthority toAscii own (cs.takeWhile fun c => !isSlash true c)
  return (authority, readPath (.special own) (cs.dropWhile fun c => !isSlash true c))

/-- The path of a file: no empty segments in front, and a drive is written with a colon. -/
def readFilePath (cs : List Char) : List (List Char) :=
  match (readSegments .file cs).dropWhile List.isEmpty with
  | [] => [[]]
  | s :: ss =>
    match s with
    | [c, m] => if isDrive [c, m] then [c, ':'] :: ss else s :: ss
    | _ => s :: ss

/-- The text behind slashes at its front, at most so many. -/
def dropSlashes : Nat → List Char → List Char
  | 0, cs => cs
  | n + 1, c :: cs => if isSlash true c then dropSlashes n cs else c :: cs
  | _, [] => []

def readFile (toAscii : ToAscii) (cs : List Char) : Except Fault (Authority × Path) := do
  let bare := fun (cs : List Char) =>
    ((⟨[], none, none, none⟩ : Authority), Path.segments (readFilePath (dropSlashes 1 cs)))
  if cs.length < 2 || dropSlashes 2 cs != cs.drop 2 then return bare cs
  let cs := cs.drop 2
  let host := cs.takeWhile fun c => !isSlash true c
  let rest := cs.dropWhile fun c => !isSlash true c
  if isDrive host then return bare cs
  if host.isEmpty then return bare rest
  let h ← readHost toAscii host
  let path := readFilePath (dropSlashes 1 rest)
  let drive := match path with
    | [c, m] :: _ => isDrive [c, m]
    | _ => false
  let host := if drive || h = .domain "localhost".toList then none else some h
  return (⟨[], none, host, none⟩, .segments path)

/-- Authority and path of a scheme without rules; `more` says that something follows. -/
def readPlain (more : Bool) (cs : List Char) : Except Fault (Authority × Path) := do
  match cs with
  | '/' :: '/' :: rest =>
    let path := rest.dropWhile (· != '/')
    let authority ← readPlainAuthority (more || !path.isEmpty) (rest.takeWhile (· != '/'))
    return (authority, readPath .none path)
  | '/' :: rest => return (⟨[], none, none, none⟩, .segments (readSegments .none rest))
  | cs => return (⟨[], none, none, none⟩, .rootless (percentEncode isControl cs))

/-- Authority and path, as the rules of the scheme have it; `more` says that something follows. -/
def readFront (toAscii : ToAscii) (rules : Rules) (more : Bool) (cs : List Char) :
    Except Fault (Authority × Path) :=
  match rules with
  | .special own => readSpecial toAscii own cs
  | .file => readFile toAscii cs
  | .none => readPlain more cs

/-- The URL of a text, with host names in the ASCII form that `toAscii` gives them. -/
def parse (toAscii : ToAscii) (text : List Char) : Except Fault Url :=
  match cutScheme? (significant text) with
  | none => .error .noScheme
  | some (scheme, rest) => do
    let rules := rulesOf scheme
    let (front, query, fragment) := cutParts rest
    let (authority, path) ← readFront toAscii rules (query.isSome || fragment.isSome) front
    return {
      scheme := scheme
      username := authority.username
      password := authority.password
      host := authority.host
      port := authority.port
      path := path
      query := query.map (percentEncode (if rules.isSpecial then inSpecialQuery else inQuery))
      fragment := fragment.map (percentEncode inFragment) }

end JobHealth.Url
