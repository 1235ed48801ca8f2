import JobHealth.Text.Lines
import JobHealth.Text.Utf8
import JobHealth.Url.Fault
import JobHealth.Url.Percent
/-!
# `JobHealth.Url.Host` — the host of a URL

| host       | read from                                   | shown as                  |
| :--------- | :------------------------------------------ | :------------------------ |
| `domain`   | a domain name                               | its ASCII form            |
| `ipv4`     | up to four numbers, the last label a number | four decimal numbers      |
| `ipv6`     | eight groups in brackets                    | groups, less their zeros  |
| `verbatim` | any text, if the scheme has no rules        | its text, percent encoded |

How a domain name becomes ASCII is not decided here: the mapping is handed in, and
a name that it refuses is no host.

The numbers of an IPv4 host are decimal, octal behind a `0` or hexadecimal
behind `0x`, and the last one fills all bytes that are left.
-/

namespace JobHealth.Url

open JobHealth.Text

/-- How names are brought to ASCII; nothing for a name that no domain may have. -/
abbrev ToAscii := (name : List Char) → Option (List Char)

inductive Host where
  | domain (name : List Char)
  | ipv4 (address : Nat)
  | ipv6 (groups : List Nat)
  | verbatim (text : List Char)
  deriving DecidableEq, Repr

/-! ## Four numbers -/

/-- The value of a digit string in the given base, if all its digits are digits there. -/
def numberIn? (base : Nat) : (n : Nat) → List Char → Option Nat
  | n, [] => some n
  | n, c :: cs =>
    match hexValue? c with
    | none => none
    | some d => if d < base then numberIn? base (n * base + d) cs else none

def ipv4Number? : List Char → Option Nat
  | [] => none
  | ['0'] => some 0
  | '0' :: 'x' :: ds => numberIn? 16 0 ds
  | '0' :: 'X' :: ds => numberIn? 16 0 ds
  | '0' :: ds => numberIn? 8 0 ds
  | ds => numberIn? 10 0 ds

/-- The labels of a name, without the empty one behind a final dot. -/
def hostLabels (name : List Char) : List (List Char) :=
  let labels := pieces '.' name
  match labels.getLast? with
  | some [] => labels.dropLast
  | _ => labels

/-- Whether the last label of a name is a number, so that it has to be an IPv4 host. -/
def endsInNumber (name : List Char) : Bool :=
  match (hostLabels name).getLast? with
  | none => false
  | some [] => false
  | some label => label.all Char.isDigit || (ipv4Number? label).isSome

/-- The address of up to four numbers, of which the last fills all bytes that are left. -/
def ipv4Of? (numbers : List Nat) : Option Nat :=
  match numbers.reverse with
  | [] => none
  | last :: front =>
    let front := front.reverse
    if 4 < numbers.length then none
    else if Nat.pow 256 (4 - front.length) ≤ last then none
    else if front.any fun n => 255 < n then none
    else some ((front.foldl (fun a n => a * 256 + n) 0) * Nat.pow 256 (4 - front.length) + last)

def readIpv4 (name : List Char) : Except Fault Host :=
  match (hostLabels name).mapM ipv4Number? with
  | none => .error .invalidIpv4
  | some numbers =>
    match ipv4Of? numbers with
    | none => .error .invalidIpv4
    | some a => .ok (.ipv4 a)

/-! ## Eight groups -/

/-- A group of one to four hexadecimal digits. -/
def group? (cs : List Char) : Option Nat :=
  if cs.isEmpty || 4 < cs.length then none else numberIn? 16 0 cs

/-- A decimal number below 256 without a needless zero. -/
def byteNumber? (cs : List Char) : Option Nat :=
  if cs.isEmpty || 3 < cs.length || (1 < cs.length && cs.head? == some '0') then none
  else
    match numberIn? 10 0 cs with
    | some n => if n < 256 then some n else none
    | none => none

/-- Two groups written as four decimal numbers. -/
def dottedGroups? (cs : List Char) : Option (List Nat) :=
  match (pieces '.' cs).mapM byteNumber? with
  | some [a, b, c, d] => some [a * 256 + b, c * 256 + d]
  | _ => none

/-- Groups between colons; the last two may be dotted. -/
def groupsOf? : List (List Char) → Option (List Nat)
  | [] => some []
  | [p] => if p.contains '.' then dottedGroups? p else (group? p).map ([·])
  | p :: ps => do
    let g ← group? p
    let gs ← groupsOf? ps
    return g :: gs

/-- Groups of a text between colons; none in an empty one. -/
def readGroups? (cs : List Char) : Option (List Nat) :=
  if cs.isEmpty then some [] else groupsOf? (pieces ':' cs)

/-- A text cut in two at its first pair of colons. -/
def cutAtPair? : List Char → Option (List Char × List Char)
  | [] => none
  | [_] => none
  | a :: b :: rest =>
    if a = ':' && b = ':' then some ([], rest)
    else (cutAtPair? (b :: rest)).map fun (l, r) => (a :: l, r)

/-- An IPv6 host, from what stands between the brackets. -/
def readIpv6 (cs : List Char) : Except Fault Host :=
  let groups? : Option (List Nat) :=
    match cutAtPair? cs with
    | none =>
      match readGroups? cs with
      | some gs => if gs.length = 8 then some gs else none
      | none => none
    | some (l, r) =>
      if l.contains '.' then none
      else
        match readGroups? l, readGroups? r with
        | some ls, some rs =>
          if ls.length + rs.length ≤ 7 then
            some (ls ++ List.replicate (8 - ls.length - rs.length) 0 ++ rs)
          else none
        | _, _ => none
  match groups? with
  | some gs => .ok (.ipv6 gs)
  | none => .error .invalidIpv6

/-- A host in brackets, if the text begins with one. -/
def bracketed? : List Char → Option (Except Fault Host)
  | '[' :: rest =>
    match rest.getLast? with
    | some ']' => some (readIpv6 rest.dropLast)
    | _ => some (.error .invalidIpv6)
  | _ => none

/-! ## Any host -/

/-- The host of a scheme with rules of its own. -/
def readHost (toAscii : ToAscii) (cs : List Char) : Except Fault Host :=
  match bracketed? cs with
  | some r => r
  | none =>
    match Utf8.decode (percentDecode cs) with
    | .error _ => .error .invalidDomain
    | .ok name =>
      match toAscii name with
      | none => .error .invalidDomain
      | some [] => .error .emptyHost
      | some name => if endsInNumber name then readIpv4 name else .ok (.domain name)

/-- The characters that no host may hold, whatever its scheme. -/
def isForbidden (c : Char) : Bool := c.toNat == 0 || isOneOf "\t\n\r #/:<>?@[\\]^|" c

/-- The host of a scheme without rules. -/
def readVerbatim (cs : List Char) : Except Fault Host :=
  match bracketed? cs with
  | some r => r
  | none =>
    if cs.any isForbidden then .error .invalidHostCharacter
    else .ok (.verbatim (percentEncode isControl cs))

/-! ## Showing -/

def showIpv4 (a : Nat) : List Char :=
  join '.' ([a / 16777216, a / 65536 % 256, a / 256 % 256, a % 256].map (Nat.toDigits 10))

/-- The length of the run of zeros at the front of groups. -/
def zeroRun (gs : List Nat) : Nat := (gs.takeWhile (· == 0)).length

/-- The first of the longest runs of at least two zeros: its place and its length. -/
def longestRun? (gs : List Nat) : Option (Nat × Nat) :=
  let runs := (List.range gs.length).map fun i => (i, zeroRun (gs.drop i))
  runs.foldl (fun best (i, n) =>
    match best with
    | none => if 2 ≤ n then some (i, n) else none
    | some (j, m) => if m < n then some (i, n) else some (j, m)) none

def showGroups (gs : List Nat) : List Char := join ':' (gs.map (Nat.toDigits 16))

/-- The groups of an address, the longest run of zeros left out. -/
def showIpv6 (gs : List Nat) : List Char :=
  match longestRun? gs with
  | none => showGroups gs
  | some (i, n) => showGroups (gs.take i) ++ ':' :: ':' :: showGroups (gs.drop (i + n))

def Host.render : Host → List Char
  | .domain name => name
  | .ipv4 a => showIpv4 a
  | .ipv6 gs => '[' :: showIpv6 gs ++ [']']
  | .verbatim text => text

end JobHealth.Url
