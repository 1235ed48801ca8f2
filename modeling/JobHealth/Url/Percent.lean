import JobHealth.Text.Utf8
/-!
# `JobHealth.Url.Percent` — percent encoding

A character that may not stand in some part of a URL is written as its UTF-8
bytes, each as a percent sign and two upper-case hexadecimal digits.  Which
characters these are depends on the part: every set holds the controls and all
that is not ASCII, and the sets below grow from there.

Decoding takes each percent sign with two hexadecimal digits for a byte and
leaves everything else as it is.
-/

namespace JobHealth.Url

open JobHealth.Text

def isControl (c : Char) : Bool := c.toNat < 0x20 || 0x7F ≤ c.toNat

/-- Whether a character is one of the listed ones. -/
def isOneOf (marks : String) (c : Char) : Bool := marks.toList.contains c

/-- What is encoded in a fragment. -/
def inFragment (c : Char) : Bool := isControl c || isOneOf " \"<>`" c

/-- What is encoded in a query. -/
def inQuery (c : Char) : Bool := isControl c || isOneOf " \"#<>" c

/-- What is encoded in the query of a scheme with rules of its own. -/
def inSpecialQuery (c : Char) : Bool := inQuery c || c == '\''

def inPath (c : Char) : Bool := inFragment c || isOneOf "#?\x7b\x7d" c

def inUserInfo (c : Char) : Bool := inPath c || isOneOf "/:;=@[\\]^|" c

def upperHexDigit (n : Nat) : Char := if n < 10 then Char.ofNat (48 + n) else Char.ofNat (55 + n)

def percentByte (b : UInt8) : List Char :=
  ['%', upperHexDigit (b.toNat / 16), upperHexDigit (b.toNat % 16)]

/-- A text with the characters of a set encoded. -/
def percentEncode (inSet : Char → Bool) (cs : List Char) : List Char :=
  cs.flatMap fun c => if inSet c then (Utf8.encodeChar c).flatMap percentByte else [c]

def hexValue? (c : Char) : Option Nat :=
  let n := c.toNat
  if 48 ≤ n && n ≤ 57 then some (n - 48)
  else if 65 ≤ n && n ≤ 70 then some (n - 55)
  else if 97 ≤ n && n ≤ 102 then some (n - 87)
  else none

/-- The byte behind a percent sign, if two hexadecimal digits stand there. -/
def escapedByte? : List Char → Option (UInt8 × List Char)
  | a :: b :: rest =>
    match hexValue? a, hexValue? b with
    | some a, some b => some ((a * 16 + b).toUInt8, rest)
    | _, _ => none
  | _ => none

/-- The bytes of a text with its percent signs decoded; `fuel` bounds its length. -/
def percentDecodeFrom : (fuel : Nat) → List Char → List UInt8
  | 0, _ => []
  | _ + 1, [] => []
  | fuel + 1, c :: cs =>
    if c = '%' then
      match escapedByte? cs with
      | some (b, rest) => b :: percentDecodeFrom fuel rest
      | none => Utf8.encodeChar c ++ percentDecodeFrom fuel cs
    else Utf8.encodeChar c ++ percentDecodeFrom fuel cs

/-- The bytes of a text with its percent signs decoded. -/
def percentDecode (cs : List Char) : List UInt8 := percentDecodeFrom cs.length cs

end JobHealth.Url
