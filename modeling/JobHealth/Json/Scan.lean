import JobHealth.Json.Value
import JobHealth.Number.Numeral
/-!
# `JobHealth.Json.Scan` — the lexical forms of JSON

Each function takes the text from some place on and gives what stands there
with the rest of the text, or nothing if the form is not there.

Strings are read in two ways.  `scanString` gives the characters, so an escaped
half of a surrogate pair has to be followed by its other half.  `skipString`
only finds the end: there four hexadecimal digits after `\u` are enough.

A numeral becomes a number in `Numeral.toNumber?`.  Its digits make a 64-bit
significand; what no longer fits only moves the decimal exponent.  The binary64
number is then one rounded product or quotient of the significand with a power
of ten, and a numeral whose product is infinite has no number.
-/

namespace JobHealth.Json

open JobHealth.Number

/-- The blanks that may stand between the parts of a JSON text. -/
def isGap (c : Char) : Bool := c == ' ' || c == '\n' || c == '\t' || c == '\r'

/-- The text from its first character that is no gap on. -/
def skipGap (cs : List Char) : List Char := cs.dropWhile isGap

def hexDigit? (c : Char) : Option Nat :=
  let n := c.toNat
  if 48 ≤ n && n ≤ 57 then some (n - 48)
  else if 65 ≤ n && n ≤ 70 then some (n - 55)
  else if 97 ≤ n && n ≤ 102 then some (n - 87)
  else none

def hexWord? (a b c d : Char) : Option Nat := do
  let a ← hexDigit? a
  let b ← hexDigit? b
  let c ← hexDigit? c
  let d ← hexDigit? d
  return ((a * 16 + b) * 16 + c) * 16 + d

/-- The character behind a backslash and one letter. -/
def escaped? (c : Char) : Option Char :=
  if c = '"' then some '"'
  else if c = '\\' then some '\\'
  else if c = '/' then some '/'
  else if c = 'b' then some (Char.ofNat 8)
  else if c = 'f' then some (Char.ofNat 12)
  else if c = 'n' then some '\n'
  else if c = 'r' then some '\r'
  else if c = 't' then some '\t'
  else none

def isHighHalf (n : Nat) : Bool := 0xD800 ≤ n && n ≤ 0xDBFF

def isLowHalf (n : Nat) : Bool := 0xDC00 ≤ n && n ≤ 0xDFFF

/-- The character of a surrogate pair. -/
def pairChar (hi lo : Nat) : Char := Char.ofNat (0x10000 + (hi - 0xD800) * 0x400 + (lo - 0xDC00))

/-- The characters of a string whose opening quote was read, and the text after its closing
quote. -/
def scanString : List Char → Option (List Char × List Char)
  | [] => none
  | c :: cs =>
    if c = '"' then some ([], cs)
    else if c = '\\' then
      match cs with
      | [] => none
      | e :: cs =>
        if e = 'u' then
          match cs with
          | h₁ :: h₂ :: h₃ :: h₄ :: cs =>
            match hexWord? h₁ h₂ h₃ h₄ with
            | none => none
            | some n =>
              if isHighHalf n then
                match cs with
                | '\\' :: 'u' :: h₁ :: h₂ :: h₃ :: h₄ :: cs =>
                  match hexWord? h₁ h₂ h₃ h₄ with
                  | none => none
                  | some m =>
                    if isLowHalf m then (scanString cs).map fun (s, r) => (pairChar n m :: s, r)
                    else none
                | _ => none
              else if isLowHalf n then none
              else (scanString cs).map fun (s, r) => (Char.ofNat n :: s, r)
          | _ => none
        else
          match escaped? e with
          | none => none
          | some x => (scanString cs).map fun (s, r) => (x :: s, r)
    else if c.toNat < 0x20 then none
    else (scanString cs).map fun (s, r) => (c :: s, r)

/-- The text after the closing quote of a string whose opening quote was read. -/
def skipString : List Char → Option (List Char)
  | [] => none
  | c :: cs =>
    if c = '"' then some cs
    else if c = '\\' then
      match cs with
      | [] => none
      | e :: cs =>
        if e = 'u' then
          match cs with
          | h₁ :: h₂ :: h₃ :: h₄ :: cs =>
            if (hexWord? h₁ h₂ h₃ h₄).isSome then skipString cs else none
          | _ => none
        else if (escaped? e).isSome then skipString cs
        else none
    else if c.toNat < 0x20 then none
    else skipString cs

/-- A numeral: its digits before the point, behind it, and of the exponent. -/
structure Numeral where
  negative : Bool
  whole : List Char
  fraction : Option (List Char)
  exponent : Option (Bool × List Char)
  deriving DecidableEq, Repr

/-- The fraction of a numeral, with its point, if one stands here; nothing if it has no digit. -/
def scanFraction : List Char → Option (Option (List Char) × List Char)
  | '.' :: rest =>
    let ds := rest.takeWhile Char.isDigit
    if ds.isEmpty then none else some (some ds, rest.dropWhile Char.isDigit)
  | cs => some (none, cs)

/-- The exponent of a numeral, if one stands here; nothing if it has no digit. -/
def scanExponent : List Char → Option (Option (Bool × List Char) × List Char)
  | [] => some (none, [])
  | c :: rest =>
    if c = 'e' || c = 'E' then
      let (negative, rest) := cutSign rest
      let ds := rest.takeWhile Char.isDigit
      if ds.isEmpty then none else some (some (negative, ds), rest.dropWhile Char.isDigit)
    else some (none, c :: rest)

/-- A text without the minus in front, and whether there was one. -/
def cutMinus : List Char → Bool × List Char
  | '-' :: cs => (true, cs)
  | cs => (false, cs)

/-- The numeral at the front of the text.  Nothing may follow a leading zero but point and
exponent. -/
def scanNumeral (cs : List Char) : Option (Numeral × List Char) :=
  let (negative, cs) := cutMinus cs
  let whole := cs.takeWhile Char.isDigit
  let rest := cs.dropWhile Char.isDigit
  if whole.isEmpty || (whole.length != 1 && whole.head? == some '0') then none
  else do
    let (fraction, rest) ← scanFraction rest
    let (exponent, rest) ← scanExponent rest
    return (⟨negative, whole, fraction, exponent⟩, rest)

def digitValue (c : Char) : Nat := c.toNat - 48

def maxWord : Nat := UInt64.size - 1

/-- The longest part of the digits that fits a word behind `significand`, and the digits left
over. -/
def fill (significand : Nat) : List Char → Nat × List Char
  | [] => (significand, [])
  | d :: ds =>
    let next := significand * 10 + digitValue d
    if maxWord < next then (significand, d :: ds) else fill next ds

/-- Divides by `10 ^ 308` until the exponent is in reach; a value that came to zero stays zero. -/
def scaleDown (f : Binary64) (e : Int) : Binary64 × Int :=
  if e < -308 then
    if f.isZero then (f, 0) else scaleDown (f.div (.round (pow10 308))) (e + 308)
  else (f, e)
termination_by (-e).toNat

/-- The significand times a power of ten, with one rounding for the power and one for the result. -/
def scaled? (significand : Nat) (e : Int) : Option Binary64 :=
  let f := Binary64.ofNat significand
  if 308 < e then if f.isZero then some f else none
  else
    let (f, e) := scaleDown f e
    if e < 0 then some (f.div (.round (pow10 (-e))))
    else match f.mul (.round (pow10 e)) with
      | .infinite _ => none
      | g => some g

def digitsValue (ds : List Char) : Nat := ds.foldl (fun n d => n * 10 + digitValue d) 0

/-- The exponents of numerals are kept within 32 bits, signed. -/
def clampExponent (e : Int) : Int := max (-2147483648) (min e 2147483647)

/-- The number of a numeral, unless its magnitude is too large. -/
def Numeral.toNumber? (n : Numeral) : Option Number :=
  let (significand, left) := fill 0 n.whole
  if left.isEmpty && n.fraction.isNone && n.exponent.isNone then
    if !n.negative then some (.natural significand)
    else if 0 < significand && significand ≤ Nat.pow 2 63 then some (.negative significand)
    else some (.fractional true (Binary64.ofNat significand))
  else
    let ds := n.fraction.getD []
    let (significand, unread) := fill significand ds
    let e : Int := (left.length : Int) - ((ds.length - unread.length : Nat) : Int)
    match n.exponent with
    | none => (scaled? significand e).map (.fractional n.negative)
    | some (negative, digits) =>
      let x := digitsValue digits
      if 2147483647 < x then
        if significand != 0 && !negative then none else some (.fractional n.negative (.finite 0))
      else
        (scaled? significand (clampExponent (if negative then e - x else e + x))).map
          (.fractional n.negative)

end JobHealth.Json
