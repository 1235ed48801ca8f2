import JobHealth.Number.Decimal
/-!
# `JobHealth.Number.Numeral` — numerals in settings

Settings hold whole numbers and fractional ones.  A whole number is an optional
sign and digits of its base; a fractional one has a point or an exponent
besides, and is the binary64 number nearest to its exact value.
-/

namespace JobHealth.Number

/-- The value of a digit in a base up to sixteen. -/
def digitIn? (base : Nat) (c : Char) : Option Nat :=
  let n := c.toNat
  let value :=
    if 48 ≤ n && n ≤ 57 then n - 48
    else if 65 ≤ n && n ≤ 70 then n - 55
    else if 97 ≤ n && n ≤ 102 then n - 87
    else 16
  if value < base then some value else none

/-- The number that digits write behind `n`. -/
def digitsBehind? (base : Nat) : (n : Nat) → List Char → Option Nat
  | n, [] => some n
  | n, c :: cs =>
    match digitIn? base c with
    | none => none
    | some d => digitsBehind? base (n * base + d) cs

def digits? (base : Nat) (cs : List Char) : Option Nat :=
  if cs.isEmpty then none else digitsBehind? base 0 cs

/-- A text without the sign in front, and whether that was a minus. -/
def cutSign : List Char → Bool × List Char
  | '-' :: cs => (true, cs)
  | '+' :: cs => (false, cs)
  | cs => (false, cs)

/-- The exponent at the end of a numeral; 0 if there is none. -/
def exponentOf? : List Char → Option Int
  | [] => some 0
  | c :: cs =>
    if c = 'e' || c = 'E' then
      let (negative, ds) := cutSign cs
      (digits? 10 ds).map fun n => if negative then -(n : Int) else n
    else none

/-- `n * 10 ^ e`, rounded once.  Exponents that leave no doubt are not multiplied out. -/
def scaledByTen (n : Nat) (e : Int) : Binary64 :=
  let size : Int := (Nat.toDigits 10 n).length + e
  if n = 0 || size < -400 then .finite 0
  else if 400 < size then .infinite false
  else .round ((n : Rat) * pow10 e)

/-- The sign and the magnitude of a fractional numeral. -/
def fractional? (cs : List Char) : Option (Bool × Binary64) :=
  let (negative, cs) := cutSign cs
  let whole := cs.takeWhile Char.isDigit
  let rest := cs.dropWhile Char.isDigit
  let (part, rest) := match rest with
    | '.' :: rest => (rest.takeWhile Char.isDigit, rest.dropWhile Char.isDigit)
    | rest => ([], rest)
  match digits? 10 (whole ++ part), exponentOf? rest with
  | some n, some e => some (negative, scaledByTen n (e - part.length))
  | _, _ => none

end JobHealth.Number
