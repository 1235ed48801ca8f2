/-
# `JobHealth.Url.Punycode` — labels of other alphabets in ASCII

A label that is not ASCII is written as its ASCII characters, a hyphen, and one
number for each other character.  The number says how far the pair of the next
code point and its place has moved on, counting through all places before going
to the next code point.  It is written least digit first in base 36, each digit
with a threshold that depends on a bias; a digit below its threshold ends the
number.  The bias follows the size of the numbers.
-/

namespace JobHealth.Url.Punycode

def base : Nat := 36

/-- The threshold of the digit at weight position `k`, for a bias. -/
def threshold (k bias : Nat) : Nat := min 26 (max 1 (k - bias))

theorem one_le_threshold (k bias : Nat) : 1 ≤ threshold k bias := by
  unfold threshold
  omega

/-- Divides a number down for a bias, and counts the weight positions passed. -/
def biasSteps (delta k : Nat) : Nat × Nat :=
  if 455 < delta then biasSteps (delta / 35) (k + base) else (delta, k)
termination_by delta
decreasing_by omega

/-- The bias behind a number, after `count` characters were placed. -/
def adapt (delta count : Nat) (first : Bool) : Nat :=
  let delta := if first then delta / 700 else delta / 2
  let (delta, k) := biasSteps (delta + delta / count) 0
  k + base * delta / (delta + 38)

def firstBias : Nat := 72

/-- The first code point that is written as a number. -/
def firstCode : Nat := 128

/-- A digit below 36: a letter, or from 26 on a decimal digit. -/
def digitChar (d : Nat) : Char := if d < 26 then Char.ofNat (97 + d) else Char.ofNat (22 + d)

def digit? (c : Char) : Option Nat :=
  let n := c.toNat
  if 97 ≤ n && n ≤ 122 then some (n - 97)
  else if 65 ≤ n && n ≤ 90 then some (n - 65)
  else if 48 ≤ n && n ≤ 57 then some (n - 22)
  else none

/-- A number in digits, from weight position `k` on. -/
def writeNumber (bias k q : Nat) : List Char :=
  let t := threshold k bias
  if q < t then [digitChar q]
  else digitChar (t + (q - t) % (base - t)) :: writeNumber bias (k + base) ((q - t) / (base - t))
termination_by q
decreasing_by
  have := one_le_threshold k bias
  have : (q - threshold k bias) / (base - threshold k bias) ≤ q - threshold k bias :=
    Nat.div_le_self ..
  omega

structure Writing where
  delta : Nat
  bias : Nat
  /-- How many characters are placed. -/
  placed : Nat
  /-- The numbers so far. -/
  numbers : List Char

/-- Passes one character of the label while code point `n` is placed. -/
def Writing.pass (asciiCount n : Nat) (w : Writing) (c : Nat) : Writing :=
  if c < n then { w with delta := w.delta + 1 }
  else if c = n then
    { delta := 0
      bias := adapt w.delta (w.placed + 1) (w.placed == asciiCount)
      placed := w.placed + 1
      numbers := w.numbers ++ writeNumber w.bias base w.delta }
  else w

/-- Places the given code points, in ascending order, from `n` on. -/
def placeAll (asciiCount : Nat) (label : List Nat) : (n : Nat) → List Nat → Writing → Writing
  | _, [], w => w
  | n, m :: ms, w =>
    let w := { w with delta := w.delta + (m - n) * (w.placed + 1) }
    let w := label.foldl (Writing.pass asciiCount m) w
    placeAll asciiCount label (m + 1) ms { w with delta := w.delta + 1 }

/-- The ASCII form of a label, without any mark in front. -/
def encode (label : List Char) : List Char :=
  let codes := label.map Char.toNat
  let ascii := label.filter fun c => c.toNat < firstCode
  let others := ((codes.filter fun n => firstCode ≤ n).mergeSort fun a b => a ≤ b).eraseDups
  let start := if ascii.isEmpty then [] else ascii ++ ['-']
  start ++ (placeAll ascii.length codes firstCode others ⟨0, firstBias, ascii.length, []⟩).numbers

/-- Reads a number on from value `i`, at weight `w` and its position `k`. -/
def readNumber (bias : Nat) : (k i w : Nat) → List Char → Option (Nat × List Char)
  | _, _, _, [] => none
  | k, i, w, c :: cs =>
    match digit? c with
    | none => none
    | some d =>
      let i := i + d * w
      let t := threshold k bias
      if UInt32.size ≤ i then none
      else if d < t then some (i, cs)
      else readNumber bias (k + base) i (w * (base - t)) cs

/-- Whether a number is a code point of a character. -/
def isScalar (n : Nat) : Bool := n < 0xD800 || (0xE000 ≤ n && n < 0x110000)

/-- Reads numbers and places their characters; `fuel` bounds how many. -/
def placeRead : (fuel : Nat) → (n i bias : Nat) → List Char → List Char → Option (List Char)
  | 0, _, _, _, _, _ => none
  | _ + 1, _, _, _, placed, [] => some placed
  | fuel + 1, n, i, bias, placed, c :: cs =>
    match readNumber bias base i 1 (c :: cs) with
    | none => none
    | some (j, rest) =>
      let count := placed.length + 1
      let code := n + j / count
      let place := j % count
      if isScalar code then
        placeRead fuel code (place + 1) (adapt (j - i) count (i == 0))
          (placed.insertIdx place (Char.ofNat code)) rest
      else none

/-- The part of a label behind its last hyphen, and the part before it. -/
def splitLabel (cs : List Char) : List Char × List Char :=
  let tail := (cs.reverse.takeWhile (· != '-')).reverse
  let lead := cs.take (cs.length - tail.length)
  (lead.dropLast, tail)

def decode? (cs : List Char) : Option (List Char) :=
  let (ascii, numbers) := splitLabel cs
  if ascii.all fun c => c.toNat < firstCode then
    placeRead (numbers.length + 1) firstCode 0 firstBias ascii numbers
  else none

end JobHealth.Url.Punycode
