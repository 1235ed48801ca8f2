import JobHealth.Json.Value
import JobHealth.Number.Numeral
import JobHealth.Text.Lines
/-!
# `JobHealth.Yaml.Scalar` — single values of a YAML document

A plain scalar is what it looks like: nothing, a truth value, a whole number, a
fractional number, or else a text.  Whole numbers may be hexadecimal, octal or
binary; digits behind a leading zero are a text.

A scalar in quotes is always a text.  In single quotes only the quote itself is
written twice; in double quotes a backslash begins an escape.  In both, a line
end with the blanks around it is folded into one space, and of several line ends
all but one stay.
-/

namespace JobHealth.Yaml

open JobHealth.Json JobHealth.Number

def isGap (c : Char) : Bool := c == ' ' || c == '\t'

def isSpaceOrBreak (c : Char) : Bool := isGap c || c == '\n'

/-- The text from its first character on that is no space or tab. -/
def skipGap (cs : List Char) : List Char := cs.dropWhile isGap

/-- Whether a text ends here, or goes on with a space, a tab or a line end. -/
def atBlank : List Char → Bool
  | [] => true
  | c :: _ => isSpaceOrBreak c

/-! ## Plain scalars -/

/-- Digits behind a needless leading zero, perhaps with a sign in front. -/
def hasLeadingZero (cs : List Char) : Bool :=
  let (_, ds) := cutSign cs
  1 < ds.length && ds.head? == some '0' && ds.all Char.isDigit

/-- The magnitude of a whole number, in its base. -/
def wholeMagnitude? (cs : List Char) : Option Nat :=
  match cs with
  | '0' :: 'x' :: ds => digits? 16 ds
  | '0' :: 'o' :: ds => digits? 8 ds
  | '0' :: 'b' :: ds => digits? 2 ds
  | ds => digits? 10 ds

/-- The whole number that a plain scalar writes; up to 128 bits. -/
def whole? (cs : List Char) : Option Json.Number :=
  if hasLeadingZero cs then none
  else
    let (negative, digits) := cutSign cs
    match wholeMagnitude? digits with
    | none => none
    | some n =>
      if negative && n != 0 then if n ≤ Nat.pow 2 127 then some (.negative n) else none
      else if n < Nat.pow 2 128 then some (.natural n) else none

/-- The fractional number that a plain scalar writes. -/
def fraction? (cs : List Char) : Option Json.Number :=
  let (negative, magnitude) := cutSign cs
  if hasLeadingZero cs then none
  else if [".inf", ".Inf", ".INF"].contains (String.ofList magnitude) then
    some (.fractional negative (.infinite false))
  else if [".nan", ".NaN", ".NAN"].contains (String.ofList cs) then
    some (.fractional false .nan)
  else
    match fractional? cs with
    | some (s, .finite q) => some (.fractional s (.finite q))
    | _ => none

/-- What a plain scalar is. -/
def plainValue (cs : List Char) : Value :=
  let s := String.ofList cs
  if ["", "~", "null", "Null", "NULL"].contains s then .null
  else if ["true", "True", "TRUE"].contains s then .flag true
  else if ["false", "False", "FALSE"].contains s then .flag false
  else
    match whole? cs, fraction? cs with
    | some n, _ => .number n
    | none, some n => .number n
    | none, none => .text s

/-! ## Folding -/

/-- A text that is put together while it is read. -/
structure Folded where
  /-- The characters so far, in reverse. -/
  seen : List Char
  /-- Spaces and tabs read since then, in reverse. -/
  gap : List Char
  /-- Line ends read since then. -/
  breaks : Nat

namespace Folded

def empty : Folded := ⟨[], [], 0⟩

def blank (f : Folded) (c : Char) : Folded :=
  if c = '\n' then ⟨f.seen, [], f.breaks + 1⟩
  else if f.breaks = 0 then { f with gap := c :: f.gap }
  else f

/-- What stands for the blanks read last, in reverse. -/
def joint (f : Folded) : List Char :=
  match f.breaks with
  | 0 => f.gap
  | 1 => [' ']
  | n + 2 => List.replicate (n + 1) '\n'

/-- Takes in characters that are not folded, in order. -/
def add (f : Folded) (cs : List Char) : Folded := ⟨cs.reverse ++ f.joint ++ f.seen, [], 0⟩

/-- Whether nothing but blanks was read last. -/
def afterBlank (f : Folded) : Bool := !f.gap.isEmpty || 0 < f.breaks

def trimmed (f : Folded) : List Char := f.seen.reverse

def whole (f : Folded) : List Char := (f.joint ++ f.seen).reverse

end Folded

/-! ## Quotes -/

/-- A text in single quotes whose opening quote was read, and what follows. -/
def singleQuoted (f : Folded) : List Char → Option (List Char × List Char)
  | [] => none
  | [c] => if c = '\'' then some (f.whole, []) else none
  | c :: d :: cs =>
    if c = '\'' then
      if d = '\'' then singleQuoted (f.add ['\'']) cs else some (f.whole, d :: cs)
    else if isSpaceOrBreak c then singleQuoted (f.blank c) (d :: cs)
    else singleQuoted (f.add [c]) (d :: cs)

/-- The character behind a backslash and one letter. -/
def escaped? (c : Char) : Option Nat :=
  match c with
  | '0' => some 0
  | 'a' => some 7
  | 'b' => some 8
  | 't' => some 9
  | '\t' => some 9
  | 'n' => some 10
  | 'v' => some 11
  | 'f' => some 12
  | 'r' => some 13
  | 'e' => some 27
  | ' ' => some 32
  | '"' => some 34
  | '/' => some 47
  | '\\' => some 92
  | 'N' => some 0x85
  | '_' => some 0xA0
  | 'L' => some 0x2028
  | 'P' => some 0x2029
  | _ => none

/-- How many hexadecimal digits follow the letter of an escape. -/
def escapeWidth (c : Char) : Nat :=
  if c = 'x' then 2 else if c = 'u' then 4 else if c = 'U' then 8 else 0

def charOf? (n : Nat) : Option Char :=
  if n < 0xD800 || (0xE000 ≤ n && n < 0x110000) then some (Char.ofNat n) else none

/-- The character of an escape behind its backslash, and what follows. -/
def escape? : List Char → Option (Char × List Char)
  | [] => none
  | c :: cs =>
    match escaped? c with
    | some n => some (Char.ofNat n, cs)
    | none =>
      let width := escapeWidth c
      if width = 0 || cs.length < width then none
      else ((digits? 16 (cs.take width)).bind charOf?).map fun x => (x, cs.drop width)

/-- A text in double quotes whose opening quote was read, and what follows; `fuel` bounds its
length.  A backslash at the end of a line joins it to the next without a space. -/
def doubleQuoted : (fuel : Nat) → Folded → List Char → Option (List Char × List Char)
  | 0, _, _ => none
  | _ + 1, _, [] => none
  | fuel + 1, f, c :: cs =>
    if c = '"' then some (f.whole, cs)
    else if c = '\\' then
      match cs with
      | '\n' :: rest =>
        let lines := (rest.takeWhile isSpaceOrBreak).count '\n'
        let f := f.add []
        let f := if lines = 0 then f else f.add (List.replicate lines '\n')
        doubleQuoted fuel f (rest.dropWhile isSpaceOrBreak)
      | cs =>
        match escape? cs with
        | none => none
        | some (x, rest) => doubleQuoted fuel (f.add [x]) rest
    else if isSpaceOrBreak c then doubleQuoted fuel (f.blank c) cs
    else doubleQuoted fuel (f.add [c]) cs

/-- A text in quotes, from its opening quote on, and what follows. -/
def quoted? : List Char → Option (List Char × List Char)
  | '"' :: cs => doubleQuoted (cs.length + 1) .empty cs
  | '\'' :: cs => singleQuoted .empty cs
  | _ => none

end JobHealth.Yaml
