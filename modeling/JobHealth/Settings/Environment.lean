import JobHealth.Number.Numeral
import JobHealth.Settings.Overlay
import JobHealth.Text.Blank
import JobHealth.Text.Lines
/-!
# `JobHealth.Settings.Environment` — settings in environment variables

A variable whose name begins with `FLAKESCAN_`, in letters of either size, sets
what the rest of its name says: `__` goes one section inward, and so does a dot.

| text of the value     | value                                    |
| :-------------------- | :--------------------------------------- |
| `true`, `false`       | a truth value                            |
| a numeral             | a number; fractional only with a point   |
| `"..."`, `'c'`        | a text                                   |
| `[v, v]`, `{k=v, k=v}` | a list, a record                        |
| anything else         | the text itself, without blanks around it |

A text that only begins like one of these is a text as a whole.
-/

namespace JobHealth.Settings

open JobHealth.Json JobHealth.Number

/-- Environment variables, each with its name and its value. -/
abbrev Environment := List (String × String)

/-! ## Values -/

def isValueBlank (c : Char) : Bool :=
  c == ' ' || c == '\t' || c == '\n' || c == '\r' || c.toNat == 12

/-- The text from its first character on that is no blank. -/
def skipBlank (cs : List Char) : List Char := cs.dropWhile isValueBlank

def trimBlank (cs : List Char) : List Char :=
  ((cs.dropWhile Text.isBlank).reverse.dropWhile Text.isBlank).reverse

def separates (c : Char) : Bool := ",\x7b\x7d[]".toList.contains c

/-- Whether a character may stand in a bare name. -/
def inBareName (c : Char) : Bool :=
  c.isDigit || ('a' ≤ c && c ≤ 'z') || ('A' ≤ c && c ≤ 'Z') || c == '_' || c == '-'

/-- The character of an escape behind its backslash, and what follows. -/
def unescape? : List Char → Option (Char × List Char)
  | [] => none
  | c :: cs =>
    let coded := fun (width : Nat) =>
      if cs.length < width then none
      else
        match digits? 16 (cs.take width) with
        | some n =>
          if n < 0xD800 || (0xE000 ≤ n && n < 0x110000) then
            some (Char.ofNat n, cs.drop width)
          else none
        | none => none
    if c = '"' then some ('"', cs)
    else if c = '\\' then some ('\\', cs)
    else if c = 'b' then some (Char.ofNat 8, cs)
    else if c = 'f' then some (Char.ofNat 12, cs)
    else if c = 'n' then some ('\n', cs)
    else if c = 'r' then some ('\r', cs)
    else if c = 't' then some ('\t', cs)
    else if c = 'u' then coded 4
    else if c = 'U' then coded 8
    else none

/-- A text in double quotes whose opening quote was read, and what follows; `fuel` bounds its
length. -/
def quotedText : (fuel : Nat) → List Char → Option (List Char × List Char)
  | 0, _ => none
  | _ + 1, [] => none
  | fuel + 1, c :: cs =>
    if c = '"' then some ([], cs)
    else if c = '\\' then
      match unescape? cs with
      | none => none
      | some (x, rest) => (quotedText fuel rest).map fun (s, rest) => (x :: s, rest)
    else if (c.toNat < 0x20 && c != '\t') || c.toNat == 0x7F then none
    else (quotedText fuel cs).map fun (s, rest) => (c :: s, rest)

/-- The whole number of a numeral that fits a 64-bit word. -/
def wholeNumber? (cs : List Char) : Option Json.Number :=
  let (negative, ds) := cutSign cs
  match digits? 10 ds with
  | none => none
  | some n =>
    if negative && n != 0 then if n ≤ Nat.pow 2 63 then some (.negative n) else none
    else if negative || n < Nat.pow 2 64 then some (.natural n)
    else none

def bareValue (cs : List Char) : Value :=
  let fraction? := if cs.contains '.' then fractional? cs else none
  match fraction?, wholeNumber? cs with
  | some (s, m), _ => .number (.fractional s m)
  | none, some n => .number n
  | none, none => .text (String.ofList cs)

def memberName? (cs : List Char) : Option (List Char × List Char) :=
  match cs with
  | '"' :: rest => quotedText (rest.length + 1) rest
  | cs =>
    let name := cs.takeWhile inBareName
    if name.isEmpty then none else some (name, cs.dropWhile inBareName)

mutual

/-- A value without the blanks around it, and what follows; `fuel` bounds the number of parts. -/
def readPart : (fuel : Nat) → List Char → Option (Value × List Char)
  | 0, _ => none
  | fuel + 1, cs =>
    let cs := skipBlank cs
    let found : Option (Value × List Char) :=
      match Text.after? "true".toList cs, Text.after? "false".toList cs with
      | some rest, _ => some (.flag true, rest)
      | none, some rest => some (.flag false, rest)
      | none, none =>
        match cs with
        | '\x7b' :: rest => (readParts fuel rest).map fun (ms, rest) => (.record ms, rest)
        | '[' :: rest => (readList fuel rest).map fun (vs, rest) => (.list vs, rest)
        | '"' :: rest =>
          (quotedText (rest.length + 1) rest).map fun (s, rest) => (.text (String.ofList s), rest)
        | '\'' :: c :: '\'' :: rest => some (.text (String.ofList [c]), rest)
        | '\'' :: _ => none
        | cs =>
          let bare := cs.takeWhile fun c => !separates c
          some (bareValue (trimBlank bare), cs.dropWhile fun c => !separates c)
    found.map fun (v, rest) => (v, skipBlank rest)

/-- The items of a list up to its closing bracket. -/
def readList : (fuel : Nat) → List Char → Option (List Value × List Char)
  | 0, _ => none
  | fuel + 1, cs =>
    match cs with
    | ']' :: rest => some ([], rest)
    | cs =>
      match readPart fuel cs with
      | none => none
      | some (v, ',' :: rest) => (readList fuel rest).map fun (vs, rest) => (v :: vs, rest)
      | some (v, ']' :: rest) => some ([v], rest)
      | some _ => none

/-- The members of a record up to its closing brace. -/
def readParts : (fuel : Nat) → List Char → Option (List (String × Value) × List Char)
  | 0, _ => none
  | fuel + 1, cs =>
    match cs with
    | '\x7d' :: rest => some ([], rest)
    | cs =>
      match memberName? (skipBlank cs) with
      | none => none
      | some (name, rest) =>
        match skipBlank rest with
        | '=' :: rest =>
          match readPart fuel rest with
          | none => none
          | some (v, ',' :: rest) =>
            (readParts fuel rest).map fun (ms, rest) => ((String.ofList name, v) :: ms, rest)
          | some (v, '\x7d' :: rest) => some ([(String.ofList name, v)], rest)
          | some _ => none
        | _ => none

end

def valueOf (text : String) : Value :=
  let cs := text.toList
  match readPart (2 * cs.length + 2) cs with
  | some (v, []) => v
  | _ => .text (String.ofList (trimBlank cs))

/-! ## Names -/

/-- What the names of variables that hold settings begin with, in small letters. -/
def environmentMark : List Char := "flakescan_".toList

def smallLetter (c : Char) : Char :=
  if 'A' ≤ c && c ≤ 'Z' then Char.ofNat (c.toNat + 32) else c

/-- A text with a dot for each pair of underscores. -/
def dotted : List Char → List Char
  | '_' :: '_' :: cs => '.' :: dotted cs
  | c :: cs => c :: dotted cs
  | [] => []

/-- The way to what a variable sets, if it holds a setting. -/
def keyOf? (name : String) : Option (List String) :=
  let small := (trimBlank name.toList).map smallLetter
  match Text.after? environmentMark small with
  | none => none
  | some rest =>
    let parts := Text.pieces '.' (trimBlank (dotted rest))
    if parts.any List.isEmpty then none else some (parts.map String.ofList)

/-- A value inside the records on the way to it. -/
def nested (v : Value) : (path : List String) → Value
  | [] => v
  | name :: path => .record [(name, nested v path)]

/-- The settings of an environment: one layer, laid together in the order of the variables'
names. -/
def environmentLayer (env : Environment) : Value :=
  let ordered := env.mergeSort fun a b => !(b.1 < a.1)
  overlayAll (ordered.filterMap fun (name, text) => (keyOf? name).map (nested (valueOf text)))

end JobHealth.Settings
