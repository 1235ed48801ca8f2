import JobHealth.Json.Fault
import JobHealth.Json.Scan
/-!
# `JobHealth.Json.Read` — JSON text read for what it should be

A text is read from left to right for a given shape, and the first thing that
does not fit ends the reading.  So of two faults the earlier one is reported,
and what follows a fault may be anything.

* `readText`, `readWord64`, `readUnit` ask for one kind of value.
* `readValue` takes any value, with a bound on how deep lists and records nest.
* `skipValue` passes over a value that nobody asked for: it has to be JSON, but
  may nest to any depth, hold numbers out of range and half surrogate pairs.
* `readRecord` takes a record with known fields, or a list of these fields'
  values in order.
-/

namespace JobHealth.Json

/-- Reads something at the front of a text and gives the rest. -/
abbrev Reader (α : Type) := List Char → Except Fault (α × List Char)

/-- The rest of the text after the given letters, which have to come next. -/
def expectLetters (letters : List Char) (cs : List Char) : Except Fault (List Char) :=
  if letters.isPrefixOf cs then .ok (cs.drop letters.length) else .error .malformed

/-- The numeral at the front of the text, as a number. -/
def readNumber : Reader Number := fun cs =>
  match scanNumeral cs with
  | none => .error .malformed
  | some (numeral, rest) =>
    match numeral.toNumber? with
    | none => .error .malformed
    | some n => .ok (n, rest)

/-- Whether a numeral begins with this character. -/
def startsNumeral (c : Char) : Bool := c == '-' || c.isDigit

/-- The fault of a value that stands where something else was expected.  Only words, numerals and
strings are read to their end for it. -/
def mismatch (expected : String) (cs : List Char) : Fault :=
  let wrong (r : Except Fault Found) : Fault := match r with
    | .ok found => .invalidType found expected
    | .error e => e
  match cs with
  | [] => .malformed
  | c :: rest =>
    if c = 'n' then wrong ((expectLetters ['u', 'l', 'l'] rest).map fun _ => .null)
    else if c = 't' then wrong ((expectLetters ['r', 'u', 'e'] rest).map fun _ => .flag true)
    else if c = 'f' then wrong ((expectLetters ['a', 'l', 's', 'e'] rest).map fun _ => .flag false)
    else if startsNumeral c then wrong ((readNumber (c :: rest)).map fun (n, _) => .number n)
    else if c = '"' then
      match scanString rest with
      | none => .malformed
      | some (s, _) => wrong (.ok (.text (String.ofList s)))
    else if c = '[' then wrong (.ok .sequence)
    else if c = '\x7b' then wrong (.ok .record)
    else .malformed

/-- A string; `expected` says what it stands for. -/
def readTextAs (expected : String) : Reader String := fun cs =>
  match skipGap cs with
  | '"' :: rest =>
    match scanString rest with
    | none => .error .malformed
    | some (s, rest) => .ok (String.ofList s, rest)
  | cs => .error (mismatch expected cs)

def readText : Reader String := readTextAs "a string"

/-- A whole number that fits an unsigned 64-bit word. -/
def readWord64 : Reader UInt64 := fun cs =>
  match skipGap cs with
  | [] => .error .malformed
  | c :: rest =>
    if startsNumeral c then do
      let (n, rest) ← readNumber (c :: rest)
      match n with
      | .natural n => .ok (UInt64.ofNat n, rest)
      | .negative _ => .error (.invalidValue (.number n) "u64")
      | .fractional _ _ => .error (.invalidType (.number n) "u64")
    else .error (mismatch "u64" (c :: rest))

def readUnit : Reader Unit := fun cs =>
  match skipGap cs with
  | 'n' :: rest => (expectLetters ['u', 'l', 'l'] rest).map fun rest => ((), rest)
  | cs => .error (mismatch "unit" cs)

/-- The given character after any gap. -/
def readMark (mark : Char) (cs : List Char) : Except Fault (List Char) :=
  match skipGap cs with
  | [] => .error .malformed
  | c :: rest => if c = mark then .ok rest else .error .malformed

/-- A member's name and the colon behind it. -/
def readName : Reader String := fun cs => do
  let rest ← readMark '"' cs
  match scanString rest with
  | none => .error .malformed
  | some (s, rest) => .ok (String.ofList s, rest)

/-! ## Any value -/

/-- Items from one on, with commas between them, up to the closing bracket; `fuel` bounds their
number. -/
def readItems (close : Char) (item : Reader α) : Nat → Reader (List α)
  | 0 => fun _ => .error .malformed
  | fuel + 1 => fun cs => do
    let (v, rest) ← item cs
    match skipGap rest with
    | [] => .error .malformed
    | c :: rest =>
      if c = ',' then do
        let (vs, rest) ← readItems close item fuel rest
        return (v :: vs, rest)
      else if c = close then .ok ([v], rest)
      else .error .malformed

/-- Any number of items up to the closing bracket. -/
def readBody (close : Char) (item : Reader α) : Reader (List α) := fun cs =>
  match skipGap cs with
  | [] => .error .malformed
  | c :: rest =>
    if c = close then .ok ([], rest) else readItems close item (c :: rest).length (c :: rest)

/-- A member of a record: its name and its value. -/
def readMember (value : Reader α) : Reader (String × α) := fun cs => do
  let (name, rest) ← readName cs
  let rest ← readMark ':' rest
  let (v, rest) ← value rest
  return ((name, v), rest)

/-- Any value whose items, if it has some, are read by `inner`; without one it may not have any
brackets at all. -/
def readLevel (inner : Option (Reader Value)) : Reader Value := fun cs =>
  match skipGap cs with
  | [] => .error .malformed
  | c :: rest =>
    if c = 'n' then (expectLetters ['u', 'l', 'l'] rest).map fun rest => (.null, rest)
    else if c = 't' then (expectLetters ['r', 'u', 'e'] rest).map fun rest => (.flag true, rest)
    else if c = 'f' then
      (expectLetters ['a', 'l', 's', 'e'] rest).map fun rest => (.flag false, rest)
    else if startsNumeral c then (readNumber (c :: rest)).map fun (n, rest) => (.number n, rest)
    else if c = '"' then
      match scanString rest with
      | none => .error .malformed
      | some (s, rest) => .ok (.text (String.ofList s), rest)
    else if c = '[' then
      match inner with
      | none => .error .malformed
      | some item => (readBody ']' item rest).map fun (vs, rest) => (.list vs, rest)
    else if c = '\x7b' then
      match inner with
      | none => .error .malformed
      | some item =>
        (readBody '\x7d' (readMember item) rest).map fun (ms, rest) => (.record ms, rest)
    else .error .malformed

/-- Any value in which at most `depth` lists and records are open at once. -/
def readValue : (depth : Nat) → Reader Value
  | 0 => readLevel none
  | depth + 1 => readLevel (some (readValue depth))

/-! ## Values nobody asked for -/

/-- What is open around the place of a skip. -/
inductive Frame where
  | list
  | record
  deriving DecidableEq, Repr

/-- Where a skip stands. -/
inductive Spot where
  /-- A value comes next. -/
  | value
  /-- A member's name comes next. -/
  | name
  /-- A value just ended. -/
  | after
  deriving DecidableEq, Repr

def Frame.close : Frame → Char
  | .list => ']'
  | .record => '\x7d'

/-- What comes first inside a frame and behind each of its commas. -/
def Frame.inside : Frame → Spot
  | .list => .value
  | .record => .name

/-- The step into a frame whose opening bracket was read; an empty one is left at once. -/
def skipOpen (frame : Frame) (frames : List Frame) (cs : List Char) :
    Option (Spot × List Frame × List Char) :=
  match skipGap cs with
  | [] => none
  | c :: rest =>
    if c = frame.close then some (.after, frames, rest)
    else some (frame.inside, frame :: frames, c :: rest)

/-- One step of a skip: from a spot inside the given frames to the next one.  Nothing if what comes
next does not fit there. -/
def skipStep : Spot → List Frame → List Char → Option (Spot × List Frame × List Char)
  | .after, [], _ => none
  | .after, frame :: frames, cs =>
    match skipGap cs with
    | [] => none
    | c :: rest =>
      if c = ',' then some (frame.inside, frame :: frames, rest)
      else if c = frame.close then some (.after, frames, rest)
      else none
  | .name, frames, cs =>
    match skipGap cs with
    | '"' :: rest =>
      match skipString rest with
      | none => none
      | some rest =>
        match skipGap rest with
        | ':' :: rest => some (.value, frames, rest)
        | _ => none
    | _ => none
  | .value, frames, cs =>
    match skipGap cs with
    | [] => none
    | c :: rest =>
      if c = 'n' then
        (expectLetters ['u', 'l', 'l'] rest).toOption.map fun rest => (.after, frames, rest)
      else if c = 't' then
        (expectLetters ['r', 'u', 'e'] rest).toOption.map fun rest => (.after, frames, rest)
      else if c = 'f' then
        (expectLetters ['a', 'l', 's', 'e'] rest).toOption.map fun rest => (.after, frames, rest)
      else if startsNumeral c then (scanNumeral (c :: rest)).map fun (_, rest) => (.after, frames, rest)
      else if c = '"' then (skipString rest).map fun rest => (.after, frames, rest)
      else if c = '[' then skipOpen .list frames rest
      else if c = '\x7b' then skipOpen .record frames rest
      else none

/-- Skips to the end of the outermost value, from a spot inside the given frames.  Each step takes
at least one character, so the text's length is fuel enough. -/
def skipFrom : (fuel : Nat) → Spot → List Frame → List Char → Option (List Char)
  | _, .after, [], cs => some cs
  | 0, _, _, _ => none
  | fuel + 1, spot, frames, cs =>
    match skipStep spot frames cs with
    | none => none
    | some (spot, frames, rest) => skipFrom fuel spot frames rest

/-- The text after a value that nobody asked for. -/
def skipValue (cs : List Char) : Except Fault (List Char) :=
  match skipFrom cs.length .value [] cs with
  | none => .error .malformed
  | some rest => .ok rest

/-! ## Records with known fields -/

inductive Kind where
  | text
  | word64
  /-- Any value, with at most so many lists and records open at once. -/
  | free (depth : Nat)
  deriving DecidableEq, Repr

inductive Field where
  | text (s : String)
  | word64 (n : UInt64)
  | free (v : Value)
  deriving Repr

def Kind.read : Kind → Reader Field
  | .text => fun cs => (readText cs).map fun (s, rest) => (.text s, rest)
  | .word64 => fun cs => (readWord64 cs).map fun (n, rest) => (.word64 n, rest)
  | .free depth => fun cs => (readValue depth cs).map fun (v, rest) => (.free v, rest)

/-- A field of a shape; `fallback` stands in for a value that is absent. -/
structure FieldShape where
  name : String
  kind : Kind
  fallback : Option Field := none

structure Shape where
  name : String
  fields : List FieldShape

abbrev Fields := List (String × Field)

def Shape.field? (shape : Shape) (name : String) : Option FieldShape :=
  shape.fields.find? fun f => f.name == name

/-- How many values a list of the shape's fields has, in words. -/
def Shape.expectedLength (shape : Shape) : String :=
  let n := shape.fields.length
  "struct " ++ shape.name ++ " with " ++ n.repr ++ (if n = 1 then " element" else " elements")

/-- The rest of a member whose name was read: a known field joins those in `seen`, the value of any
other member is passed over. -/
def readNamed (shape : Shape) (seen : Fields) (name : String) : Reader Fields := fun cs =>
  match shape.field? name with
  | none => do
    let rest ← readMark ':' cs
    let rest ← skipValue rest
    return (seen, rest)
  | some f =>
    if (seen.lookup name).isSome then .error (.duplicateField name)
    else do
      let rest ← readMark ':' cs
      let (v, rest) ← f.kind.read rest
      return (seen ++ [(name, v)], rest)

/-- The members of a record of the shape up to the closing brace.  `first` says that none was read
yet, `seen` holds the known fields so far, and `fuel` bounds the number of members. -/
def readFields (shape : Shape) : (fuel : Nat) → (first : Bool) → (seen : Fields) → Reader Fields
  | 0, _, _ => fun _ => .error .malformed
  | fuel + 1, first, seen => fun cs =>
    match skipGap cs with
    | [] => .error .malformed
    | c :: rest =>
      if c = '\x7d' then .ok (seen, rest)
      else if !first && c != ',' then .error .malformed
      else do
        let (name, rest) ← readName (if first then c :: rest else rest)
        let (seen, rest) ← readNamed shape seen name rest
        readFields shape fuel false seen rest

/-- The fields in order, with the fallbacks of those that were not read. -/
def complete (seen : Fields) : List FieldShape → Except Fault Fields
  | [] => .ok []
  | f :: fs => do
    let v ← match seen.lookup f.name with
      | some v => .ok v
      | none =>
        match f.fallback with
        | some v => .ok v
        | none => .error (.missingField f.name)
    let vs ← complete seen fs
    return ((f.name, v) :: vs)

/-- The values of a list of the shape's fields up to the closing bracket; `done` were read
before. -/
def readSlots (shape : Shape) : (done : Nat) → List FieldShape → Reader Fields
  | _, [] => fun cs => do
    let rest ← readMark ']' cs
    return ([], rest)
  | done, f :: fs => fun cs =>
    match skipGap cs with
    | [] => .error .malformed
    | c :: rest =>
      if c = ']' then
        if (f :: fs).all fun f => f.fallback.isSome then do
          let vs ← complete [] (f :: fs)
          return (vs, rest)
        else
          let absent := (f :: fs).takeWhile fun f => f.fallback.isSome
          .error (.invalidLength (done + absent.length) shape.expectedLength)
      else if 0 < done && c != ',' then .error .malformed
      else do
        let rest := if 0 < done then skipGap rest else c :: rest
        if rest.head? == some ']' then .error .malformed
        else
          let (v, rest) ← f.kind.read rest
          let (vs, rest) ← readSlots shape (done + 1) fs rest
          return ((f.name, v) :: vs, rest)

/-- A record of the shape, given as a record or as a list of its fields' values. -/
def readRecord (shape : Shape) : Reader Fields := fun cs =>
  match skipGap cs with
  | '\x7b' :: rest => do
    let (seen, rest) ← readFields shape (rest.length + 1) true [] rest
    let vs ← complete seen shape.fields
    return (vs, rest)
  | '[' :: rest => readSlots shape 0 shape.fields rest
  | cs => .error (mismatch ("struct " ++ shape.name) cs)

/-- One of the given words, as a string or as a record that maps the word to `null`. -/
def readWordOf (allowed : List String) : Reader String := fun cs =>
  let known (word : String) : Except Fault Unit :=
    if allowed.contains word then .ok () else .error (.unknownVariant word allowed)
  match skipGap cs with
  | '"' :: _ => do
    let (word, rest) ← readText cs
    known word
    return (word, rest)
  | '\x7b' :: rest => do
    let (word, rest) ← readTextAs "variant identifier" rest
    known word
    let rest ← readMark ':' rest
    let (_, rest) ← readUnit rest
    let rest ← readMark '\x7d' rest
    return (word, rest)
  | _ => .error .malformed

def readListOf (item : Reader α) : Reader (List α) := fun cs =>
  match skipGap cs with
  | '[' :: rest => readBody ']' item rest
  | cs => .error (mismatch "a sequence" cs)

/-- Reads a whole text: nothing but gaps may follow. -/
def readAll (reader : Reader α) (text : String) : Except Fault α := do
  let (v, rest) ← reader text.toList
  if (skipGap rest).isEmpty then .ok v else .error .malformed

def Fields.text (fields : Fields) (name : String) : String :=
  match fields.lookup name with
  | some (.text s) => s
  | _ => ""

def Fields.word64 (fields : Fields) (name : String) : UInt64 :=
  match fields.lookup name with
  | some (.word64 n) => n
  | _ => 0

def Fields.free (fields : Fields) (name : String) : Value :=
  match fields.lookup name with
  | some (.free v) => v
  | _ => .null

end JobHealth.Json
