import JobHealth.Yaml.Flow
/-!
# `JobHealth.Yaml.Document` — settings written in YAML

A document is read line by line.  The indentation of a line says what it belongs
to: members of one record and items of one list begin in the same column, and
what belongs to a member or an item begins further to the right.  Only a list
may stand in the column of the member that it belongs to.

Of YAML this reads one document, with or without `---` in front, of records,
lists, values in brackets, and plain and quoted scalars.  Anchors, tags,
directives, explicit keys and block scalars are refused, as is anything
malformed.
-/

namespace JobHealth.Yaml

open JobHealth.Json

/-- A line of a document. -/
abbrev Line := List Char

def indentOf (line : Line) : Nat := (line.takeWhile (· == ' ')).length

/-- A line without the spaces in front of it. -/
def bodyOf (line : Line) : Line := line.dropWhile (· == ' ')

/-- Whether a text is nothing but blanks and a comment. -/
def isIdle (cs : List Char) : Bool :=
  match skipGap cs with
  | [] => true
  | c :: _ => c == '#'

/-- The lines from the first one on that holds more than a comment. -/
def skipIdle (lines : List Line) : List Line := lines.dropWhile isIdle

/-- Whether a body begins an item of a list. -/
def isItem : Line → Bool
  | '-' :: rest => atBlank rest
  | _ => false

/-! ## Names of members -/

/-- A plain scalar on one line up to a colon with a blank behind it, and what stands behind the
colon; nothing if the line has no such colon before its end or a comment. -/
def plainName? (f : Folded) : List Char → Option (List Char × List Char)
  | [] => none
  | c :: cs =>
    if isGap c then plainName? (f.blank c) cs
    else if c = '#' && f.afterBlank then none
    else if c = ':' && atBlank cs then some (f.trimmed, cs)
    else plainName? (f.add [c]) cs

/-- The name of a member that a body begins with, and what stands behind its colon. -/
def name? : Line → Option (String × List Char)
  | [] => none
  | c :: cs =>
    if c = '"' || c = '\'' then
      match quoted? (c :: cs) with
      | none => none
      | some (s, rest) =>
        match skipGap rest with
        | ':' :: rest => if atBlank rest then some (String.ofList s, rest) else none
        | _ => none
    else if startsPlain false c cs then
      (plainName? .empty (c :: cs)).map fun (s, rest) => (String.ofList s, rest)
    else none

/-! ## Values on a line -/

/-- A plain scalar as far as it stands on one line, taken up behind `f`, and whether a comment
follows; nothing if a colon makes it a name. -/
def plainLine (f : Folded) : List Char → Option (Folded × Bool)
  | [] => some (f, false)
  | c :: cs =>
    if isGap c then plainLine (f.blank c) cs
    else if c = '#' && f.afterBlank then some (f, true)
    else if c = ':' && atBlank cs then none
    else plainLine (f.add [c]) cs

/-- A plain scalar taken up on the lines from column `least` on. -/
def plainLines (least : Nat) (f : Folded) : List Line → Option (List Char × List Line)
  | [] => some (f.trimmed, [])
  | line :: lines =>
    if (skipGap line).isEmpty then plainLines least (f.blank '\n') lines
    else if indentOf line < least || isIdle line then some (f.trimmed, line :: lines)
    else
      match plainLine (f.blank '\n') (skipGap line) with
      | none => none
      | some (f, true) => some (f.trimmed, lines)
      | some (f, false) => plainLines least f lines

/-- The lines behind a value that ended inside a line: the rest of that line has to be idle. -/
def linesBehind? (rest : List Char) : Option (List Line) :=
  match Text.pieces '\n' rest with
  | [] => some []
  | line :: lines => if isIdle line then some lines else none

/-- A value that begins on a line and may go on over the following lines from column `least` on. -/
def lineValue (least : Nat) (cs : List Char) (lines : List Line) : Option (Value × List Line) :=
  match skipGap cs with
  | [] => none
  | c :: rest =>
    let all := Text.join '\n' ((c :: rest) :: lines)
    if c = '"' || c = '\'' then
      match quoted? all with
      | none => none
      | some (s, rest) => (linesBehind? rest).map fun lines => (.text (String.ofList s), lines)
    else if c = '[' || c = '\x7b' then
      match flow? all with
      | none => none
      | some (v, rest) => (linesBehind? rest).map fun lines => (v, lines)
    else if startsPlain false c rest then
      match plainLine .empty (c :: rest) with
      | none => none
      | some (f, true) => some (plainValue f.trimmed, lines)
      | some (f, false) => (plainLines least f lines).map fun (s, lines) => (plainValue s, lines)
    else none

/-! ## Blocks -/

mutual

/-- A value whose first line stands in column `least` or further right; `fuel` bounds the number
of its parts. -/
def block : (fuel : Nat) → (least : Nat) → List Line → Option (Value × List Line)
  | 0, _, _ => none
  | fuel + 1, least, lines =>
    match skipIdle lines with
    | [] => none
    | line :: lines =>
      let body := bodyOf line
      if isItem body then
        (blockItems fuel (indentOf line) (line :: lines)).map fun (vs, rest) => (.list vs, rest)
      else if (name? body).isSome then
        (blockMembers fuel (indentOf line) (line :: lines)).map fun (ms, rest) =>
          (.record ms, rest)
      else if body.head? == some '\t' then none
      else lineValue least body lines

/-- The members of a record in column `column`. -/
def blockMembers : (fuel : Nat) → (column : Nat) → List Line →
    Option (List (String × Value) × List Line)
  | 0, _, _ => none
  | fuel + 1, column, lines =>
    match skipIdle lines with
    | [] => some ([], [])
    | line :: lines =>
      if indentOf line < column then some ([], line :: lines)
      else if column < indentOf line then none
      else
        match name? (bodyOf line) with
        | none => none
        | some (name, cs) =>
          match memberValue fuel column cs lines with
          | none => none
          | some (v, lines) =>
            (blockMembers fuel column lines).map fun (ms, rest) => ((name, v) :: ms, rest)

/-- The value of a member in column `column`: behind its colon, on the lines below, or none. -/
def memberValue : (fuel : Nat) → (column : Nat) → List Char → List Line →
    Option (Value × List Line)
  | 0, _, _, _ => none
  | fuel + 1, column, cs, lines =>
    if isIdle cs then
      match skipIdle lines with
      | [] => some (.null, [])
      | line :: lines =>
        if column < indentOf line then block fuel (column + 1) (line :: lines)
        else if column = indentOf line && isItem (bodyOf line) then
          (blockItems fuel column (line :: lines)).map fun (vs, rest) => (.list vs, rest)
        else some (.null, line :: lines)
    else lineValue (column + 1) cs lines

/-- The items of a list in column `column`. -/
def blockItems : (fuel : Nat) → (column : Nat) → List Line → Option (List Value × List Line)
  | 0, _, _ => none
  | fuel + 1, column, lines =>
    match skipIdle lines with
    | [] => some ([], [])
    | line :: lines =>
      if indentOf line = column && isItem (bodyOf line) then
        match itemValue fuel column (bodyOf line).tail lines with
        | none => none
        | some (v, lines) =>
          (blockItems fuel column lines).map fun (vs, rest) => (v :: vs, rest)
      else if column < indentOf line then none
      else some ([], line :: lines)

/-- The value of an item whose dash stands in column `column`: behind the dash, on the lines below,
or none.  What stands behind the dash is read as a line of its own. -/
def itemValue : (fuel : Nat) → (column : Nat) → List Char → List Line → Option (Value × List Line)
  | 0, _, _, _ => none
  | fuel + 1, column, cs, lines =>
    if isIdle cs then
      match skipIdle lines with
      | [] => some (.null, [])
      | line :: lines =>
        if column < indentOf line then block fuel (column + 1) (line :: lines)
        else some (.null, line :: lines)
    else block fuel (column + 1) ((List.replicate (column + 1) ' ' ++ cs) :: lines)

end

/-! ## The document -/

/-- Whether a line marks the start of a document. -/
def isStart (line : Line) : Bool :=
  "---".toList.isPrefixOf line && atBlank (line.drop 3)

/-- Whether a line marks the end of a document. -/
def isEnd (line : Line) : Bool :=
  "...".toList.isPrefixOf line && atBlank (line.drop 3)

/-- A text with every kind of line end written as a line feed. -/
def plainBreaks : List Char → List Char
  | [] => []
  | '\r' :: '\n' :: cs => '\n' :: plainBreaks cs
  | c :: cs => (if c = '\r' then '\n' else c) :: plainBreaks cs

/-- Whether a character may stand in a document. -/
def isAllowed (c : Char) : Bool :=
  let n := c.toNat
  n == 9 || n == 10 || (0x20 ≤ n && n ≤ 0x7E) || n == 0x85 ||
    (0xA0 ≤ n && n != 0xFEFF && n != 0xFFFE && n != 0xFFFF)

/-- The value of the lines of one document, if it has content; `inline` is what stands behind its
start mark. -/
def documentValue (inline : List Char) (lines : List Line) : Option (Option Value) :=
  let whole := fun (v : Value) (rest : List Line) =>
    if (skipIdle rest).isEmpty then some (some v) else none
  if isIdle inline then
    match skipIdle lines with
    | [] => some none
    | lines =>
      match block (4 * (Text.join '\n' lines).length + 4) 0 lines with
      | none => none
      | some (v, rest) => whole v rest
  else
    match lineValue 0 inline lines with
    | none => none
    | some (v, rest) => whole v rest

/-- The value of a text that holds one document, or none if the document is empty.  A text that is
no such document is refused. -/
def read? (text : List Char) : Option (Option Value) :=
  let text := match text with
    | c :: cs => if c.toNat = 0xFEFF then cs else c :: cs
    | [] => []
  if !text.all fun c => c == '\r' || isAllowed c then none
  else
    let lines := skipIdle (Text.pieces '\n' (plainBreaks text))
    let (inline, lines) := match lines with
      | line :: rest => if isStart line then (line.drop 3, rest) else ([], line :: rest)
      | [] => ([], [])
    let content := lines.takeWhile fun l => !isStart l && !isEnd l
    let behind := lines.dropWhile fun l => !isStart l && !isEnd l
    if (content.head?.getD []).head? == some '%' then none
    else if (skipIdle (behind.dropWhile isEnd)).isEmpty then documentValue inline content
    else none

end JobHealth.Yaml
