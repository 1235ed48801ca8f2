import JobHealth.Yaml.Scalar
/-!
# `JobHealth.Yaml.Flow` — lists and records in brackets

Inside brackets line ends mean no more than spaces, and a comment runs from a
`#` to the end of its line.  A plain scalar ends at a comma, at a bracket, at a
colon with a blank behind it, and at a comment.

A member without a colon has no value.  A list may hold a single member without
braces, which is a record of its own.
-/

namespace JobHealth.Yaml

open JobHealth.Json

/-- The text from its first character on that is no blank, line end or comment. -/
def skipFlowGap : List Char → List Char
  | [] => []
  | c :: cs =>
    if isSpaceOrBreak c then skipFlowGap cs
    else if c = '#' then skipComment cs
    else c :: cs
where
  /-- The same behind a `#`. -/
  skipComment : List Char → List Char
    | [] => []
    | c :: cs => if c = '\n' then skipFlowGap cs else skipComment cs

/-- Whether a character may begin a plain scalar; `next` follows it. -/
def startsPlain (inFlow : Bool) (c : Char) (next : List Char) : Bool :=
  if c = '-' then !atBlank next
  else if c = '?' || c = ':' then !inFlow && !atBlank next
  else !(isSpaceOrBreak c || ",[]\x7b\x7d#&*!|>'\"%@`".toList.contains c)

/-- Whether a character ends a plain scalar inside brackets. -/
def endsFlowPlain (c : Char) : Bool := ",[]\x7b\x7d".toList.contains c

/-- A plain scalar inside brackets, and what follows. -/
def flowPlain (f : Folded) : List Char → Option (List Char × List Char)
  | [] => some (f.trimmed, [])
  | c :: cs =>
    if isSpaceOrBreak c then flowPlain (f.blank c) cs
    else if c = '#' && f.afterBlank then some (f.trimmed, c :: cs)
    else if endsFlowPlain c then some (f.trimmed, c :: cs)
    else if c = ':' then
      match cs with
      | [] => some (f.trimmed, c :: cs)
      | d :: _ =>
        if isSpaceOrBreak d then some (f.trimmed, c :: cs)
        else if endsFlowPlain d || d = '?' then none
        else flowPlain (f.add [c]) cs
    else flowPlain (f.add [c]) cs

/-- A scalar inside brackets: its text, whether it is plain, and what follows. -/
def flowScalar : List Char → Option (List Char × Bool × List Char)
  | [] => none
  | c :: cs =>
    if c = '"' || c = '\'' then (quoted? (c :: cs)).map fun (s, rest) => (s, false, rest)
    else if startsPlain true c cs then
      (flowPlain .empty (c :: cs)).map fun (s, rest) => (s, true, rest)
    else none

def scalarValue (plain : Bool) (cs : List Char) : Value :=
  if plain then plainValue cs else .text (String.ofList cs)

/-- Whether no value stands in front of this text. -/
def endsFlowValue (cs : List Char) : Bool :=
  match cs with
  | [] => true
  | c :: _ => c == ',' || c == ']' || c == '\x7d'

mutual

/-- A value inside brackets, and what follows; `fuel` bounds the number of parts. -/
def flowValue : (fuel : Nat) → List Char → Option (Value × List Char)
  | 0, _ => none
  | fuel + 1, cs =>
    match cs with
    | '[' :: rest => (flowItems fuel (skipFlowGap rest)).map fun (vs, rest) => (.list vs, rest)
    | '\x7b' :: rest =>
      (flowMembers fuel (skipFlowGap rest)).map fun (ms, rest) => (.record ms, rest)
    | cs =>
      match flowScalar cs with
      | none => none
      | some (s, plain, rest) => some (scalarValue plain s, rest)

/-- The items of a list up to its closing bracket. -/
def flowItems : (fuel : Nat) → List Char → Option (List Value × List Char)
  | 0, _ => none
  | fuel + 1, cs =>
    match cs with
    | ']' :: rest => some ([], rest)
    | cs =>
      match flowItem fuel cs with
      | none => none
      | some (v, rest) =>
        match skipFlowGap rest with
        | ',' :: rest =>
          (flowItems fuel (skipFlowGap rest)).map fun (vs, rest) => (v :: vs, rest)
        | ']' :: rest => some ([v], rest)
        | _ => none

/-- One item of a list; a scalar with a colon behind it is a record of one member. -/
def flowItem : (fuel : Nat) → List Char → Option (Value × List Char)
  | 0, _ => none
  | fuel + 1, cs =>
    match flowScalar cs with
    | none => flowValue fuel cs
    | some (s, plain, rest) =>
      match skipFlowGap rest with
      | ':' :: _ =>
        (flowRest fuel (skipFlowGap rest)).map fun (v, rest) =>
          (.record [(String.ofList s, v)], rest)
      | _ => some (scalarValue plain s, rest)

/-- The members of a record up to its closing brace. -/
def flowMembers : (fuel : Nat) → List Char → Option (List (String × Value) × List Char)
  | 0, _ => none
  | fuel + 1, cs =>
    match cs with
    | '\x7d' :: rest => some ([], rest)
    | cs =>
      match flowScalar cs with
      | none => none
      | some (s, _, rest) =>
        match flowRest fuel (skipFlowGap rest) with
        | none => none
        | some (v, rest) =>
          match skipFlowGap rest with
          | ',' :: rest =>
            (flowMembers fuel (skipFlowGap rest)).map fun (ms, rest) =>
              ((String.ofList s, v) :: ms, rest)
          | '\x7d' :: rest => some ([(String.ofList s, v)], rest)
          | _ => none

/-- The value behind a member's name, if there is one. -/
def flowRest : (fuel : Nat) → List Char → Option (Value × List Char)
  | 0, _ => none
  | fuel + 1, cs =>
    match cs with
    | ':' :: rest =>
      let rest := skipFlowGap rest
      if endsFlowValue rest then some (.null, rest) else flowValue fuel rest
    | cs => some (.null, cs)

end

/-- A list or record in brackets, and what follows. -/
def flow? (cs : List Char) : Option (Value × List Char) := flowValue (4 * cs.length + 4) cs

end JobHealth.Yaml
