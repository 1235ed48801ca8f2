import JobHealth.Text.Utf8
/-!
# `JobHealth.Json.Bytes` — the text of JSON that comes as bytes

Only a string that is read has to be UTF-8.  One that is passed over may hold any
byte from `0x80` on, though not as the letter of an escape.  So bytes become a
text for the readers of JSON with a mark in the place of each byte that begins no
character:

| place of the byte       | mark                             | string passed over | string read |
| :---------------------- | :------------------------------- | :----------------- | :---------- |
| behind an open backslash | a control                        | refused            | refused     |
| elsewhere               | the first half of a pair, twice  | passed over        | refused     |

Outside of strings neither mark can stand.
-/

namespace JobHealth.Json

open JobHealth.Text

/-- The character at the front of bytes, and the bytes behind it. -/
def frontChar? (bs : List UInt8) : Option (Char × List UInt8) :=
  [1, 2, 3, 4].findSome? fun n =>
    match Utf8.decode (bs.take n) with
    | .ok [c] => some (c, bs.drop n)
    | _ => none

/-- What stands for a byte that begins no character; `escaping` says that a backslash is open.  The
half is there twice, so that it completes no pair and is completed to none. -/
def strayMark (escaping : Bool) : List Char :=
  if escaping then [Char.ofNat 0] else "\\ud800\\ud800".toList

/-- The text of bytes for the readers of JSON; `fuel` bounds their number. -/
def textOfBytes : (fuel : Nat) → (escaping : Bool) → List UInt8 → List Char
  | 0, _, _ => []
  | _ + 1, _, [] => []
  | fuel + 1, escaping, b :: bs =>
    match frontChar? (b :: bs) with
    | some (c, rest) => c :: textOfBytes fuel (c == '\\' && !escaping) rest
    | none => strayMark escaping ++ textOfBytes fuel false bs

/-- The text of all these bytes. -/
def ofBytes (bs : List UInt8) : List Char := textOfBytes bs.length false bs

end JobHealth.Json
