import JobHealth.Json.Scan
import JobHealth.Text.Lines
/-!
# `JobHealth.Json.Write` — compact JSON text

The quote, the backslash and the control characters below the space are
escaped, the common ones by a letter and the others by four hexadecimal digits;
every other character stands as it is.  Nothing stands between the parts.
-/

namespace JobHealth.Json

/-- The lower-case hexadecimal digit of a value below sixteen. -/
def hexChar (n : Nat) : Char := Nat.digitChar n

def escapeChar (c : Char) : List Char :=
  if c = '"' then ['\\', '"']
  else if c = '\\' then ['\\', '\\']
  else if c = '\n' then ['\\', 'n']
  else if c = '\r' then ['\\', 'r']
  else if c = '\t' then ['\\', 't']
  else if c.toNat = 8 then ['\\', 'b']
  else if c.toNat = 12 then ['\\', 'f']
  else if c.toNat < 0x20 then
    ['\\', 'u', '0', '0', hexChar (c.toNat / 16), hexChar (c.toNat % 16)]
  else [c]

def writeString (s : List Char) : List Char := '"' :: s.flatMap escapeChar ++ ['"']

/-- A member of a record: its name, a colon and its written value. -/
def writeMember (name : String) (value : List Char) : List Char :=
  writeString name.toList ++ ':' :: value

def writeRecord (members : List (List Char)) : List Char :=
  '\x7b' :: Text.join ',' members ++ ['\x7d']

def writeList (items : List (List Char)) : List Char := '[' :: Text.join ',' items ++ [']']

def writeNat (n : Nat) : List Char := Nat.toDigits 10 n

end JobHealth.Json
