import JobHealth.Text.Printable
import JobHealth.Text.Lines
/-!
# `JobHealth.Text.Quoted` — a text in double quotes, with nothing hidden

The form in which names and lists of names stand in messages: between double
quotes, with `\\` and `"` escaped, the usual letters for tab, line feed, return
and NUL, and every other character that would not show as `\u` and its code
point in braces.
-/

namespace JobHealth.Text.Quoted

/-- The digits of `n` in base sixteen, lower case. -/
def hex (n : Nat) : List Char := Nat.toDigits 16 n

def escape (c : Char) : List Char :=
  if c = '\\' then ['\\', '\\']
  else if c = '"' then ['\\', '"']
  else if c = '\n' then ['\\', 'n']
  else if c = '\r' then ['\\', 'r']
  else if c = '\t' then ['\\', 't']
  else if c.toNat = 0 then ['\\', '0']
  else if isPrintable c then [c]
  else '\\' :: 'u' :: '\x7b' :: hex c.toNat ++ ['\x7d']

def quote (s : String) : String :=
  String.ofList ('"' :: s.toList.flatMap escape ++ ['"'])

/-- The quoted form of a list of texts, in square brackets. -/
def quoteAll (names : List String) : String :=
  "[" ++ String.intercalate ", " (names.map quote) ++ "]"

end JobHealth.Text.Quoted
