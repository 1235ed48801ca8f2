/-
# `JobHealth.Text.Blank` — blank characters

A character is blank when Unicode gives it the property White_Space.  The set
is closed (25 characters), so it is written out as ranges.  Runs of blank and
of other characters are how a log line falls apart into words.
-/

namespace JobHealth.Text

/-- The White_Space characters of Unicode. -/
def isBlank (c : Char) : Bool :=
  let n := c.toNat
  (9 ≤ n && n ≤ 13) || n == 0x20 || n == 0x85 || n == 0xA0 || n == 0x1680 ||
    (0x2000 ≤ n && n ≤ 0x200A) || n == 0x2028 || n == 0x2029 || n == 0x202F ||
    n == 0x205F || n == 0x3000

def isInk (c : Char) : Bool := !isBlank c

/-- The text from its first non-blank character on. -/
def dropBlank (cs : List Char) : List Char := cs.dropWhile isBlank

/-- The non-blank run at the front of the text. -/
def word (cs : List Char) : List Char := cs.takeWhile isInk

/-- What follows the non-blank run at the front of the text. -/
def afterWord (cs : List Char) : List Char := cs.dropWhile isInk

theorem word_append_afterWord (cs : List Char) : word cs ++ afterWord cs = cs :=
  List.takeWhile_append_dropWhile

end JobHealth.Text
