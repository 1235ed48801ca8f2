/-
# `JobHealth.Text.Lines` — the lines of a text

A line ends at `\n`; one `\r` straight before that `\n` belongs to the line end
and not to the line.  Text after the last `\n` is a line of its own unless it
is empty, and there a final `\r` is kept.  So an empty text has no line.
-/

namespace JobHealth.Text

/-- A finished line, held in reverse, without the `\r` of its line end. -/
def chomp : List Char → List Char
  | '\r' :: seen => seen.reverse
  | seen => seen.reverse

/-- The lines of a text of which `seen`, in reverse, was already read. -/
def linesAfter (seen : List Char) : List Char → List (List Char)
  | [] => if seen.isEmpty then [] else [seen.reverse]
  | c :: cs => if c = '\n' then chomp seen :: linesAfter [] cs else linesAfter (c :: seen) cs

def lines (cs : List Char) : List (List Char) := linesAfter [] cs

/-- The pieces of a text between the places where `sep` stands; one more than there are
separators. -/
def pieces (sep : Char) : List Char → List (List Char)
  | [] => [[]]
  | c :: cs =>
    if c = sep then [] :: pieces sep cs
    else match pieces sep cs with
      | [] => [[c]]
      | p :: ps => (c :: p) :: ps

/-- Joins pieces with one separator between any two of them. -/
def join (sep : Char) : List (List Char) → List Char
  | [] => []
  | [p] => p
  | p :: ps => p ++ sep :: join sep ps

/-- The text cut in two at the first `sep`, which is in neither part. -/
def cutAt? (sep : Char) : List Char → Option (List Char × List Char)
  | [] => none
  | c :: cs => if c = sep then some ([], cs) else (cutAt? sep cs).map fun (a, b) => (c :: a, b)

/-- Whether `part` stands somewhere in the text. -/
def contains (part : List Char) : List Char → Bool
  | [] => part.isEmpty
  | c :: cs => part.isPrefixOf (c :: cs) || contains part cs

/-- The rest of the text after `lead`, if it begins with that. -/
def after? : (lead : List Char) → List Char → Option (List Char)
  | [], cs => some cs
  | _ :: _, [] => none
  | l :: lead, c :: cs => if l = c then after? lead cs else none

/-- A decimal numeral with no needless zero in front. -/
def numeral (n : Nat) : String := n.repr

theorem pieces_ne_nil (sep : Char) (cs : List Char) : pieces sep cs ≠ [] := by
  induction cs with
  | nil => simp [pieces]
  | cons c cs ih =>
    unfold pieces
    split
    · simp
    · split <;> simp

theorem join_pieces (sep : Char) (cs : List Char) : join sep (pieces sep cs) = cs := by
  induction cs with
  | nil => simp [pieces, join]
  | cons c cs ih =>
    unfold pieces
    split
    · next h =>
      cases hp : pieces sep cs with
      | nil => exact absurd hp (pieces_ne_nil sep cs)
      | cons p ps => rw [hp] at ih; simp [join, ih, h]
    · cases hp : pieces sep cs with
      | nil => exact absurd hp (pieces_ne_nil sep cs)
      | cons p ps =>
        rw [hp] at ih
        cases ps with
        | nil => simp only [join] at ih ⊢; rw [ih]
        | cons q qs => simp only [join] at ih ⊢; rw [List.cons_append, ih]

end JobHealth.Text
