import JobHealth.Number.Decimal
/-!
# `JobHealth.Json.Value` — values without a fixed shape

What a JSON text, a configuration file or an environment variable holds before
anyone asks what it should be.  Whole numbers are kept apart from fractional
ones: a numeral without fraction and exponent is whole if it fits a 64-bit
word, signed or unsigned, and a binary64 number otherwise.
-/

namespace JobHealth.Json

open JobHealth.Number

/-- A number, as its numeral was read. -/
inductive Number where
  /-- A whole number from zero on. -/
  | natural (n : Nat)
  /-- The whole number `-n`, for a positive `n`. -/
  | negative (n : Nat)
  /-- Any other number: its sign and its magnitude. -/
  | fractional (negative : Bool) (magnitude : Binary64)
  deriving DecidableEq, Repr

/-- A value without a fixed shape.  The members of a record keep the order of the text. -/
inductive Value where
  | null
  | flag (b : Bool)
  | number (n : Number)
  | text (s : String)
  | list (items : List Value)
  | record (members : List (String × Value))
  deriving Repr, Inhabited

/-- The last member of that name. -/
def lookupLast (name : String) (members : List (String × α)) : Option α :=
  members.reverse.lookup name

/-- The value of a member; of several with one name the last counts. -/
def Value.get? (name : String) : Value → Option Value
  | .record members => lookupLast name members
  | _ => none

/-- What was found where something else was expected. -/
inductive Found where
  | null
  | flag (b : Bool)
  | number (n : Number)
  | text (s : String)
  | sequence
  | record
  deriving DecidableEq, Repr

/-- What a value is, for a message. -/
def Value.found : Value → Found
  | .null => .null
  | .flag b => .flag b
  | .number n => .number n
  | .text s => .text s
  | .list _ => .sequence
  | .record _ => .record

end JobHealth.Json
