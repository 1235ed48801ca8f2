import JobHealth.Json.Value
import JobHealth.Text.Quoted
/-!
# `JobHealth.Json.Fault` — why a text or a value could not be read as asked

A text can be no JSON at all, which says nothing more, or be JSON of the wrong
shape, which names the field or the value at fault and what was expected there.
-/

namespace JobHealth.Json

open JobHealth.Number JobHealth.Text

inductive Fault where
  /-- Not JSON, or not in the form that the place allows. -/
  | malformed
  | missingField (name : String)
  | duplicateField (name : String)
  /-- A value of another kind than the expected one. -/
  | invalidType (found : Found) (expected : String)
  /-- A number of the right kind outside the expected range. -/
  | invalidValue (found : Found) (expected : String)
  /-- A list with too few or too many items. -/
  | invalidLength (count : Nat) (expected : String)
  /-- A word that is not among the allowed ones. -/
  | unknownVariant (word : String) (allowed : List String)
  deriving DecidableEq, Repr

def Number.message : Number → String
  | .natural n => "integer `" ++ n.repr ++ "`"
  | .negative n => "integer `-" ++ n.repr ++ "`"
  | .fractional s m => "floating point `" ++ shortestText s m ++ "`"

/-- What was found, as it stands in a message. -/
def Found.message : Found → String
  | .null => "null"
  | .flag b => if b then "boolean `true`" else "boolean `false`"
  | .number n => n.message
  | .text s => "string " ++ Quoted.quote s
  | .sequence => "sequence"
  | .record => "map"

def Fault.message : Fault → String
  | .malformed => "<json syntax>"
  | .missingField name => "missing field `" ++ name ++ "`"
  | .duplicateField name => "duplicate field `" ++ name ++ "`"
  | .invalidType found expected => "invalid type: " ++ found.message ++ ", expected " ++ expected
  | .invalidValue found expected => "invalid value: " ++ found.message ++ ", expected " ++ expected
  | .invalidLength count expected => "invalid length " ++ count.repr ++ ", expected " ++ expected
  | .unknownVariant word allowed =>
    "unknown variant `" ++ word ++ "`, expected one of " ++
      String.intercalate ", " (allowed.map fun w => "`" ++ w ++ "`")

end JobHealth.Json
