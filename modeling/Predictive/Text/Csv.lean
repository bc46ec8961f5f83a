/-!
# Comma-separated records

A record is its fields, separated by commas, and ends in a carriage return and a line feed. A field
is quoted when it holds a comma, a quote or one of those two; a quote inside is written twice.
-/

namespace Predictive.Text.Csv

/-- A character that a field may only hold inside quotes. -/
def isSpecial (c : Char) : Bool := c = ',' || c = '"' || c = '\r' || c = '\n'

/-- The characters of a quoted field: a quote is written twice. -/
def doubled : List Char → List Char
  | [] => []
  | c :: cs => if c = '"' then '"' :: '"' :: doubled cs else c :: doubled cs

/-- The written form of a field. -/
def field (cs : List Char) : List Char :=
  if cs.any isSpecial then '"' :: (doubled cs ++ ['"']) else cs

/-- The written form of the fields of a record, without its end. -/
def joined : List (List Char) → List Char
  | [] => []
  | [f] => field f
  | f :: fs => field f ++ ',' :: joined fs

/-- The written form of a record. -/
def record (fields : List (List Char)) : List Char := joined fields ++ ['\r', '\n']

/-- The written form of some records. -/
def write (records : List (List String)) : String :=
  String.ofList (records.flatMap fun fields => record (fields.map String.toList))

end Predictive.Text.Csv
