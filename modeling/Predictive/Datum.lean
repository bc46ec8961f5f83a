/-!
# Data of unknown shape and what is made of it

Settings and requests arrive as data of unknown shape, with texts of some type `τ`. A reading of such
data is `Checked`: it gives a value, or everything that is wrong, each fault with its place.
-/

namespace Predictive

/-- A number that is written with a point or an exponent: `mantissa * 10 ^ exponent`. -/
structure Decimal where
  mantissa : Int
  exponent : Int
  deriving DecidableEq

/-- Data of unknown shape. -/
inductive Datum (τ : Type) where
  | null
  | bool (value : Bool)
  | integer (value : Int)
  | decimal (value : Decimal)
  | text (value : τ)
  | list (items : List (Datum τ))
  | object (fields : List (String × Datum τ))
  deriving Inhabited

/-- A step from a datum to a part of it. -/
inductive PathStep where
  | field (name : String)
  | index (place : Nat)
  deriving DecidableEq

/-- What can be wrong with a datum. -/
inductive Complaint where
  /-- Text that is no integer. -/
  | integerParsing
  /-- Text with too many digits, or a decimal that is too large for an integer. -/
  | integerSize
  /-- A decimal that stands for no finite number. -/
  | finiteNumber
  /-- A decimal that is not whole. -/
  | integerFromFloat
  /-- Neither an integer nor text. -/
  | integerType
  /-- An integer below the least one allowed. -/
  | belowMinimum
  /-- No text. -/
  | textType
  /-- No list. -/
  | listType
  /-- No object with named fields. -/
  | dictType
  /-- Text or a whole number that spells no truth value. -/
  | boolParsing
  /-- Nothing that could spell a truth value. -/
  | boolType
  /-- A value that does not pass the check of its field. -/
  | valueError (message : String)
  /-- Nothing at all. -/
  | missing
  /-- No object where a whole request is expected. -/
  | requestType
  deriving DecidableEq

namespace Complaint

/-- The name of the kind of complaint. -/
def code : Complaint → String
  | integerParsing => "int_parsing"
  | integerSize => "int_parsing_size"
  | finiteNumber => "finite_number"
  | integerFromFloat => "int_from_float"
  | integerType => "int_type"
  | belowMinimum => "greater_than_equal"
  | textType => "string_type"
  | listType => "list_type"
  | dictType => "dict_type"
  | boolParsing => "bool_parsing"
  | boolType => "bool_type"
  | valueError _ => "value_error"
  | missing => "missing"
  | requestType => "model_attributes_type"

/-- The complaint in words, where words belong to it. -/
def message? : Complaint → Option String
  | valueError message => some ("Value error, " ++ message)
  | _ => none

end Complaint

/-- A complaint about a part of the data. -/
structure FieldError where
  location : List PathStep
  complaint : Complaint
  deriving DecidableEq

/-- A value, or everything that is wrong with the data. -/
abbrev Checked (α : Type) := Except (List FieldError) α

namespace Checked

variable {α β : Type}

/-- The faults of a reading. -/
def errors : Checked α → List FieldError
  | .ok _ => []
  | .error es => es

/-- One fault at the datum itself. -/
def fault (c : Complaint) : Checked α := .error [⟨[], c⟩]

/-- Moves the faults of a reading to a part of a larger datum. -/
def inside (step : PathStep) : Checked α → Checked α
  | .ok a => .ok a
  | .error es => .error (es.map fun e => { e with location := step :: e.location })

theorem map_eq_ok_iff {x : Checked α} {f : α → β} {b : β} :
    x.map f = .ok b ↔ ∃ a, x = .ok a ∧ f a = b := by
  cases x <;> simp [Except.map]

theorem errors_map (x : Checked α) (f : α → β) : Checked.errors (x.map f) = x.errors := by
  cases x <;> rfl

@[simp] theorem inside_eq_ok_iff {x : Checked α} {step : PathStep} {a : α} :
    x.inside step = .ok a ↔ x = .ok a := by
  cases x <;> simp [inside]

end Checked

end Predictive
