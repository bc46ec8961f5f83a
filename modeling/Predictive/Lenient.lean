import Predictive.Lenient.IntegerText
import Predictive.Lenient.Rounding
import Predictive.Schema

/-!
# A lenient validator

A validator that forgives much: integers may be written as text, as whole decimals of at most 63
binary digits or as truth values; truth values may be written as text, `0` or `1`; text is never
made from anything else. It is one instance of `Validator`, with which settings and requests can be
read in a running program. What is proved of settings and requests is proved of every validator that
keeps the contract.

* `Lenient.validator`: the instance, for texts that may or may not be strings.
-/

namespace Predictive.Lenient

/-! ## Single values -/

/-- The bound below which integers are read from decimals and truth values from integers. -/
def wordBound : Int := Int.pow 2 63

/-- Reads an integer from a decimal. Its absolute value is below the bound. -/
def readWhole (d : Decimal) : Checked Int :=
  match d.nearest? with
  | none => .fault .finiteNumber
  | some b =>
    match b.whole? with
    | none => .fault .integerFromFloat
    | some n => if -wordBound < n && n < wordBound then .ok n else .fault .integerSize

/-- Reads an integer from text, if the text is a string. -/
def readNumeral : Option String → Checked Int
  | none => .fault .integerParsing
  | some text =>
    match IntegerText.read text with
    | .ok n => .ok n
    | .error .malformed => .fault .integerParsing
    | .error .tooLong => .fault .integerSize

/-- The words for yes. -/
def yesWords : List String := ["1", "t", "true", "y", "yes", "on"]

/-- The words for no. -/
def noWords : List String := ["0", "f", "false", "n", "no", "off"]

/-- The truth value that a whole number spells. -/
def readBit (n : Int) : Checked Bool :=
  if n = 0 then .ok false else if n = 1 then .ok true else .fault .boolParsing

/-- Reads a truth value from text, if the text is a string. -/
def readWord : Option String → Checked Bool
  | none => .fault .boolParsing
  | some text =>
    let word := String.ofList (text.toList.map Char.toLower)
    if word ∈ yesWords then .ok true
    else if word ∈ noWords then .ok false
    else .fault .boolParsing

variable {τ : Type} (narrow? : τ → Option String)

/-- Reads an integer. -/
def readInteger : Datum τ → Checked Int
  | .integer n => .ok n
  | .bool b => .ok (if b then 1 else 0)
  | .decimal d => readWhole d
  | .text s => readNumeral (narrow? s)
  | _ => .fault .integerType

/-- Reads an integer that is not below a bound. -/
def readAtLeast (least : Int) (d : Datum τ) : Checked Int :=
  match readInteger narrow? d with
  | .ok n => if least ≤ n then .ok n else .fault .belowMinimum
  | .error es => .error es

/-- Reads a truth value. -/
def readFlag : Datum τ → Checked Bool
  | .bool b => .ok b
  | .integer n => if -wordBound ≤ n && n < wordBound then readBit n else .fault .boolType
  | .decimal d =>
    match readWhole d with
    | .ok n => readBit n
    | .error _ => .fault .boolType
  | .text s => readWord (narrow? s)
  | _ => .fault .boolType

/-- Reads a text. -/
def readText : Datum τ → Checked τ
  | .text s => .ok s
  | _ => .fault .textType

/-! ## Parts side by side -/

/-- Two readings side by side; the faults of both are kept in order. -/
def zip {α β : Type} : Checked α → Checked β → Checked (α × β)
  | .ok a, .ok b => .ok (a, b)
  | a, b => .error (a.errors ++ b.errors)

theorem zip_eq_ok_iff {α β : Type} {x : Checked α} {y : Checked β} {p : α × β} :
    zip x y = .ok p ↔ x = .ok p.1 ∧ y = .ok p.2 := by
  obtain ⟨a, b⟩ := p
  cases x <;> cases y <;> simp [zip]

theorem errors_zip {α β : Type} (x : Checked α) (y : Checked β) :
    (zip x y).errors = x.errors ++ y.errors := by
  cases x <;> cases y <;> simp [zip, Checked.errors]

/-- Readings of all items of a list, counted from `place`; all faults are kept in order. -/
def items {α β : Type} (read : α → Checked β) : (place : Nat) → List α → Checked (List β)
  | _, [] => .ok []
  | place, x :: xs =>
    (zip ((read x).inside (.index place)) (items read (place + 1) xs)).map fun p => p.1 :: p.2

/-- Readings of all named items; all faults are kept in order. -/
def entries {α β : Type} (read : α → Checked β) :
    List (String × α) → Checked (List (String × β))
  | [] => .ok []
  | (name, x) :: xs =>
    (zip ((read x).inside (.field name)) (entries read xs)).map fun p => (name, p.1) :: p.2

/-! ## The validator -/

/-- Reads a value of a type. -/
def value : (type : FieldType) → Datum τ → Checked (type.Value τ)
  | .integer least, d => readAtLeast narrow? least d
  | .text, d => readText d
  | .flag, d => readFlag narrow? d
  | .list item, .list ds => items (value item) 0 ds
  | .list _, _ => .fault .listType
  | .table item, .object fields => (entries (value item) fields).map .ofList
  | .table _, _ => .fault .dictType
  | .optional _, .null => .ok none
  | .optional type, d => (value type d).map some

/-- Reads a record field by field. Unknown fields do not matter. -/
def record (data : List (String × Datum τ)) :
    (fields : List (Field τ)) → Checked (Record τ fields)
  | [] => .ok ()
  | f :: fields => zip (f.read (value narrow?) data) (record data fields)

/-- The lenient validator. -/
def validator : Validator τ where
  value := value narrow?
  record fields data := record narrow? data fields

end Predictive.Lenient
