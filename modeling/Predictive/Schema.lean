import Predictive.Datum
import Predictive.OrderedMap

/-!
# Records with typed fields

A record is declared by its fields: a name, a type, the value of a field that is absent, and a check
of the values that are given. What makes a record of loosely typed data is a `Validator`. The readers
of settings and requests take one as a parameter, and `Validator.Contract` says what they rely on.

* `Record`: the values of some fields.
* `Field.take`, `Field.read`: what a field is read as, on top of a reading of single values.
* `Validator.Contract`: integers are not below their bound; strings, lists and optional values are
  read part by part; a record is read field by field, and the faults stand in the order of the
  fields.
-/

namespace Predictive

/-- The types of fields. -/
inductive FieldType where
  /-- Integers from a least one on. -/
  | integer (least : Int)
  | text
  | flag
  | list (item : FieldType)
  /-- Values under any names. -/
  | table (item : FieldType)
  /-- Values, or null. -/
  | optional (type : FieldType)
  deriving DecidableEq

/-- The values of a type, with texts of the type `τ`. -/
def FieldType.Value (τ : Type) : FieldType → Type
  | integer _ => Int
  | text => τ
  | flag => Bool
  | list item => List (item.Value τ)
  | table item => OrderedMap String (item.Value τ)
  | optional type => Option (type.Value τ)

/-- A field of a record. -/
structure Field (τ : Type) where
  name : String
  type : FieldType
  /-- The value of a field that is not given. -/
  absent : type.Value τ
  /-- What is made of a value that is given, or why it is refused. -/
  check : type.Value τ → Except String (type.Value τ)

/-- A field that takes all values of its type. -/
def Field.plain {τ : Type} (name : String) (type : FieldType) (absent : type.Value τ) : Field τ :=
  ⟨name, type, absent, .ok⟩

/-- The values of some fields, in order. -/
def Record (τ : Type) : List (Field τ) → Type
  | [] => Unit
  | f :: fields => f.type.Value τ × Record τ fields

variable {τ : Type}

/-- What a field makes of a datum that is given: a value of its type that passes its check. -/
def Field.take (value : (type : FieldType) → Datum τ → Checked (type.Value τ)) (f : Field τ)
    (d : Datum τ) : Checked (f.type.Value τ) :=
  match value f.type d with
  | .error es => .error es
  | .ok a =>
    match f.check a with
    | .ok a => .ok a
    | .error message => .fault (.valueError message)

namespace Field

variable {value : (type : FieldType) → Datum τ → Checked (type.Value τ)} {d : Datum τ}

theorem take_plain (name : String) (type : FieldType) (absent : type.Value τ) :
    (plain name type absent).take value d = value type d := by
  unfold take plain
  cases value type d <;> rfl

variable {f : Field τ} {a b : f.type.Value τ}

theorem take_eq_ok (ha : value f.type d = .ok a) (hb : f.check a = .ok b) :
    f.take value d = .ok b := by
  simp only [take, ha, hb]

theorem take_eq_fault {message : String} (ha : value f.type d = .ok a)
    (hm : f.check a = .error message) : f.take value d = .fault (.valueError message) := by
  simp only [take, ha, hm]

end Field

/-- What a field is read as in named data. -/
def Field.read (value : (type : FieldType) → Datum τ → Checked (type.Value τ))
    (data : List (String × Datum τ)) (f : Field τ) : Checked (f.type.Value τ) :=
  match data.lookup f.name with
  | none => .ok f.absent
  | some d => (f.take value d).inside (.field f.name)

/-- What makes values and records of loosely typed data. -/
structure Validator (τ : Type) where
  /-- Reads a value of a type. -/
  value : (type : FieldType) → Datum τ → Checked (type.Value τ)
  /-- Reads a record from named data. -/
  record : (fields : List (Field τ)) → List (String × Datum τ) → Checked (Record τ fields)

namespace Validator

/-- Every field is read as its value in the record. -/
def Accepts (v : Validator τ) (data : List (String × Datum τ)) :
    (fields : List (Field τ)) → Record τ fields → Prop
  | [], _ => True
  | f :: fields, r => f.read v.value data = .ok r.1 ∧ v.Accepts data fields r.2

/-- The decimal text of an integer is read as this integer. -/
def ReadsDigits (v : Validator String) (n : Int) : Prop :=
  v.value (.integer 1) (.text (toString n)) = .ok n

/-- What the readers of settings and requests rely on. -/
structure Contract (v : Validator τ) : Prop where
  /-- No integer below the bound is accepted. -/
  integer_least : ∀ {least : Int} {d : Datum τ} {n : Int},
    v.value (.integer least) d = .ok n → least ≤ n
  /-- A text is taken as it is. -/
  text : ∀ s : τ, v.value .text (.text s) = .ok s
  /-- The items of a list are read one by one. -/
  list : ∀ {item : FieldType} {ds : List (Datum τ)} {values : List (item.Value τ)},
    ds.map (v.value item) = values.map .ok → v.value (.list item) (.list ds) = .ok values
  /-- What is not null is read as if it were not optional. -/
  optional : ∀ {type : FieldType} {d : Datum τ}, d ≠ .null →
    v.value (.optional type) d = (v.value type d).map some
  /-- One thing is wrong with a text that is refused. -/
  refused : ∀ {type : FieldType} {s : τ} {es : List FieldError},
    v.value type (.text s) = .error es → ∃ c, es = [⟨[], c⟩]
  /-- A record is read field by field. -/
  record_eq_ok_iff : ∀ {fields : List (Field τ)} {data : List (String × Datum τ)}
    {r : Record τ fields}, v.record fields data = .ok r ↔ v.Accepts data fields r
  /-- The faults of a record are those of its fields, in their order. -/
  errors_record : ∀ (fields : List (Field τ)) (data : List (String × Datum τ)),
    (v.record fields data).errors = fields.flatMap fun f => (f.read v.value data).errors

end Validator

end Predictive
