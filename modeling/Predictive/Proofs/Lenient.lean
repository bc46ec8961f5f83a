import Predictive.Lenient

/-!
# The lenient validator keeps the contract

What a lenient reading accepts is not below its bound, and every text that it refuses is refused for
one reason. A record is read as its fields side by side.

* `Lenient.record_eq_ok_iff`, `Lenient.errors_record`: records are read field by field.
* **`Lenient.validator_contract`**: the lenient validator keeps the contract of validators.
-/

namespace Predictive.Lenient

variable {τ : Type} {narrow? : τ → Option String}

/-! ## Values -/

theorem readAtLeast_le {least n : Int} {d : Datum τ} (h : readAtLeast narrow? least d = .ok n) :
    least ≤ n := by
  unfold readAtLeast at h
  split at h
  · split at h
    · cases h
      assumption
    · cases h
  · cases h

/-- Items that read one by one read as a list. -/
theorem items_eq_ok {α β : Type} {read : α → Checked β} {xs : List α} {ys : List β}
    (h : xs.map read = ys.map .ok) (place : Nat) : items read place xs = .ok ys := by
  induction xs generalizing ys place with
  | nil =>
    obtain rfl : ys = [] := List.map_eq_nil_iff.mp h.symm
    rfl
  | cons x xs ih =>
    obtain ⟨y, ys, rfl, hy, hys⟩ := List.map_eq_cons_iff.mp h.symm
    rw [items, ih hys.symm, ← hy]
    rfl

theorem value_optional {type : FieldType} {d : Datum τ} (h : d ≠ .null) :
    value narrow? (.optional type) d = (value narrow? type d).map some := by
  cases d with
  | null => exact absurd rfl h
  | _ => rfl

/-! ## Texts that are refused -/

/-- The reading refuses for one reason, if it refuses. -/
def RefusesOnce {α : Type} (x : Checked α) : Prop := ∀ es, x = .error es → ∃ c, es = [⟨[], c⟩]

theorem RefusesOnce.ok {α : Type} (a : α) : RefusesOnce (Except.ok a : Checked α) := by
  intro es h
  cases h

theorem RefusesOnce.fault {α : Type} (c : Complaint) : RefusesOnce (Checked.fault c : Checked α) := by
  intro es h
  cases h
  exact ⟨c, rfl⟩

theorem RefusesOnce.map {α β : Type} {x : Checked α} (h : RefusesOnce x) (f : α → β) :
    RefusesOnce (x.map f : Checked β) := by
  intro es he
  refine h es ?_
  cases x with
  | ok a => cases he
  | error es' =>
    cases he
    rfl

theorem refusesOnce_readNumeral (text? : Option String) : RefusesOnce (readNumeral text?) := by
  unfold readNumeral
  split
  · exact .fault _
  · split
    · exact .ok _
    · exact .fault _
    · exact .fault _

theorem refusesOnce_readAtLeast (least : Int) (s : τ) :
    RefusesOnce (readAtLeast narrow? least (.text s)) := by
  unfold readAtLeast
  split
  · split
    · exact .ok _
    · exact .fault _
  · rename_i es he
    intro es' he'
    cases he'
    exact refusesOnce_readNumeral _ es he

theorem refusesOnce_readWord (text? : Option String) : RefusesOnce (readWord text?) := by
  unfold readWord
  split
  · exact .fault _
  · simp only
    split
    · exact .ok _
    · split
      · exact .ok _
      · exact .fault _

theorem refusesOnce_value (type : FieldType) (s : τ) :
    RefusesOnce (value narrow? type (.text s)) := by
  induction type with
  | integer least => exact refusesOnce_readAtLeast least s
  | text => exact .ok s
  | flag => exact refusesOnce_readWord (narrow? s)
  | list item _ => exact .fault _
  | table item _ => exact .fault _
  | optional type ih => exact ih.map some

/-! ## Records -/

theorem record_eq_ok_iff {fields : List (Field τ)} {data : List (String × Datum τ)}
    {r : Record τ fields} :
    record narrow? data fields = .ok r ↔ (validator narrow?).Accepts data fields r := by
  induction fields with
  | nil => exact iff_of_true rfl trivial
  | cons f fields ih => exact zip_eq_ok_iff.trans (and_congr Iff.rfl ih)

theorem errors_record (fields : List (Field τ)) (data : List (String × Datum τ)) :
    (record narrow? data fields).errors =
      fields.flatMap fun f => (f.read (value narrow?) data).errors := by
  induction fields with
  | nil => rfl
  | cons f fields ih => exact (errors_zip _ _).trans (congrArg _ ih)

/-- **The lenient validator keeps the contract.** -/
theorem validator_contract (narrow? : τ → Option String) : (validator narrow?).Contract where
  integer_least := readAtLeast_le
  text _ := rfl
  list h := items_eq_ok h 0
  optional := value_optional
  refused h := refusesOnce_value _ _ _ h
  record_eq_ok_iff := record_eq_ok_iff
  errors_record fields data := errors_record fields data

end Predictive.Lenient
