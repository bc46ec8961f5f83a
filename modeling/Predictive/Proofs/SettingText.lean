import Predictive.Settings
import Predictive.Proofs.Spacing

/-!
# The texts of settings

An environment holds texts: the name of a level in any mixture of capital and small letters, and a
list whose entries are separated by commas, with blanks around the values and with blank entries
between them (`Settings.Entries`).

* `Settings.checkLevel_eq_ok_iff`, `Settings.checkLevel_of_letters`: which texts name a level.
* `Settings.listEntries_intercalate`: a list comes back from its entries.
-/

namespace Predictive

namespace Text

/-! ## Capital letters -/

/-- A letter of ASCII has one capital. -/
theorem capitals_eq_singleton {c : Char} (h : c.toUpper.toNat < 0x80) :
    capitals c = [c.toUpper] := by
  unfold capitals
  split <;> first | rfl | exact absurd h (by decide)

theorem capitalized_eq {text name : String} (h : text.toList.map Char.toUpper = name.toList)
    (hascii : ∀ c ∈ name.toList, c.toNat < 0x80) : capitalized text = name := by
  have hmap : text.toList.flatMap capitals = text.toList.map Char.toUpper := by
    rw [← List.flatMap_pure_eq_map]
    refine List.flatMap_congr fun c hc => capitals_eq_singleton (hascii c.toUpper ?_)
    rw [← h]
    exact List.mem_map_of_mem hc
  rw [capitalized, hmap, h, String.ofList_toList]

end Text

namespace Settings

open Text (AllBlank)

/-! ## Levels -/

theorem checkLevel_eq_ok_iff {text level : String} :
    checkLevel text = .ok level ↔ Text.capitalized text = level ∧ level ∈ levelNames := by
  unfold checkLevel
  simp only
  split
  · next hmem =>
    rw [Except.ok.injEq]
    exact ⟨fun h => ⟨h, h ▸ hmem⟩, And.left⟩
  · next hmem =>
    refine iff_of_false (by simp) ?_
    rintro ⟨rfl, h⟩
    exact hmem h

theorem checkLevel_eq_error {text : String} (h : Text.capitalized text ∉ levelNames) :
    checkLevel text = .error ("Unknown log level '" ++ text ++ "'") :=
  if_neg h

/-- The letters of a level's name, in capitals or not, name this level. -/
theorem checkLevel_of_letters {text level : String} (hlevel : level ∈ levelNames)
    (h : text.toList.map Char.toUpper = level.toList) : checkLevel text = .ok level := by
  have hascii : levelNames.all (·.toList.all (·.toNat < 0x80)) = true := by decide
  have hchars := List.all_eq_true.mp (List.all_eq_true.mp hascii level hlevel)
  exact checkLevel_eq_ok_iff.mpr
    ⟨Text.capitalized_eq h fun c hc => of_decide_eq_true (hchars c hc), hlevel⟩

/-! ## Lists -/

/-- A text that can stand in a list: it is not blank, neither begins nor ends with a blank, and has
no comma. -/
structure Listable (origin : String) : Prop where
  not_blank : ¬ AllBlank origin.toList
  strip_eq : Text.strip origin.toList = origin.toList
  comma : ',' ∉ origin.toList

/-- The entries of a list: its values in order, with blanks around each, and blank entries anywhere
between them. -/
inductive Entries : List String → List String → Prop
  | nil : Entries [] []
  | blank {origins entries : List String} {entry : String} (hblank : AllBlank entry.toList)
    (rest : Entries origins entries) : Entries origins (entry :: entries)
  | origin {origins entries : List String} (front origin back : String)
    (hfront : AllBlank front.toList) (hback : AllBlank back.toList)
    (rest : Entries origins entries) :
    Entries (origin :: origins) ((front ++ origin ++ back) :: entries)

variable {origins entries : List String}

theorem Entries.comma_not_mem (h : Entries origins entries) (hlist : ∀ o ∈ origins, Listable o) :
    ∀ entry ∈ entries, ',' ∉ entry.toList := by
  have hnot {cs : List Char} (hblank : AllBlank cs) : ',' ∉ cs := hblank.not_mem (by decide)
  induction h with
  | nil => simp
  | blank hblank _ ih => exact List.forall_mem_cons.mpr ⟨hnot hblank, ih hlist⟩
  | origin front o back hfront hback _ ih =>
    have ⟨ho, hrest⟩ := List.forall_mem_cons.mp hlist
    refine List.forall_mem_cons.mpr ⟨?_, ih hrest⟩
    simp [hnot hfront, hnot hback, ho.comma]

/-- The values come back, without the blanks around them and without the blank entries. -/
theorem Entries.stripped (h : Entries origins entries) (hlist : ∀ o ∈ origins, Listable o) :
    (((entries.map String.toList).map Text.strip).filter (!·.isEmpty)).map String.ofList =
      origins := by
  induction h with
  | nil => rfl
  | blank hblank _ ih =>
    rw [List.map_cons, List.map_cons, Text.strip_eq_nil_iff.mpr hblank]
    exact ih hlist
  | origin front o back hfront hback _ ih =>
    have ⟨ho, hrest⟩ := List.forall_mem_cons.mp hlist
    have hne : o.toList ≠ [] := fun hnil => ho.not_blank (hnil ▸ Text.allBlank_nil)
    rw [List.map_cons, List.map_cons, String.toList_append, String.toList_append,
      Text.strip_append hfront hback, ho.strip_eq, List.filter_cons_of_pos (by simp [hne]),
      List.map_cons, String.ofList_toList, ih hrest]

/-- **A list comes back from its entries**, joined by commas. -/
theorem listEntries_intercalate (h : Entries origins entries) (hlist : ∀ o ∈ origins, Listable o) :
    listEntries (",".intercalate entries) = origins := by
  by_cases hne : entries = []
  · subst hne
    cases h
    rfl
  · have hsplit : (",".intercalate entries).toList.splitOn ',' = entries.map String.toList := by
      rw [String.toList_intercalate]
      refine List.splitOn_intercalate ',' ?_ (by simpa using hne)
      simpa using h.comma_not_mem hlist
    rw [listEntries, hsplit]
    exact h.stripped hlist

end Settings

end Predictive
