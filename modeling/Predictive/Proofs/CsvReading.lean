import Predictive.Proofs.TableReport

/-!
# Comma-separated text reads back

A reader of comma-separated text goes through it character by character. Outside quotes a comma
ends a field, and a carriage return with a line feed behind it ends a record; a quote opens a field
that ends at the next quote, unless that one is doubled. Any other use of these four characters is
an error, and the last record may do without its end.

* `Reader`, `read?`: the reader.
* `foldlM_field`, `foldlM_record`: where it is behind a written field, and behind a written record.
* `read?_write`: it reads what has been written, whatever the fields hold.
* `reports_read_back`: so do the reports on sets and on tables.
-/

namespace Predictive.Text.Csv

/-- Where a reader is. -/
inductive Place where
  /-- At the beginning of a field. -/
  | opening
  /-- In a field without quotes. -/
  | bare
  /-- Between quotes. -/
  | quoted
  /-- Behind a quote that closes the field, unless a second one follows. -/
  | closing
  /-- Behind the carriage return of a record. -/
  | ending

/-- What a reader has read so far. -/
structure Reader where
  /-- The records that have ended. -/
  records : List (List String)
  /-- The fields of the record in progress that have ended. -/
  fields : List String
  /-- The characters of the field in progress. -/
  chars : List Char
  place : Place

namespace Reader

/-- Adds a character to the field. -/
def push (r : Reader) (c : Char) (place : Place) : Reader :=
  { r with chars := r.chars ++ [c], place }

/-- Ends the field. -/
def endField (r : Reader) (place : Place) : Reader :=
  { r with fields := r.fields ++ [String.ofList r.chars], chars := [], place }

/-- Ends the record. -/
def endRecord (r : Reader) : Reader := ⟨r.records ++ [r.fields], [], [], .opening⟩

/-- Ends the field at a character that can stand behind it. -/
def delimit? (r : Reader) (c : Char) : Option Reader :=
  if c = ',' then some (r.endField .opening)
  else if c = '\r' then some (r.endField .ending)
  else none

/-- Reads one character. -/
def step (r : Reader) (c : Char) : Option Reader :=
  match r.place with
  | .opening =>
    if c = '"' then some { r with place := .quoted }
    else if isSpecial c then r.delimit? c
    else some (r.push c .bare)
  | .bare => if isSpecial c then r.delimit? c else some (r.push c .bare)
  | .quoted => if c = '"' then some { r with place := .closing } else some (r.push c .quoted)
  | .closing => if c = '"' then some (r.push c .quoted) else r.delimit? c
  | .ending => if c = '\n' then some r.endRecord else none

/-- The records at the end of the text; a record in progress ends there. -/
def finish? (r : Reader) : Option (List (List String)) :=
  match r.place, r.fields with
  | .quoted, _ | .ending, _ => none
  | .opening, [] => some r.records
  | _, _ => some (r.endField .ending).endRecord.records

end Reader

/-- Reads the records of a text. -/
def read? (text : String) : Option (List (List String)) :=
  (text.toList.foldlM Reader.step ⟨[], [], [], .opening⟩).bind Reader.finish?

variable {rs records : List (List String)} {fs : List String} {acc cs : List Char} {c : Char}

/-! ## Fields -/

/-- The field may end here. -/
def Place.Final : Place → Prop
  | .opening | .bare | .closing => True
  | .quoted | .ending => False

theorem step_of_final {r : Reader} (hr : r.place.Final) (hc : c = ',' ∨ c = '\r') :
    r.step c = r.delimit? c := by
  obtain ⟨rs, fs, cs, place⟩ := r
  rcases hc with rfl | rfl <;> cases place <;> first | rfl | exact hr.elim

/-- A field without special characters is read as it is. -/
theorem foldlM_bare (h : cs.any isSpecial = false) :
    cs.foldlM Reader.step ⟨rs, fs, acc, .bare⟩ = some ⟨rs, fs, acc ++ cs, .bare⟩ := by
  induction cs generalizing acc with
  | nil => simp
  | cons c cs ih =>
    rw [List.any_cons, Bool.or_eq_false_iff] at h
    have hstep : Reader.step ⟨rs, fs, acc, .bare⟩ c = some ⟨rs, fs, acc ++ [c], .bare⟩ := by
      unfold Reader.step
      simp only [h.1]
      rfl
    rw [List.foldlM_cons, hstep]
    show cs.foldlM Reader.step ⟨rs, fs, acc ++ [c], .bare⟩ = _
    rw [ih h.2, List.append_assoc, List.singleton_append]

/-- Between quotes a field is read with its quotes halved. -/
theorem foldlM_doubled : (doubled cs).foldlM Reader.step ⟨rs, fs, acc, .quoted⟩ =
    some ⟨rs, fs, acc ++ cs, .quoted⟩ := by
  induction cs generalizing acc with
  | nil => simp [doubled]
  | cons c cs ih =>
    unfold doubled
    split
    · next h =>
      subst h
      show (doubled cs).foldlM Reader.step ⟨rs, fs, acc ++ ['"'], .quoted⟩ = _
      rw [ih, List.append_assoc, List.singleton_append]
    · next h =>
      have hstep : Reader.step ⟨rs, fs, acc, .quoted⟩ c = some ⟨rs, fs, acc ++ [c], .quoted⟩ :=
        if_neg h
      rw [List.foldlM_cons, hstep]
      show (doubled cs).foldlM Reader.step ⟨rs, fs, acc ++ [c], .quoted⟩ = _
      rw [ih, List.append_assoc, List.singleton_append]

/-- **Behind a written field** the reader has its characters, and the field may end. -/
theorem foldlM_field (rs : List (List String)) (fs : List String) (cs : List Char) :
    ∃ place : Place, place.Final ∧
      (field cs).foldlM Reader.step ⟨rs, fs, [], .opening⟩ = some ⟨rs, fs, cs, place⟩ := by
  unfold field
  split
  · refine ⟨.closing, trivial, ?_⟩
    show (doubled cs ++ ['"']).foldlM Reader.step ⟨rs, fs, [], .quoted⟩ = _
    rw [List.foldlM_append, foldlM_doubled]
    rfl
  · next h =>
    cases cs with
    | nil => exact ⟨.opening, trivial, rfl⟩
    | cons c cs =>
      -- The first character takes the reader from the opening into the field.
      rw [Bool.not_eq_true, List.any_cons, Bool.or_eq_false_iff] at h
      have hquote : c ≠ '"' := by
        rintro rfl
        exact absurd h.1 (by decide)
      have hstep : Reader.step ⟨rs, fs, [], .opening⟩ c = some ⟨rs, fs, [c], .bare⟩ := by
        unfold Reader.step
        simp only [h.1, if_neg hquote]
        rfl
      refine ⟨.bare, trivial, ?_⟩
      rw [List.foldlM_cons, hstep]
      exact foldlM_bare h.2

/-- A written field is read up to the character behind it. -/
theorem foldlM_field_append (cs : List Char) (hc : c = ',' ∨ c = '\r') (rest : List Char) :
    (field cs ++ c :: rest).foldlM Reader.step ⟨rs, fs, [], .opening⟩ =
      (Reader.delimit? ⟨rs, fs, cs, .opening⟩ c).bind (rest.foldlM Reader.step) := by
  obtain ⟨place, hplace, hfield⟩ := foldlM_field rs fs cs
  rw [List.foldlM_append, hfield]
  show (c :: rest).foldlM Reader.step ⟨rs, fs, cs, place⟩ = _
  rw [List.foldlM_cons, step_of_final hplace hc]
  rfl

/-! ## Records -/

theorem joined_cons (f : List Char) {fields : List (List Char)} (h : fields ≠ []) :
    joined (f :: fields) = field f ++ ',' :: joined fields := by
  cases fields with
  | nil => exact absurd rfl h
  | cons => rfl

theorem foldlM_joined {fields : List (List Char)} (h : fields ≠ []) (rest : List Char) :
    (joined fields ++ '\r' :: rest).foldlM Reader.step ⟨rs, fs, [], .opening⟩ =
      rest.foldlM Reader.step ⟨rs, fs ++ fields.map String.ofList, [], .ending⟩ := by
  induction fields generalizing fs with
  | nil => exact absurd rfl h
  | cons f fields ih =>
    cases fields with
    | nil => exact foldlM_field_append f (.inr rfl) rest
    | cons f' fields =>
      have hne : f' :: fields ≠ [] := List.cons_ne_nil f' fields
      rw [joined_cons f hne, List.append_assoc, List.cons_append,
        foldlM_field_append f (.inl rfl)]
      show (joined (f' :: fields) ++ '\r' :: rest).foldlM Reader.step
        ⟨rs, fs ++ [String.ofList f], [], .opening⟩ = _
      rw [ih hne, List.append_assoc]
      rfl

/-- **Behind a written record** the reader is at the beginning of the next one. -/
theorem foldlM_record {fields : List String} (h : fields ≠ []) :
    (record (fields.map String.toList)).foldlM Reader.step ⟨rs, [], [], .opening⟩ =
      some ⟨rs ++ [fields], [], [], .opening⟩ := by
  have hfields : (fields.map String.toList).map String.ofList = fields := by
    simp [Function.comp_def]
  unfold record
  rw [foldlM_joined (by simpa using h), hfields]
  rfl

theorem foldlM_records (h : ∀ record ∈ records, record ≠ []) :
    (records.flatMap fun fields => record (fields.map String.toList)).foldlM Reader.step
      ⟨rs, [], [], .opening⟩ = some ⟨rs ++ records, [], [], .opening⟩ := by
  induction records generalizing rs with
  | nil => simp
  | cons fields records ih =>
    rw [List.flatMap_cons, List.foldlM_append, foldlM_record (h fields List.mem_cons_self)]
    show (records.flatMap _).foldlM Reader.step ⟨rs ++ [fields], [], [], .opening⟩ = _
    rw [ih fun fields' h' => h fields' (List.mem_cons_of_mem _ h'), List.append_assoc,
      List.singleton_append]

/-- **Written records are read again**, whatever their fields hold. -/
theorem read?_write (h : ∀ record ∈ records, record ≠ []) : read? (write records) = some records := by
  unfold read? write
  rw [String.toList_ofList, foldlM_records h]
  rfl

/-- Two lists of records are not written alike. -/
theorem write_injective {records' : List (List String)} (h : ∀ record ∈ records, record ≠ [])
    (h' : ∀ record ∈ records', record ≠ []) (heq : write records = write records') :
    records = records' := by
  rw [← Option.some_inj, ← read?_write h, ← read?_write h', heq]

end Predictive.Text.Csv

namespace Predictive

/-! ## Reports -/

theorem NamedSets.records_ne_nil (title : String) (sets : NamedSets) :
    ∀ record ∈ sets.records title, record ≠ [] := by
  intro record h
  rcases List.mem_cons.mp h with rfl | h
  · exact List.cons_ne_nil _ _
  · obtain ⟨e, -, rfl⟩ := List.mem_map.mp h
    exact List.cons_ne_nil _ _

namespace Analysis

variable {a : Analysis}

theorem length_of_showsRow {names : List String} {rows : List (List String)}
    (h : List.Forall₂ a.ShowsRow names rows) {record : List String} (hrecord : record ∈ rows) :
    record.length = 1 + a.grammar.terminals.size := by
  induction h with
  | nil => cases hrecord
  | cons hrow _ ih =>
    rcases List.mem_cons.mp hrecord with rfl | hrecord
    · obtain ⟨fields, rfl, hfields⟩ := hrow
      rw [List.length_cons, ← hfields.length_eq, Nat.add_comm]
      rfl
    · exact ih hrecord

/-- The text of a table reads back: a header that names the symbols that a token can be, and a row
for every nonterminal, all of one length. -/
theorem read?_tableCsv {text : String} (h : a.tableCsv = .ok text) :
    ∃ rows, Text.Csv.read? text = some (("NonTerminal" :: a.grammar.terminals.names) :: rows) ∧
      List.Forall₂ a.ShowsRow a.grammar.nonterminals rows ∧
      ∀ record ∈ ("NonTerminal" :: a.grammar.terminals.names) :: rows,
        record.length = 1 + a.grammar.terminals.size := by
  obtain ⟨rows, rfl, hrows⟩ := rows_of_tableCsv h
  have hlength : ∀ record ∈ ("NonTerminal" :: a.grammar.terminals.names) :: rows,
      record.length = 1 + a.grammar.terminals.size := by
    intro record hrecord
    rcases List.mem_cons.mp hrecord with rfl | hrecord
    · unfold SortedSet.names SortedSet.size
      rw [List.length_cons, List.length_map, Nat.add_comm]
    · exact length_of_showsRow hrows hrecord
  refine ⟨rows, Text.Csv.read?_write fun record hrecord hnil => ?_, hrows, hlength⟩
  have hlength := hlength record hrecord
  rw [hnil, List.length_nil] at hlength
  omega

end Analysis

/-- **Reports read back.** The text of any sets under any title is read as the records of the title,
the names and the members; the text of a table as its header and a row for every nonterminal, which
shows its cells, each record with a field for every symbol that a token can be behind the first one.
Every analysis has such a text, and two lists of records never have the same one. -/
theorem reports_read_back :
    (∀ (title : String) (sets : NamedSets), Text.Csv.read? (sets.csv title) =
      some ([title, "Symbols (sorted)"] :: sets.entries.map fun e =>
        [e.1, " ".intercalate e.2])) ∧
    (∀ (a : Analysis) (text : String), a.tableCsv = .ok text →
      ∃ rows, Text.Csv.read? text = some (("NonTerminal" :: a.grammar.terminals.names) :: rows) ∧
        List.Forall₂ a.ShowsRow a.grammar.nonterminals rows ∧
        ∀ record ∈ ("NonTerminal" :: a.grammar.terminals.names) :: rows,
          record.length = 1 + a.grammar.terminals.size) ∧
    (∀ (g : Grammar) (settings : Settings) (a : Analysis), Analysis.run g settings = .ok a →
      ∃ text, a.tableCsv = .ok text) ∧
    ∀ records records' : List (List String), (∀ record ∈ records, record ≠ []) →
      (∀ record ∈ records', record ≠ []) → Text.Csv.write records = Text.Csv.write records' →
      records = records' :=
  ⟨fun title sets => Text.Csv.read?_write (sets.records_ne_nil title),
    fun _ _ h => Analysis.read?_tableCsv h,
    fun _ _ _ h => Analysis.exists_tableCsv (Analysis.decides_grammar h).valid,
    fun _ _ h h' => Text.Csv.write_injective h h'⟩

/-- Commas, quotes and line breaks in the fields of some sets and of two records. -/
theorem quoted_fields_read_back :
    Text.Csv.read? (NamedSets.csv "FIRST" (.ofList [("A\"", ["x,", "\r\n"])])) =
      some [["FIRST", "Symbols (sorted)"], ["A\"", "x, \r\n"]] ∧
    (∃ a text, Analysis.run .twoRuns .defaults = .ok a ∧ a.tableCsv = .ok text ∧
      ∃ rows, Text.Csv.read? text = some (("NonTerminal" :: a.grammar.terminals.names) :: rows)) ∧
    (∀ record ∈ [["a,b"]], record ≠ []) ∧ (∀ record ∈ [["a", "b"]], record ≠ []) ∧
    Text.Csv.write [["a,b"]] ≠ Text.Csv.write [["a", "b"]] := by
  obtain ⟨hsets, htable, htext, hinjective⟩ := reports_read_back
  obtain ⟨a, h⟩ := Analysis.exists_run (g := .twoRuns) (s := .defaults) (by decide +kernel)
  obtain ⟨text, hcsv⟩ := htext _ _ a h
  obtain ⟨rows, hrows, -⟩ := htable a text hcsv
  refine ⟨hsets _ _, ⟨a, text, h, hcsv, rows, hrows⟩, by simp, by simp, fun heq => ?_⟩
  exact absurd (hinjective _ _ (by simp) (by simp) heq) (by decide)

end Predictive
