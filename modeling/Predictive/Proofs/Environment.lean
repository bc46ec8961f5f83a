import Predictive.Proofs.DecimalDigits
import Predictive.Proofs.SettingText

/-!
# Settings from an environment

The variable of a field says something if it is set and not empty (`Settings.setting?`); otherwise
the field has its default. Settings are written into an environment (`Settings.WrittenIn`) with the
limits in decimal digits, the name of the level in any letters, and the origins as the entries of a
list; a limit that is absent is unset or empty, and other variables do not matter.

The validator that reads the fields is any one that keeps the contract (`Validator.Contract`).

* `Validator.exists_offending`: the faults of a record name its offending fields, in their order.
* `Settings.ofEnvironment_eq_ok_iff`: the settings that come out are those of `Settings.GivenBy`.
* **`Settings.environment_exact`**: settings that are written into an environment are read back, and
  every environment gives valid settings or a complaint about each offending field, in their order.
-/

namespace Predictive

/-! ## Records and the fields that offend -/

namespace Validator

variable {τ : Type} {v : Validator τ} {data : List (String × Datum τ)} {fields : List (Field τ)}

/-- If every field reads, they make a record. -/
theorem exists_accepts (h : ∀ f ∈ fields, ∃ a, f.read v.value data = .ok a) :
    ∃ r, v.Accepts data fields r := by
  induction fields with
  | nil => exact ⟨(), trivial⟩
  | cons f fields ih =>
    obtain ⟨a, ha⟩ := h f List.mem_cons_self
    obtain ⟨r, hr⟩ := ih fun g hg => h g (List.mem_cons_of_mem _ hg)
    exact ⟨(a, r), ha, hr⟩

/-- A field reads, or one thing is wrong with it, and then it offends. -/
def Settles (v : Validator τ) (data : List (String × Datum τ)) (offends : String → Prop)
    (f : Field τ) : Prop :=
  ((∃ a, f.read v.value data = .ok a) ∧ ¬ offends f.name) ∨
    (∃ c, f.read v.value data = .error [⟨[.field f.name], c⟩]) ∧ offends f.name

/-- The faults of some fields name those that offend, in their order. -/
theorem exists_offending {offends : String → Prop}
    (h : ∀ f ∈ fields, v.Settles data offends f) :
    ∃ offending : List String, offending.Sublist (fields.map Field.name) ∧
      (∀ name, name ∈ offending ↔ name ∈ fields.map Field.name ∧ offends name) ∧
      (fields.flatMap fun f => (f.read v.value data).errors).map FieldError.location =
        offending.map fun name => [.field name] := by
  induction fields with
  | nil => exact ⟨[], .slnil, by simp, rfl⟩
  | cons f fields ih =>
    obtain ⟨offending, hsub, hmem, hloc⟩ := ih fun g hg => h g (List.mem_cons_of_mem _ hg)
    rw [List.map_cons, List.flatMap_cons, List.map_append, hloc]
    rcases h f List.mem_cons_self with ⟨⟨a, ha⟩, hno⟩ | ⟨⟨c, hc⟩, hyes⟩
    · refine ⟨offending, hsub.cons _, fun name => ?_, by rw [ha]; rfl⟩
      rw [hmem, List.mem_cons]
      constructor
      · exact fun ⟨hn, ho⟩ => ⟨.inr hn, ho⟩
      · rintro ⟨rfl | hn, ho⟩
        · exact absurd ho hno
        · exact ⟨hn, ho⟩
    · refine ⟨f.name :: offending, hsub.cons_cons _, fun name => ?_, by rw [hc]; rfl⟩
      rw [List.mem_cons, List.mem_cons, hmem]
      constructor
      · rintro (rfl | ⟨hn, ho⟩)
        · exact ⟨.inl rfl, hyes⟩
        · exact ⟨.inr hn, ho⟩
      · rintro ⟨rfl | hn, ho⟩
        · exact .inl rfl
        · exact .inr ⟨hn, ho⟩

end Validator

/-- The value of a name among the names that have values. -/
theorem lookup_filterMap {β : Type} (names : List String) (value? : String → Option β)
    (name : String) :
    (names.filterMap fun n => (value? n).map fun b => (n, b)).lookup name =
      if name ∈ names then value? name else none := by
  induction names with
  | nil => rfl
  | cons n names ih =>
    by_cases heq : name = n
    · subst heq
      rw [if_pos List.mem_cons_self]
      cases hvalue : value? name with
      | none =>
        rw [List.filterMap_cons_none (by rw [hvalue]; rfl), ih, hvalue, ite_self]
      | some b =>
        rw [List.filterMap_cons_some (b := (name, b)) (by rw [hvalue]; rfl), List.lookup_cons_self]
    · have hmem : name ∈ n :: names ↔ name ∈ names := by simp [heq]
      simp only [hmem, ← ih]
      cases hvalue : value? n with
      | none => rw [List.filterMap_cons_none (by rw [hvalue]; rfl)]
      | some b =>
        rw [List.filterMap_cons_some (b := (n, b)) (by rw [hvalue]; rfl),
          OrderedMap.lookup_cons_eq_ite, if_neg heq]

namespace Settings

variable {v : Validator String} {environment : List (String × String)} {s : Settings}
  {field text : String}

/-! ## What an environment says -/

/-- The text of a field's variable, if it is set and not empty. -/
def setting? (environment : List (String × String)) (field : String) : Option String :=
  (environment.lookup (variableName field)).filter (!·.isEmpty)

theorem environmentData_eq (environment : List (String × String)) :
    environmentData environment = fieldNames.filterMap fun field =>
      ((setting? environment field).map (variableDatum field)).map fun d => (field, d) := by
  unfold environmentData setting?
  refine List.filterMap_congr fun field _ => ?_
  cases environment.lookup (variableName field) with
  | none => rfl
  | some text =>
    rw [Option.filter_some]
    cases h : text.isEmpty <;> simp [h]

/-- A field is made of the text of its variable, or has its default. -/
theorem read_environmentData {f : Field String} (hf : f ∈ fields) :
    f.read v.value (environmentData environment) =
      (setting? environment f.name).elim (.ok f.absent) fun text =>
        (f.take v.value (variableDatum f.name text)).inside (.field f.name) := by
  have hdatum : (environmentData environment).lookup f.name =
      (setting? environment f.name).map (variableDatum f.name) := by
    rw [environmentData_eq, lookup_filterMap]
    exact if_pos (List.mem_map_of_mem hf)
  rw [Field.read, hdatum]
  cases setting? environment f.name <;> rfl

/-- The fields that hold a limit. -/
def limitNames : List String := ["max_follow_passes", "max_stack_depth"]

/-- What a limit is according to its text. -/
inductive LimitGiven (v : Validator String) : Option String → Option Int → Prop
  | absent : LimitGiven v none none
  | read {text : String} {n : Int} (h : v.value (.integer 1) (.text text) = .ok n) :
    LimitGiven v (some text) (some n)

/-- What the level is according to its text. -/
inductive LevelGiven : Option String → String → Prop
  | absent : LevelGiven none defaults.logLevel
  | read {text level : String} (h : Text.capitalized text = level) (hlevel : level ∈ levelNames) :
    LevelGiven (some text) level

/-- The settings that an environment gives. -/
structure GivenBy (v : Validator String) (environment : List (String × String)) (s : Settings) :
    Prop where
  passes : LimitGiven v (setting? environment "max_follow_passes") s.maxFollowPasses
  depth : LimitGiven v (setting? environment "max_stack_depth") s.maxStackDepth
  sigil : (setting? environment "nonterminal_prefix").getD defaults.sigil = s.sigil
  level : LevelGiven (setting? environment "log_level") s.logLevel
  origins : ((setting? environment "cors_origins").map listEntries).getD defaults.origins =
    s.origins

/-- What is wrong with the text of a field: it is not read as a limit, or it names no level. -/
inductive Fault (v : Validator String) : (field text : String) → Prop
  | limit {field text : String} (hfield : field ∈ limitNames)
    (h : ∀ n, v.value (.integer 1) (.text text) ≠ .ok n) : Fault v field text
  | level {text : String} (h : Text.capitalized text ∉ levelNames) : Fault v "log_level" text

/-- A field whose variable has a text with which something is wrong. -/
def Offends (v : Validator String) (environment : List (String × String)) (field : String) : Prop :=
  ∃ text, setting? environment field = some text ∧ Fault v field text

/-! ## The fields one by one -/

section Fields

variable (hv : v.Contract)

include hv

theorem take_limit (name : String) (absent : Option Int) :
    (limitField name absent).take v.value (.text text) =
      (v.value (.integer 1) (.text text)).map some :=
  (Field.take_plain _ _ _).trans (hv.optional (by simp))

theorem take_sigil : sigilField.take v.value (.text text) = .ok text :=
  (Field.take_plain _ _ _).trans (hv.text text)

theorem take_origins (texts : List String) :
    originsField.take v.value (.list (texts.map .text)) = .ok texts := by
  refine (Field.take_plain _ _ _).trans (hv.list ?_)
  rw [List.map_map]
  exact List.map_congr_left fun text _ => hv.text text

theorem take_level_of_mem (h : Text.capitalized text ∈ levelNames) :
    levelField.take v.value (.text text) = .ok (Text.capitalized text) :=
  Field.take_eq_ok (hv.text text) (checkLevel_eq_ok_iff.mpr ⟨rfl, h⟩)

theorem take_level_of_not_mem (h : Text.capitalized text ∉ levelNames) :
    levelField.take v.value (.text text) =
      .fault (.valueError ("Unknown log level '" ++ text ++ "'")) :=
  Field.take_eq_fault (hv.text text) (checkLevel_eq_error h)

end Fields

theorem Fault.of_ne_level (h : Fault v field text) (hne : field ≠ "log_level") :
    field ∈ limitNames ∧ ∀ n, v.value (.integer 1) (.text text) ≠ .ok n := by
  cases h with
  | limit hfield h => exact ⟨hfield, h⟩
  | level _ => exact absurd rfl hne

/-- A field settles if the text of its variable is taken, or if one thing is wrong with it. -/
theorem settles_of_take {f : Field String} (hf : f ∈ fields)
    (h : ∀ text,
      ((∃ a, f.take v.value (variableDatum f.name text) = .ok a) ∧ ¬ Fault v f.name text) ∨
      (∃ c, f.take v.value (variableDatum f.name text) = Checked.fault c) ∧ Fault v f.name text) :
    v.Settles (environmentData environment) (Offends v environment) f := by
  unfold Validator.Settles Offends
  rw [read_environmentData hf]
  cases hset : setting? environment f.name with
  | none => exact .inl ⟨⟨_, rfl⟩, by simp⟩
  | some text =>
    rcases h text with ⟨⟨a, ha⟩, hno⟩ | ⟨⟨c, hc⟩, hyes⟩
    · exact .inl ⟨⟨a, Checked.inside_eq_ok_iff.mpr ha⟩, by simpa using hno⟩
    · exact .inr ⟨⟨c, by rw [Option.elim_some, hc]; rfl⟩, text, rfl, hyes⟩

section Fields

variable (hv : v.Contract)

include hv

theorem settles_limit {name : String} (hname : name ∈ limitNames) {absent : Option Int}
    (hf : limitField name absent ∈ fields) :
    v.Settles (environmentData environment) (Offends v environment) (limitField name absent) := by
  refine settles_of_take hf fun text => ?_
  have hne : name ≠ "cors_origins" ∧ name ≠ "log_level" := by
    simp only [limitNames, List.mem_cons, List.not_mem_nil, or_false] at hname
    rcases hname with rfl | rfl <;> decide
  have hdatum : variableDatum (limitField name absent).name text = .text text := if_neg hne.1
  rw [hdatum, take_limit hv]
  cases hvalue : v.value (.integer 1) (.text text) with
  | ok n => exact .inl ⟨⟨some n, rfl⟩, fun h => (h.of_ne_level hne.2).2 n hvalue⟩
  | error es =>
    obtain ⟨c, rfl⟩ := hv.refused hvalue
    exact .inr ⟨⟨c, rfl⟩, .limit hname fun n hn => by rw [hvalue] at hn; cases hn⟩

theorem settles_level :
    v.Settles (environmentData environment) (Offends v environment) levelField := by
  refine settles_of_take (by simp [fields]) fun text => ?_
  by_cases h : Text.capitalized text ∈ levelNames
  · refine .inl ⟨⟨_, take_level_of_mem hv h⟩, fun hfault => ?_⟩
    cases hfault with
    | limit hfield _ => exact absurd hfield (by decide)
    | level hnot => exact hnot h
  · exact .inr ⟨⟨_, take_level_of_not_mem hv h⟩, .level h⟩

variable (environment)

/-- Every field settles. -/
theorem settles {f : Field String} (hf : f ∈ fields) :
    v.Settles (environmentData environment) (Offends v environment) f := by
  have hcases := hf
  simp only [fields, List.mem_cons, List.not_mem_nil, or_false] at hcases
  rcases hcases with rfl | rfl | rfl | rfl | rfl
  · exact settles_limit hv (by decide) hf
  · exact settles_limit hv (by decide) hf
  · exact settles_of_take hf fun text => .inl ⟨⟨text, take_sigil hv⟩,
      fun h => absurd (h.of_ne_level (by decide)).1 (by decide)⟩
  · exact settles_level hv
  · exact settles_of_take hf fun text => .inl ⟨⟨listEntries text, take_origins hv _⟩,
      fun h => absurd (h.of_ne_level (by decide)).1 (by decide)⟩

end Fields

/-! ## The values -/

/-- A field is read as what the text of its variable gives. -/
theorem read_iff_given {f : Field String} (hf : f ∈ fields)
    (Given : Option String → f.type.Value String → Prop)
    (hnone : ∀ a, Given none a ↔ f.absent = a)
    (hsome : ∀ text a, Given (some text) a ↔
      f.take v.value (variableDatum f.name text) = .ok a) (a : f.type.Value String) :
    f.read v.value (environmentData environment) = .ok a ↔
      Given (setting? environment f.name) a := by
  rw [read_environmentData hf]
  cases setting? environment f.name with
  | none => rw [hnone, Option.elim_none, Except.ok.injEq]
  | some text => rw [hsome, Option.elim_some, Checked.inside_eq_ok_iff]

section Values

variable (environment) (hv : v.Contract)

include hv

theorem read_limit_iff {name : String} (hname : name ≠ "cors_origins") (limit : Option Int)
    (hf : limitField name none ∈ fields) :
    (limitField name none).read v.value (environmentData environment) = .ok limit ↔
      LimitGiven v (setting? environment name) limit := by
  refine read_iff_given (f := limitField name none) hf (LimitGiven v) (fun limit => ?_)
    (fun text limit => ?_) limit
  · constructor
    · rintro ⟨⟩
      rfl
    · rintro rfl
      exact .absent
  · have htake : (limitField name none).take v.value (variableDatum name text) =
        (v.value (.integer 1) (.text text)).map some := by
      rw [show variableDatum name text = .text text from if_neg hname, take_limit hv]
    refine Iff.trans ⟨?_, ?_⟩ (Checked.map_eq_ok_iff.symm.trans (Eq.congr_left htake).symm)
    · rintro (_ | hn)
      exact ⟨_, hn, rfl⟩
    · rintro ⟨n, hn, rfl⟩
      exact .read hn

theorem read_level_iff (level : String) :
    levelField.read v.value (environmentData environment) = .ok level ↔
      LevelGiven (setting? environment "log_level") level := by
  refine read_iff_given (f := levelField) (by simp [fields]) LevelGiven (fun level => ?_)
    (fun text level => ?_) level
  · constructor
    · rintro ⟨⟩
      rfl
    · rintro rfl
      exact .absent
  · constructor
    · rintro (_ | ⟨rfl, h⟩)
      exact take_level_of_mem hv h
    · intro htake
      by_cases h : Text.capitalized text ∈ levelNames
      · exact .read (Except.ok.inj ((take_level_of_mem hv h).symm.trans htake))
          (Except.ok.inj ((take_level_of_mem hv h).symm.trans htake) ▸ h)
      · cases (take_level_of_not_mem hv h).symm.trans htake

theorem read_sigil_iff (sigil : String) :
    sigilField.read v.value (environmentData environment) = .ok sigil ↔
      (setting? environment "nonterminal_prefix").getD defaults.sigil = sigil :=
  read_iff_given (f := sigilField) (by simp [fields])
    (fun text? sigil => text?.getD defaults.sigil = sigil)
    (fun _ => Iff.rfl) (fun _ _ => ⟨fun h => h ▸ take_sigil hv,
      fun h => Except.ok.inj ((take_sigil hv).symm.trans h)⟩) sigil

theorem read_origins_iff (origins : List String) :
    originsField.read v.value (environmentData environment) = .ok origins ↔
      ((setting? environment "cors_origins").map listEntries).getD defaults.origins = origins :=
  read_iff_given (f := originsField) (by simp [fields])
    (fun text? origins => (text?.map listEntries).getD defaults.origins = origins)
    (fun _ => Iff.rfl) (fun _ _ => ⟨fun h => h ▸ take_origins hv _,
      fun h => Except.ok.inj ((take_origins hv _).symm.trans h)⟩) origins

variable {environment}

/-- **The settings that come out are those that the environment gives.** -/
theorem ofEnvironment_eq_ok_iff :
    ofEnvironment v environment = .ok s ↔ s.GivenBy v environment := by
  have hpasses := read_limit_iff environment hv (by decide : "max_follow_passes" ≠ "cors_origins")
    s.maxFollowPasses (by simp [fields, defaults])
  have hdepth := read_limit_iff environment hv (by decide : "max_stack_depth" ≠ "cors_origins")
    s.maxStackDepth (by simp [fields, defaults])
  have hsigil := read_sigil_iff environment hv s.sigil
  have hlevel := read_level_iff environment hv s.logLevel
  have horigins := read_origins_iff environment hv s.origins
  rw [ofEnvironment, read, Checked.map_eq_ok_iff]
  constructor
  · rintro ⟨⟨passes, depth, sigil, level, origins, ⟨⟩⟩, hr, rfl⟩
    obtain ⟨hp, hd, hs, hl, ho, -⟩ := hv.record_eq_ok_iff.mp hr
    exact ⟨hpasses.mp hp, hdepth.mp hd, hsigil.mp hs, hlevel.mp hl, horigins.mp ho⟩
  · rintro ⟨hp, hd, hs, hl, ho⟩
    exact ⟨(s.maxFollowPasses, s.maxStackDepth, s.sigil, s.logLevel, s.origins, ()),
      hv.record_eq_ok_iff.mpr ⟨hpasses.mpr hp, hdepth.mpr hd, hsigil.mpr hs, hlevel.mpr hl,
        horigins.mpr ho, trivial⟩, rfl⟩

end Values

/-! ## Settings in an environment -/

/-- The limits that there are. -/
def limits (s : Settings) : List Int := s.maxFollowPasses.toList ++ s.maxStackDepth.toList

/-- Settings that a service can run with: every limit is positive, and the level is one of five. -/
structure Valid (s : Settings) : Prop where
  limits : ∀ n ∈ s.limits, 1 ≤ n
  level : s.logLevel ∈ levelNames

/-- Valid settings that no variable would lose: the sigil and the origins are not empty, and the
origins can stand in a list. -/
structure Writable (s : Settings) : Prop extends s.Valid where
  sigil : s.sigil ≠ ""
  origins : s.origins ≠ []
  listable : ∀ o ∈ s.origins, Listable o

/-- The values that a variable can have for a limit. -/
inductive LimitText : Option Int → Option String → Prop
  | unset : LimitText none none
  | empty : LimitText none (some "")
  | digits (n : Int) : LimitText (some n) (some (toString n))

/-- An environment in which the settings are written. Other variables do not matter. -/
structure WrittenIn (s : Settings) (environment : List (String × String)) : Prop where
  passes : LimitText s.maxFollowPasses (environment.lookup (variableName "max_follow_passes"))
  depth : LimitText s.maxStackDepth (environment.lookup (variableName "max_stack_depth"))
  sigil : environment.lookup (variableName "nonterminal_prefix") = some s.sigil
  level : ∃ text, environment.lookup (variableName "log_level") = some text ∧
    text.toList.map Char.toUpper = s.logLevel.toList
  origins : ∃ entries, environment.lookup (variableName "cors_origins") =
    some (",".intercalate entries) ∧ Entries s.origins entries

theorem LimitGiven.le (hv : v.Contract) {text? : Option String} {n : Int}
    (h : LimitGiven v text? (some n)) : 1 ≤ n := by
  cases h with
  | read hvalue => exact hv.integer_least hvalue

theorem LevelGiven.mem {text? : Option String} {level : String} (h : LevelGiven text? level) :
    level ∈ levelNames := by
  cases h with
  | absent => decide
  | read _ hmem => exact hmem

theorem GivenBy.valid (hv : v.Contract) (h : s.GivenBy v environment) : s.Valid where
  limits n hn := by
    rcases List.mem_append.mp hn with hn | hn
    · exact LimitGiven.le hv (Option.mem_toList.mp hn ▸ h.passes)
    · exact LimitGiven.le hv (Option.mem_toList.mp hn ▸ h.depth)
  level := h.level.mem

theorem setting?_of_lookup (h : environment.lookup (variableName field) = some text)
    (hne : text ≠ "") : setting? environment field = some text := by
  rw [setting?, h, Option.filter_some]
  simp [hne]

/-- A positive integer has a digit. -/
theorem toString_ne_empty {n : Int} (hn : 1 ≤ n) : toString n ≠ "" := by
  obtain ⟨k, rfl⟩ := Int.eq_ofNat_of_zero_le (show 0 ≤ n by omega)
  have htext : (toString (k : Int)).toList = Nat.toDigits 10 k := Nat.toList_repr
  intro hempty
  rw [hempty] at htext
  exact Nat.toDigits_ne_nil htext.symm

theorem limitGiven_of_text {limit : Option Int}
    (h : LimitText limit (environment.lookup (variableName field)))
    (hpositive : ∀ n ∈ limit, 1 ≤ n) (hread : ∀ n ∈ limit, v.ReadsDigits n) :
    LimitGiven v (setting? environment field) limit := by
  generalize hlookup : environment.lookup (variableName field) = text? at h
  cases h with
  | unset | empty =>
    have hnone : setting? environment field = none := by rw [setting?, hlookup]; rfl
    rw [hnone]
    exact .absent
  | digits n =>
    rw [setting?_of_lookup hlookup (toString_ne_empty (hpositive n rfl))]
    exact .read (hread n rfl)

theorem levelGiven_of_letters {level : String} (hlevel : level ∈ levelNames)
    (hlookup : environment.lookup (variableName "log_level") = some text)
    (h : text.toList.map Char.toUpper = level.toList) :
    LevelGiven (setting? environment "log_level") level := by
  have hne : text ≠ "" := by
    rintro rfl
    have hempty : "" ∈ levelNames := by
      rwa [String.toList_eq_nil_iff.mp h.symm] at hlevel
    exact absurd hempty (by decide)
  rw [setting?_of_lookup hlookup hne]
  exact .read (checkLevel_eq_ok_iff.mp (checkLevel_of_letters hlevel h)).1 hlevel

/-- Settings that are written into an environment are given by it, if the digits of their limits are
read. -/
theorem WrittenIn.givenBy (h : s.WrittenIn environment) (hs : s.Writable)
    (hread : ∀ n ∈ s.limits, v.ReadsDigits n) : s.GivenBy v environment := by
  have hpasses {n : Int} (hn : n ∈ s.maxFollowPasses) : n ∈ s.limits :=
    List.mem_append_left _ (Option.mem_toList.mpr hn)
  have hdepth {n : Int} (hn : n ∈ s.maxStackDepth) : n ∈ s.limits :=
    List.mem_append_right _ (Option.mem_toList.mpr hn)
  obtain ⟨text, htext, hletters⟩ := h.level
  obtain ⟨entries, hentries, hlist⟩ := h.origins
  have horigins := listEntries_intercalate hlist hs.listable
  -- An empty text has no entries, but there are origins.
  have hne : ",".intercalate entries ≠ "" := by
    intro hempty
    rw [hempty] at horigins
    exact hs.origins horigins.symm
  constructor
  · exact limitGiven_of_text h.passes (fun n hn => hs.limits n (hpasses hn))
      fun n hn => hread n (hpasses hn)
  · exact limitGiven_of_text h.depth (fun n hn => hs.limits n (hdepth hn))
      fun n hn => hread n (hdepth hn)
  · rw [setting?_of_lookup h.sigil hs.sigil, Option.getD_some]
  · exact levelGiven_of_letters hs.level htext hletters
  · rw [setting?_of_lookup hentries hne, Option.map_some, Option.getD_some, horigins]

/-! ## The main result -/

theorem Offends.mem_fieldNames (h : Offends v environment field) : field ∈ fieldNames := by
  obtain ⟨text, -, hfault⟩ := h
  have hsubset : "log_level" :: limitNames ⊆ fieldNames := by decide
  cases hfault with
  | limit hfield _ => exact hsubset (List.mem_cons_of_mem _ hfield)
  | level _ => exact hsubset List.mem_cons_self

/-- The errors complain about each offending field once, in the order of the fields, and about a
level with its text. -/
structure ComplainsOf (v : Validator String) (environment : List (String × String))
    (es : List FieldError) : Prop where
  locations : ∃ offending : List String, offending.Sublist fieldNames ∧
    (∀ field, field ∈ offending ↔ Offends v environment field) ∧
    es.map FieldError.location = offending.map fun field => [.field field]
  level : ∀ e ∈ es, e.location = [.field "log_level"] → ∃ text,
    setting? environment "log_level" = some text ∧
      e.complaint = .valueError ("Unknown log level '" ++ text ++ "'")

/-- The faults of all fields together. -/
theorem errors_ofEnvironment (hv : v.Contract) (environment : List (String × String)) :
    (ofEnvironment v environment).errors =
      fields.flatMap fun f => (f.read v.value (environmentData environment)).errors := by
  rw [ofEnvironment, read, Checked.errors_map, hv.errors_record]

/-- The faults of a field are inside it. -/
theorem location_of_mem_errors {f : Field String} {data : List (String × Datum String)}
    {e : FieldError} (he : e ∈ (f.read v.value data).errors) :
    ∃ rest, e.location = .field f.name :: rest := by
  unfold Field.read at he
  split at he
  · cases he
  · generalize f.take v.value _ = reading at he
    cases reading with
    | ok a => cases he
    | error es =>
      obtain ⟨e', -, rfl⟩ := List.mem_map.mp he
      exact ⟨e'.location, rfl⟩

/-- A fault of the level is told with its text. -/
theorem complaint_of_mem_errors_level (hv : v.Contract) {e : FieldError}
    (he : e ∈ (levelField.read v.value (environmentData environment)).errors) :
    ∃ text, setting? environment "log_level" = some text ∧
      e.complaint = .valueError ("Unknown log level '" ++ text ++ "'") := by
  rw [read_environmentData (by simp [fields])] at he
  have hname : levelField.name = "log_level" := rfl
  rw [hname] at he
  cases hset : setting? environment "log_level" with
  | none =>
    rw [hset] at he
    cases he
  | some text =>
    have hdatum : variableDatum "log_level" text = .text text := if_neg (by decide)
    rw [hset, Option.elim_some, hdatum] at he
    by_cases h : Text.capitalized text ∈ levelNames
    · rw [take_level_of_mem hv h] at he
      cases he
    · rw [take_level_of_not_mem hv h] at he
      obtain rfl := List.mem_singleton.mp he
      exact ⟨text, rfl, rfl⟩

theorem complainsOf (hv : v.Contract) (environment : List (String × String)) :
    ComplainsOf v environment (ofEnvironment v environment).errors := by
  rw [errors_ofEnvironment hv]
  constructor
  · obtain ⟨offending, hsub, hmem, hloc⟩ :=
      Validator.exists_offending fun f hf => settles environment hv hf
    refine ⟨offending, hsub, fun field => ?_, hloc⟩
    rw [hmem]
    exact ⟨And.right, fun h => ⟨h.mem_fieldNames, h⟩⟩
  · intro e he hlocation
    obtain ⟨f, hf, he⟩ := List.mem_flatMap.mp he
    obtain ⟨rest, hrest⟩ := location_of_mem_errors he
    rw [hrest] at hlocation
    have hname : f.name = "log_level" := by
      injection hlocation with hfield
      injection hfield
    -- The names of the fields differ, so it is the field of the level.
    simp only [fields, List.mem_cons, List.not_mem_nil, or_false] at hf
    rcases hf with rfl | rfl | rfl | rfl | rfl
    · exact absurd hname (by decide)
    · exact absurd hname (by decide)
    · exact absurd hname (by decide)
    · exact complaint_of_mem_errors_level hv he
    · exact absurd hname (by decide)

/-- If no field offends, there are settings. -/
theorem exists_ofEnvironment (hv : v.Contract) (h : ∀ field, ¬ Offends v environment field) :
    ∃ s, ofEnvironment v environment = .ok s := by
  have hread : ∀ f ∈ fields, ∃ a, f.read v.value (environmentData environment) = .ok a := by
    intro f hf
    rcases settles environment hv hf with ⟨hok, -⟩ | ⟨-, hoffends⟩
    · exact hok
    · exact absurd hoffends (h f.name)
  obtain ⟨r, hr⟩ := Validator.exists_accepts hread
  exact ⟨ofRecord r, Checked.map_eq_ok_iff.mpr ⟨r, hv.record_eq_ok_iff.mpr hr, rfl⟩⟩

/-- **Settings survive an environment.** Settings that are written into an environment are read back
from it, as far as the decimal digits of their limits are read as these limits. And every environment
either gives valid settings, and no field offends, or the complaints about the fields that do, in
their order. This holds whichever validator reads the fields, if it keeps the contract. -/
theorem environment_exact (v : Validator String) (hv : v.Contract) :
    (∀ (s : Settings) (environment : List (String × String)), s.Writable →
      s.WrittenIn environment → (∀ n ∈ s.limits, v.ReadsDigits n) →
      ofEnvironment v environment = .ok s) ∧
    ∀ environment : List (String × String),
      (∃ s, ofEnvironment v environment = .ok s ∧ s.Valid ∧ s.GivenBy v environment ∧
        ∀ field, ¬ Offends v environment field) ∨
      ∃ es, ofEnvironment v environment = .error es ∧ es ≠ [] ∧ ComplainsOf v environment es := by
  constructor
  · intro s environment hs hwritten hread
    exact (ofEnvironment_eq_ok_iff hv).mpr (hwritten.givenBy hs hread)
  · intro environment
    have hcomplains := complainsOf hv environment
    obtain ⟨offending, -, hmem, hloc⟩ := hcomplains.locations
    cases hresult : ofEnvironment v environment with
    | ok s =>
      rw [hresult] at hloc
      have hnil : offending = [] := List.map_eq_nil_iff.mp hloc.symm
      have hgiven := (ofEnvironment_eq_ok_iff hv).mp hresult
      exact .inl ⟨s, rfl, hgiven.valid hv, hgiven, fun field hoffends =>
        List.not_mem_nil (hnil ▸ (hmem field).mpr hoffends)⟩
    | error es =>
      rw [hresult] at hloc hcomplains
      refine .inr ⟨es, rfl, fun hempty => ?_, hcomplains⟩
      have hnil : offending = [] := by
        rw [hempty] at hloc
        exact List.map_eq_nil_iff.mp hloc.symm
      obtain ⟨s, hs⟩ := exists_ofEnvironment hv fun field hoffends =>
        List.not_mem_nil (hnil ▸ (hmem field).mpr hoffends)
      rw [hs] at hresult
      cases hresult

/-- Settings with a limit, another sigil and two origins. -/
def twoOrigins : Settings := ⟨some 64, none, "<", "DEBUG", ["http://a.test", "http://b.test"]⟩

/-- An environment in which they are written loosely. -/
def looseEnvironment : List (String × String) :=
  [("PATH", "/bin"), ("LL1KIT_LOG_LEVEL", "deBug"), ("LL1KIT_MAX_STACK_DEPTH", ""),
    ("LL1KIT_CORS_ORIGINS", ",".intercalate [" http://a.test", "", "\thttp://b.test ", " "]),
    ("LL1KIT_MAX_FOLLOW_PASSES", "64"), ("LL1KIT_NONTERMINAL_PREFIX", "<")]

theorem looseEnvironment_read :
    (Lenient.validator some).Contract ∧ twoOrigins.Writable ∧
      twoOrigins.WrittenIn looseEnvironment ∧
      (∀ n ∈ twoOrigins.limits, (Lenient.validator some).ReadsDigits n) ∧
      ofEnvironment (Lenient.validator some) looseEnvironment = .ok twoOrigins := by
  have hlist : ∀ o ∈ twoOrigins.origins, Listable o := by
    have hlistable (o : String) (hstrip : Text.strip o.toList = o.toList) (hne : o.toList ≠ [])
        (hcomma : ',' ∉ o.toList) : Listable o :=
      ⟨fun hblank => hne (hstrip ▸ Text.strip_eq_nil_iff.mpr hblank), hstrip, hcomma⟩
    intro o ho
    simp only [twoOrigins, List.mem_cons, List.not_mem_nil, or_false] at ho
    rcases ho with rfl | rfl <;>
      exact hlistable _ (by decide +kernel) (by decide +kernel) (by decide +kernel)
  have hs : twoOrigins.Writable := ⟨⟨by decide, by decide⟩, by decide, by decide, hlist⟩
  have hentries : Entries twoOrigins.origins [" http://a.test", "", "\thttp://b.test ", " "] := by
    have hblank (c : Char) (h : Text.isBlank c = true) : Text.AllBlank [c] := by
      simpa [Text.AllBlank] using h
    exact .origin " " "http://a.test" "" (hblank ' ' rfl) Text.allBlank_nil
      (.blank Text.allBlank_nil (.origin "\t" "http://b.test" " " (hblank '\t' rfl)
        (hblank ' ' rfl) (.blank (hblank ' ' rfl) .nil)))
  have hwritten : twoOrigins.WrittenIn looseEnvironment :=
    ⟨.digits 64, .empty, rfl, ⟨"deBug", rfl, by decide⟩, _, rfl, hentries⟩
  have hread : ∀ n ∈ twoOrigins.limits, (Lenient.validator some).ReadsDigits n := by
    intro n hn
    obtain rfl : n = 64 := by simpa [twoOrigins, limits] using hn
    exact Lenient.readsDigits (by decide) (by decide +kernel)
  have hv := Lenient.validator_contract (some : String → Option String)
  exact ⟨hv, hs, hwritten, hread, (environment_exact _ hv).1 _ _ hs hwritten hread⟩

example : ofEnvironment (Lenient.validator some)
    [("LL1KIT_LOG_LEVEL", "loud"), ("LL1KIT_MAX_STACK_DEPTH", "0")] =
    .error [⟨[.field "max_stack_depth"], .belowMinimum⟩,
      ⟨[.field "log_level"], .valueError "Unknown log level 'loud'"⟩] := by
  decide +kernel

end Settings

end Predictive
