import Mathlib.Logic.Relation
import Predictive.Proofs.RuleLines
import Predictive.Proofs.Spacing

/-!
# The layout of rule lines

A grammar does not depend on the layout of the lines that it is read from: on silent lines, on the
spacing of a line, and on whether two alternatives share a line or not (`RuleLine.Edit`). An edit
changes a part of the lines, and the names that are gathered from that part stay the same, whatever
has been gathered before it.

Two lines in a row with different left-hand sides may change places: then the nonterminals come in
another order, and nothing else is different (`Grammar.SameRules`).

* `RuleLine.collect?`: gathering the names line by line, up to a bad line.
* `RuleLine.Relaid.collect?_eq`: an edit does not change what is gathered.
* `RuleLine.collect?_exchange`: nor does an exchange, but for the order.
* `Grammar.layout_irrelevant`: which lines are refused, and what a grammar does not depend on.
-/

namespace Predictive

namespace OrderedMap

variable {κ γ : Type} [DecidableEq κ] {m n : OrderedMap κ (List γ)} {k k' : κ} {xs ys : List γ}

/-! ## Maps but for the order of their keys -/

/-- Every key has the same value in both maps. -/
def SameValues (m n : OrderedMap κ γ) : Prop := ∀ k, m.find? k = n.find? k

theorem find?_extend : (m.extend k xs).find? k' =
    if k' = k then some ((m.find? k).getD [] ++ xs) else m.find? k' := find?_insert m k k' _

theorem SameValues.keys_perm {m n : OrderedMap κ γ} (h : m.SameValues n) : m.keys.Perm n.keys := by
  refine (List.perm_ext_iff_of_nodup m.distinct n.distinct).mpr fun k => ?_
  show k ∈ m.keys ↔ k ∈ n.keys
  rw [mem_keys, mem_keys, h k]

theorem SameValues.extend (h : m.SameValues n) : (m.extend k xs).SameValues (n.extend k xs) := by
  intro k'
  rw [find?_extend, find?_extend, h k, h k']

/-- Lists that are joined to the values of two keys may be joined in either order. -/
theorem sameValues_extend_extend (h : k ≠ k') :
    ((m.extend k xs).extend k' ys).SameValues ((m.extend k' ys).extend k xs) := by
  intro i
  simp only [find?_extend]
  by_cases hk : i = k
  · have hi : i ≠ k' := fun e => h (hk.symm.trans e)
    simp [hk, h]
  · by_cases hk' : i = k'
    · simp [hk', h.symm]
    · simp [hk, hk']

end OrderedMap

namespace RuleLine

/-- The alternatives of every nonterminal, as names. -/
abbrev NameRules := OrderedMap String (List (List String))

variable {lines lines' front back middle middle' : List (Option String)} {line line' : Option String}
  {rules rules' : NameRules}

/-! ## Gathering line by line -/

/-- The alternatives after one more line. -/
def absorb (rules : NameRules) : Option RuleLine → NameRules
  | none => rules
  | some r => rules.extend r.lhs r.alternatives

/-- The alternatives after some more lines, if none of them is bad. -/
def collect? (rules : NameRules) : List (Option String) → Option NameRules
  | [] => some rules
  | line :: lines => (read? line).toOption.bind fun said => collect? (absorb rules said) lines

theorem collect?_cons_of_ok {said : Option RuleLine} (h : read? line = .ok said) :
    collect? rules (line :: lines) = collect? (absorb rules said) lines := by
  rw [collect?, h]
  rfl

theorem collect?_cons_of_error {e : LineError} (h : read? line = .error e) :
    collect? rules (line :: lines) = none := by
  rw [collect?, h]
  rfl

theorem collect?_append (rules : NameRules) (front back : List (Option String)) :
    collect? rules (front ++ back) = (collect? rules front).bind (collect? · back) := by
  induction front generalizing rules with
  | nil => rfl
  | cons line front ih =>
    rw [List.cons_append, collect?, collect?, Option.bind_assoc]
    exact Option.bind_congr fun said _ => ih _

/-- Lines are read first and gathered then, which is the same. -/
theorem collect?_eq (rules : NameRules) (lines : List (Option String)) : collect? rules lines =
    (readAll lines).toOption.map fun said =>
      said.foldl (fun rules r => rules.extend r.lhs r.alternatives) rules := by
  induction lines generalizing rules with
  | nil => rfl
  | cons line lines ih =>
    rw [readAll_cons]
    cases h : read? line with
    | error e => exact collect?_cons_of_error h
    | ok said =>
      rw [collect?_cons_of_ok h, ih]
      cases said <;> cases readAll lines <;> rfl

/-! ## Edits -/

/-- Some lines in a row are laid out in another way. -/
inductive Relaid : List (Option String) → List (Option String) → Prop
  /-- A line that says nothing is inserted. -/
  | silent {line : Option String} (h : Silent line) : Relaid [] [line]
  /-- A line is set with other blanks, or with one more spelling of the empty string. -/
  | respaced {text text' : String} (h : Respaced text.toList text'.toList) :
    Relaid [some text] [some text']
  /-- A line is divided at a bar, and its left-hand side is repeated. -/
  | divided {text text' text'' : String} {before first second : List Char}
    (hfirst : ¬ HasArrow before)
    (h : text.toList = before ++ '-' :: '>' :: (first ++ '|' :: second))
    (h' : text'.toList = before ++ '-' :: '>' :: first)
    (h'' : text''.toList = before ++ '-' :: '>' :: second) :
    Relaid [some text] [some text', some text'']

/-- Some lines in a row, among others, are laid out in another way. -/
inductive Edit : List (Option String) → List (Option String) → Prop
  | intro (front back : List (Option String)) {middle middle' : List (Option String)}
    (h : Relaid middle middle') : Edit (front ++ middle ++ back) (front ++ middle' ++ back)

/-- The alternatives of two lines with one left-hand side are those of one line with a bar. -/
theorem collect?_divided {text text' text'' : String} {before first second : List Char}
    (hfirst : ¬ HasArrow before)
    (h : text.toList = before ++ '-' :: '>' :: (first ++ '|' :: second))
    (h' : text'.toList = before ++ '-' :: '>' :: first)
    (h'' : text''.toList = before ++ '-' :: '>' :: second) (rules : NameRules) :
    collect? rules [some text] = collect? rules [some text', some text''] := by
  have hcut : Cut (textOf (some text)) before (first ++ '|' :: second) := ⟨h, hfirst⟩
  have hcut' : Cut (textOf (some text')) before first := ⟨h', hfirst⟩
  have hcut'' : Cut (textOf (some text'')) before second := ⟨h'', hfirst⟩
  -- All three lines have the same text in front of the arrow: they are comments together, and
  -- without a left-hand side together.
  by_cases hs : isComment (before.dropWhile Text.isBlank) = true
  · rw [collect?_cons_of_ok (read?_of_silent (hcut.silent_iff.mpr hs)),
      collect?_cons_of_ok (read?_of_silent (hcut'.silent_iff.mpr hs)),
      collect?_cons_of_ok (read?_of_silent (hcut''.silent_iff.mpr hs))]
    rfl
  · have hread := read?_of_cut (mt hcut.silent_iff.mp hs) hcut
    have hread' := read?_of_cut (mt hcut'.silent_iff.mp hs) hcut'
    have hread'' := read?_of_cut (mt hcut''.silent_iff.mp hs) hcut''
    by_cases hlhs : Text.strip before = []
    · rw [if_pos hlhs] at hread hread'
      rw [collect?_cons_of_error hread, collect?_cons_of_error hread']
    · rw [if_neg hlhs] at hread hread' hread''
      rw [collect?_cons_of_ok hread, collect?_cons_of_ok hread', collect?_cons_of_ok hread'',
        alternativesOf_bar]
      exact congrArg some OrderedMap.extend_extend.symm

/-- **An edit does not change what is gathered.** -/
theorem Relaid.collect?_eq (h : Relaid middle middle') (rules : NameRules) :
    collect? rules middle = collect? rules middle' := by
  cases h with
  | silent h =>
    rw [collect?_cons_of_ok (read?_of_silent h)]
    rfl
  | respaced h =>
    unfold collect?
    rw [h.toOption_read?]
  | divided hfirst h h' h'' => exact collect?_divided hfirst h h' h'' rules

theorem Edit.collect?_eq (h : Edit lines lines') (rules : NameRules) :
    collect? rules lines = collect? rules lines' := by
  obtain @⟨front, back, middle, middle', hmiddle⟩ := h
  have hsame : (collect? · middle) = (collect? · middle') := funext hmiddle.collect?_eq
  simp only [collect?_append, hsame]

/-- Lines that some edits lead to, forwards or backwards. -/
theorem collect?_of_edits (h : Relation.EqvGen Edit lines lines') (rules : NameRules) :
    collect? rules lines = collect? rules lines' := by
  induction h with
  | rel _ _ h => exact h.collect?_eq rules
  | refl => rfl
  | symm _ _ _ ih => exact ih.symm
  | trans _ _ _ _ _ ih ih' => exact ih.trans ih'

/-! ## Exchanges -/

/-- The lines have different left-hand sides, if they have both one. -/
def Apart (line line' : Option String) : Prop :=
  ∀ before after before' after', Cut (textOf line) before after →
    Cut (textOf line') before' after' → Text.strip before ≠ Text.strip before'

theorem exists_cut_of_read? {r : RuleLine} (h : read? line = .ok (some r)) :
    ∃ before after, Cut (textOf line) before after ∧ r.lhs = String.ofList (Text.strip before) := by
  rcases read?_cases line with hs | ⟨text, rfl, hs, harrow | ⟨before, after, hcut⟩⟩
  · rw [read?_of_silent hs] at h
    cases h
  · rw [read?_of_not_hasArrow hs harrow] at h
    cases h
  · rw [read?_of_cut hs hcut] at h
    split at h
    · cases h
    · cases h
      exact ⟨before, after, hcut, rfl⟩

theorem Apart.lhs_ne (h : Apart line line') {r r' : RuleLine} (hr : read? line = .ok (some r))
    (hr' : read? line' = .ok (some r')) : r.lhs ≠ r'.lhs := by
  obtain ⟨before, after, hcut, hlhs⟩ := exists_cut_of_read? hr
  obtain ⟨before', after', hcut', hlhs'⟩ := exists_cut_of_read? hr'
  rw [hlhs, hlhs', Ne, String.ofList_inj]
  exact h before after before' after' hcut hcut'

theorem sameValues_absorb (h : rules.SameValues rules') (said : Option RuleLine) :
    (absorb rules said).SameValues (absorb rules' said) := by
  cases said with
  | none => exact h
  | some r => exact h.extend

/-- Gathering begins with the same values and ends with the same values. -/
theorem exists_collect? (h : rules.SameValues rules') {names : NameRules}
    (hc : collect? rules lines = some names) :
    ∃ names', collect? rules' lines = some names' ∧ names.SameValues names' := by
  induction lines generalizing rules rules' with
  | nil =>
    cases hc
    exact ⟨rules', rfl, h⟩
  | cons line lines ih =>
    cases hread : read? line with
    | error e =>
      rw [collect?_cons_of_error hread] at hc
      cases hc
    | ok said =>
      rw [collect?_cons_of_ok hread] at hc ⊢
      exact ih (sameValues_absorb h said) hc

/-- **An exchange changes only the order of what is gathered.** -/
theorem collect?_exchange (h : Apart line line') {names : NameRules}
    (hc : collect? rules (front ++ line :: line' :: back) = some names) :
    ∃ names', collect? rules (front ++ line' :: line :: back) = some names' ∧
      names.SameValues names' := by
  rw [collect?_append, Option.bind_eq_some_iff] at hc
  obtain ⟨before, hfront, hc⟩ := hc
  rw [collect?_append, hfront, Option.bind_some]
  cases hread : read? line with
  | error e =>
    rw [collect?_cons_of_error hread] at hc
    cases hc
  | ok said =>
    rw [collect?_cons_of_ok hread] at hc
    cases hread' : read? line' with
    | error e =>
      rw [collect?_cons_of_error hread'] at hc
      cases hc
    | ok said' =>
      rw [collect?_cons_of_ok hread'] at hc
      rw [collect?_cons_of_ok hread', collect?_cons_of_ok hread]
      refine exists_collect? ?_ hc
      cases said with
      | none => exact fun _ => rfl
      | some r =>
        cases said' with
        | none => exact fun _ => rfl
        | some r' => exact OrderedMap.sameValues_extend_extend (h.lhs_ne hread hread')

/-! ## Bad lines -/

theorem Wrong.read?_ne_ok {text : String} {e : LineError} (h : Wrong text e)
    (said : Option RuleLine) : read? (some text) ≠ .ok said := by
  rw [h.read?_eq]
  exact fun h => nomatch h

theorem exists_read?_eq_ok_iff {text : String} :
    (∃ said, read? (some text) = .ok said) ↔ ∀ e, ¬ Wrong text e := by
  constructor
  · rintro ⟨said, h⟩ e hwrong
    exact hwrong.read?_ne_ok said h
  · intro h
    cases hread : read? (some text) with
    | ok said => exact ⟨said, rfl⟩
    | error e =>
      obtain ⟨text', htext, hwrong⟩ := read?_eq_error_iff.mp hread
      cases htext
      exact absurd hwrong (h e)

/-- **Reading stops at the first line with which something is wrong.** -/
theorem readAll_eq_error_iff_wrong {e : LineError} : readAll lines = .error e ↔
    ∃ front text back, lines = front ++ some text :: back ∧
      (∀ earlier e', some earlier ∈ front → ¬ Wrong earlier e') ∧ Wrong text e := by
  rw [readAll_eq_error_iff]
  constructor
  · rintro ⟨front, line, back, rfl, hfront, hbad⟩
    obtain ⟨text, rfl, hwrong⟩ := read?_eq_error_iff.mp hbad
    refine ⟨front, text, back, rfl, fun earlier e' hm => ?_, hwrong⟩
    exact exists_read?_eq_ok_iff.mp (hfront _ hm) e'
  · rintro ⟨front, text, back, rfl, hfront, hwrong⟩
    refine ⟨front, some text, back, rfl, fun line hm => ?_, hwrong.read?_eq⟩
    cases line with
    | none => exact ⟨none, read?_of_silent (.inl Text.allBlank_nil)⟩
    | some earlier => exact exists_read?_eq_ok_iff.mpr fun e' => hfront earlier e' hm

/-- If something is wrong with a line, there is a first such line. -/
theorem exists_readAll_eq_error_iff : (∃ e, readAll lines = .error e) ↔
    ∃ text e, some text ∈ lines ∧ Wrong text e := by
  constructor
  · rintro ⟨e, h⟩
    obtain ⟨front, text, back, rfl, -, hwrong⟩ := readAll_eq_error_iff_wrong.mp h
    exact ⟨text, e, List.mem_append_right _ List.mem_cons_self, hwrong⟩
  · rintro ⟨text, e, hm, hwrong⟩
    cases h : readAll lines with
    | error e' => exact ⟨e', rfl⟩
    | ok said =>
      obtain ⟨r, hr⟩ := exists_read?_of_mem h hm
      exact absurd hr (hwrong.read?_ne_ok r)

/-- The message carries the line as it was given. -/
theorem Wrong.message {text : String} {e : LineError} (h : Wrong text e) :
    ∃ reason, e.message = reason ++ text := by
  cases h with
  | missingArrow | emptyLhs => exact ⟨_, rfl⟩

end RuleLine

namespace Grammar

open RuleLine

variable {start : String} {lines : List (Option String)} {tokens : Option (List String)}
  {g : Grammar} {names names' : NameRules}

/-! ## Grammars -/

/-- The grammars have the same start symbol, the same reserved words and the same alternatives; the
nonterminals may come in another order. -/
structure SameRules (g g' : Grammar) : Prop where
  start : g'.start = g.start
  vocabulary : g'.vocabulary = g.vocabulary
  nonterminals : g'.nonterminals.Perm g.nonterminals
  rules : ∀ name, g'.rules.find? name = g.rules.find? name

theorem ofLines_eq_ok_iff_collect? : ofLines start lines tokens = .ok g ↔
    ∃ names, collect? ∅ lines = some names ∧ ofNames start names tokens = g := by
  have hgather (rules : List RuleLine) : nameRules rules =
      rules.foldl (fun names r => names.extend r.lhs r.alternatives) ∅ := by
    unfold nameRules
    rw [OrderedMap.gather_eq_foldl, List.foldl_map]
  rw [ofLines_eq_ok_iff, collect?_eq]
  cases readAll lines <;> simp [Except.toOption, hgather]

/-- Names that are gathered in another order make the same grammar, but for the order. -/
theorem sameRules_ofNames (h : names.SameValues names') (start : String)
    (tokens : Option (List String)) :
    (ofNames start names tokens).SameRules (ofNames start names' tokens) := by
  have hcontains : names.contains = names'.contains := by
    funext name
    unfold OrderedMap.contains
    rw [h name]
  refine ⟨rfl, SortedSet.ext fun word => ?_, ?_, fun name => ?_⟩
  · cases tokens with
    | some words => rfl
    | none =>
      rw [vocabulary_ofNames_none, vocabulary_ofNames_none, mem_inferredWords, mem_inferredWords,
        hcontains]
      simp only [h _]
  · rw [nonterminals_ofNames, nonterminals_ofNames]
    exact h.keys_perm.symm
  · rw [find?_ofNames, find?_ofNames, h name, hcontains]

theorem ofLines_eq_error_iff {e : LineError} :
    ofLines start lines tokens = .error e ↔ readAll lines = .error e := by
  have hread : ofLines start lines tokens = (readAll lines).map fun rules =>
      ofNames start (nameRules rules) tokens := rfl
  rw [hread]
  cases readAll lines <;> simp [Except.map]

/-- **The layout of the lines does not matter.** Lines are refused iff something is wrong with one
of them, and the message carries the first such line. If they are not refused, the same grammar is
read in any other layout of them: whatever silent lines there are, in any spacing, and with the
alternatives of a line on several lines or on one. Two lines in a row with different left-hand sides
may change places, which can change the order of the nonterminals and nothing else. -/
theorem layout_irrelevant (start : String) (lines : List (Option String))
    (tokens : Option (List String)) :
    ((∃ e, ofLines start lines tokens = .error e) ↔
      ∃ text e, some text ∈ lines ∧ Wrong text e) ∧
    (∀ e, ofLines start lines tokens = .error e ↔ ∃ front text back,
      lines = front ++ some text :: back ∧
        (∀ earlier e', some earlier ∈ front → ¬ Wrong earlier e') ∧ Wrong text e) ∧
    (∀ text e, Wrong text e → ∃ reason, e.message = reason ++ text) ∧
    ∀ g, ofLines start lines tokens = .ok g →
      (∀ lines', Relation.EqvGen Edit lines lines' → ofLines start lines' tokens = .ok g) ∧
      ∀ front line line' back, lines = front ++ line :: line' :: back → Apart line line' →
        ∃ g', ofLines start (front ++ line' :: line :: back) tokens = .ok g' ∧ g.SameRules g' := by
  simp only [ofLines_eq_error_iff]
  refine ⟨exists_readAll_eq_error_iff, fun e => readAll_eq_error_iff_wrong,
    fun text e => Wrong.message, fun g hg => ⟨fun lines' hedits => ?_, ?_⟩⟩
  · obtain ⟨names, hnames, hof⟩ := ofLines_eq_ok_iff_collect?.mp hg
    exact ofLines_eq_ok_iff_collect?.mpr ⟨names, collect?_of_edits hedits ∅ ▸ hnames, hof⟩
  · rintro front line line' back rfl hapart
    obtain ⟨names, hnames, rfl⟩ := ofLines_eq_ok_iff_collect?.mp hg
    obtain ⟨names', hnames', hsame⟩ := collect?_exchange hapart hnames
    exact ⟨_, ofLines_eq_ok_iff_collect?.mpr ⟨names', hnames', rfl⟩,
      sameRules_ofNames hsame start tokens⟩

/-- Two alternatives on one line. -/
def shortLines : List (Option String) := [some "A -> x | y B", some "B->z"]

/-- The same on two lines below a comment, with a spelling of the empty string. -/
def longLines : List (Option String) :=
  [some "// B -> y", some "A -> x ", some "A -> y Eps B", some "B->z"]

/-- The grammar of the lines. -/
def laidOut : Grammar :=
  .build "A" (.ofList [
    ("A", [[.terminal "x"], [.terminal "y", .nonterminal "B"]]),
    ("B", [[.terminal "z"]])]) (.ofList ["x", "y", "z"])

theorem edits_longLines : Relation.EqvGen Edit shortLines longLines := by
  have hfirst : ¬ HasArrow "A ".toList := by
    unfold HasArrow
    decide
  have hblank : Text.AllBlank " ".toList := List.all_eq_true.mp (by decide)
  have hdivided : Relaid [some "A -> x | y B"] [some "A -> x ", some "A -> y B"] :=
    @Relaid.divided _ _ _ "A ".toList " x ".toList " y B".toList hfirst
      (by decide) (by decide) (by decide)
  have hrespaced : Respaced "A -> y B".toList "A -> y Eps B".toList :=
    @Respaced.spelling "A ".toList " y".toList " ".toList " ".toList "Eps".toList "B".toList
      hfirst hblank (by decide) hblank (by decide) (by decide)
  have hsilent : Silent (some "// B -> y") := .inr (.inr (by decide))
  have hone : Edit shortLines [some "A -> x ", some "A -> y B", some "B->z"] :=
    .intro [] [some "B->z"] hdivided
  have htwo : Edit [some "A -> x ", some "A -> y B", some "B->z"]
      [some "A -> x ", some "A -> y Eps B", some "B->z"] :=
    .intro [some "A -> x "] [some "B->z"] (.respaced hrespaced)
  have hthree : Edit [some "A -> x ", some "A -> y Eps B", some "B->z"] longLines :=
    .intro [] [some "A -> x ", some "A -> y Eps B", some "B->z"] (.silent hsilent)
  exact .trans _ _ _ (.rel _ _ hone) (.trans _ _ _ (.rel _ _ htwo) (.rel _ _ hthree))

theorem apart_shortLines : Apart (some "A -> x | y B") (some "B->z") := by
  intro before after before' after' h h'
  have hleft : splitArrow? (textOf (some "A -> x | y B")) =
      some ("A ".toList, " x | y B".toList) := by decide
  have hleft' : splitArrow? (textOf (some "B->z")) = some ("B".toList, "z".toList) := by decide
  rw [splitArrow?_eq_some_iff.mpr ⟨h.eq, h.first⟩] at hleft
  rw [splitArrow?_eq_some_iff.mpr ⟨h'.eq, h'.first⟩] at hleft'
  cases hleft
  cases hleft'
  decide

/-- The layouts are read alike; a line without a left-hand side behind them is refused, and so is
one without an arrow, but later. -/
theorem laidOut_layouts : Relation.EqvGen Edit shortLines longLines ∧
    ofLines "A" shortLines none = .ok laidOut ∧ ofLines "A" longLines none = .ok laidOut ∧
    Apart (some "A -> x | y B") (some "B->z") ∧
    (∃ g', ofLines "A" [some "B->z", some "A -> x | y B"] none = .ok g' ∧ laidOut.SameRules g') ∧
    Wrong " -> x" (.emptyLhs " -> x") ∧
    ofLines "A" (longLines ++ [some " -> x", some "y"]) none = .error (.emptyLhs " -> x") := by
  have hread : ofLines "A" shortLines none = .ok laidOut := by decide +kernel
  obtain ⟨-, -, -, hsame⟩ := layout_irrelevant "A" shortLines none
  obtain ⟨hnone, -, -, -⟩ := layout_irrelevant "A" longLines none
  obtain ⟨hedits, hexchange⟩ := hsame laidOut hread
  have hlong := hedits longLines edits_longLines
  have hcut : Cut " -> x".toList " ".toList " x".toList := ⟨by decide, by unfold HasArrow; decide⟩
  have hblank : Text.AllBlank " ".toList := List.all_eq_true.mp (by decide)
  have hsilent : ¬ Silent (some " -> x") := by
    rw [silent_iff]
    decide
  have hwrong : Wrong " -> x" (.emptyLhs " -> x") := .emptyLhs hsilent hcut hblank
  obtain ⟨-, hrefused, -, -⟩ := layout_irrelevant "A" (longLines ++ [some " -> x", some "y"]) none
  refine ⟨edits_longLines, hread, hlong, apart_shortLines,
    hexchange [] _ _ [] rfl apart_shortLines, hwrong, (hrefused _).mpr ?_⟩
  refine ⟨longLines, " -> x", [some "y"], rfl, fun earlier e he hearlier => ?_, hwrong⟩
  obtain ⟨e', he'⟩ := hnone.mpr ⟨earlier, e, he, hearlier⟩
  rw [hlong] at he'
  cases he'

end Grammar

end Predictive
