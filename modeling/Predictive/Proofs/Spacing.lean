import Predictive.Proofs.RuleText

/-!
# White space in a rule line

What a line says is said here by the line as it is given, with its first arrow (`RuleLine.Cut`) and
with the white space that is lost when it is read. A line says nothing if it is absent, blank or a
comment (`RuleLine.Silent`). Something is wrong with it if it says something and has no arrow, or
nothing but blanks in front of the first one (`RuleLine.Wrong`).

Another spacing of a line (`RuleLine.Respaced`) has other blanks at its ends, around the first arrow,
around a bar or in a gap between two names, or one more spelling of the empty string there.

* `Text.words_gap`: a gap divides the words, however long it is.
* `RuleLine.alternativesOf_congr`: a change within an alternative, from one bar to the next, matters
  only if it changes the names there.
* `RuleLine.read?_of_cut`: what a line with an arrow says.
* `RuleLine.read?_eq_error_iff`: which lines are no productions, and what is said of them.
* `RuleLine.Respaced.toOption_read?`: a line says the same in another spacing.
-/

namespace Predictive

namespace Text

variable {p : Char → Bool} {cs front back gap : List Char} {c : Char}

/-! ## Blanks -/

theorem strip_eq_nil_iff : strip cs = [] ↔ AllBlank cs := by
  have hstrip : strip cs = (cs.dropWhile isBlank).rdropWhile isBlank := trim_eq isBlank cs
  rw [hstrip, List.rdropWhile_eq_nil_iff]
  constructor
  · intro h c hc
    rw [← List.takeWhile_append_dropWhile (p := isBlank) (l := cs), List.mem_append] at hc
    exact hc.elim List.mem_takeWhile_imp (h c)
  · exact fun h c hc => h c ((List.dropWhile_sublist isBlank).subset hc)

/-! ## Trimming -/

theorem strip_infix (cs : List Char) : strip cs <:+: cs :=
  (List.rdropWhile_prefix isBlank _).isInfix.trans (List.dropWhile_suffix isBlank).isInfix

/-- Nothing is dropped behind a character that is kept. -/
theorem dropWhile_append_cons (hc : p c = false) (front back : List Char) :
    (front ++ c :: back).dropWhile p = front.dropWhile p ++ c :: back := by
  rw [List.dropWhile_append]
  split
  · rename_i hnil
    rw [List.isEmpty_iff.mp hnil, List.dropWhile_cons_of_neg (by simp [hc])]
    rfl
  · rfl

/-- Nothing is dropped in front of a character that is kept. -/
theorem rdropWhile_append_cons (hc : p c = false) (front back : List Char) :
    (front ++ c :: back).rdropWhile p = front ++ c :: back.rdropWhile p := by
  unfold List.rdropWhile
  have hreverse : (front ++ c :: back).reverse = back.reverse ++ c :: front.reverse := by simp
  rw [hreverse, dropWhile_append_cons hc]
  simp

/-- Blanks at the ends are trimmed. -/
theorem strip_append (hfront : AllBlank front) (hback : AllBlank back) (cs : List Char) :
    strip (front ++ cs ++ back) = strip cs := by
  have hleft : (front ++ cs ++ back).dropWhile isBlank = (cs ++ back).dropWhile isBlank := by
    rw [List.append_assoc, List.dropWhile_append_of_pos hfront]
  have hright (u : List Char) : (u ++ back).rdropWhile isBlank = u.rdropWhile isBlank := by
    unfold List.rdropWhile
    rw [List.reverse_append,
      List.dropWhile_append_of_pos fun c hc => hback c (List.mem_reverse.mp hc)]
  unfold strip
  rw [trim_eq, trim_eq, hleft, List.dropWhile_append]
  split
  · rename_i hnil
    rw [List.isEmpty_iff.mp hnil, List.dropWhile_eq_nil_iff.mpr hback]
  · exact hright _

/-! ## Words -/

/-- **A gap divides the words**, however long it is. -/
theorem words_gap (hgap : AllBlank gap) (hne : gap ≠ []) (front back : List Char) :
    words (front ++ gap ++ back) = words front ++ words back := by
  induction gap generalizing front with
  | nil => exact absurd rfl hne
  | cons c gap ih =>
    have hc : isBlank c = true := hgap c List.mem_cons_self
    rw [List.append_assoc, List.cons_append, words_append_cons front _ hc]
    cases gap with
    | nil => rfl
    | cons d gap =>
      have hrest := ih (fun e he => hgap e (List.mem_cons_of_mem c he)) (List.cons_ne_nil d gap) []
      rw [List.nil_append] at hrest
      rw [hrest]
      rfl

/-- Blanks at the ends make no words. -/
theorem words_margins (hfront : AllBlank front) (hback : AllBlank back) (cs : List Char) :
    words (front ++ cs ++ back) = words cs := by
  have hleft (u : List Char) : words (front ++ u) = words u := by
    cases front with
    | nil => rfl
    | cons c front =>
      have hgap := words_gap hfront (List.cons_ne_nil c front) [] u
      rwa [List.nil_append] at hgap
  rw [List.append_assoc, hleft]
  cases back with
  | nil => rw [List.append_nil]
  | cons c back =>
    have hgap := words_gap hback (List.cons_ne_nil c back) cs []
    rw [List.append_nil] at hgap
    rw [hgap]
    exact List.append_nil _

end Text

namespace RuleLine

open Text (AllBlank)

variable {cs before after front back left right gap gap' word : List Char} {line : Option String}

/-! ## Alternatives -/

/-- The names of two texts with a gap between them. -/
theorem namesOf_gap (hgap : AllBlank gap) (hne : gap ≠ []) (front back : List Char) :
    namesOf (front ++ gap ++ back) = namesOf front ++ namesOf back := by
  unfold namesOf
  rw [Text.words_gap hgap hne, List.filter_append, List.map_append]

theorem namesOf_margins (hleft : AllBlank left) (hright : AllBlank right) (cs : List Char) :
    namesOf (left ++ cs ++ right) = namesOf cs := by
  unfold namesOf
  rw [Text.words_margins hleft hright]

/-- A bar divides the alternatives. -/
theorem alternativesOf_bar (front back : List Char) :
    alternativesOf (front ++ '|' :: back) = alternativesOf front ++ alternativesOf back := by
  unfold alternativesOf
  rw [List.splitOn_append_cons_self, List.map_append]

theorem alternativesOf_of_not_mem (h : '|' ∉ cs) : alternativesOf cs = [namesOf cs] := by
  unfold alternativesOf
  rw [List.splitOn_eq_singleton h, List.map_singleton]

/-- What is in front of the last bar, and what is behind it. -/
theorem exists_lastBar (cs : List Char) : ∃ last, last <:+ cs ∧ '|' ∉ last ∧
    (cs = last ∨ ∃ earlier, cs = earlier ++ '|' :: last) := by
  by_cases h : '|' ∈ cs
  · obtain ⟨last, earlier, heq, hlast⟩ := List.eq_append_cons_of_mem (List.mem_reverse.mpr h)
    have hcs : cs = earlier.reverse ++ '|' :: last.reverse := by
      rw [← List.reverse_inj, heq]
      simp
    refine ⟨last.reverse, ?_, by simpa using hlast, .inr ⟨_, hcs⟩⟩
    exact ⟨earlier.reverse ++ ['|'], by simp [hcs]⟩
  · exact ⟨cs, List.suffix_rfl, h, .inl rfl⟩

/-- What is in front of the first bar, and what is behind it. -/
theorem exists_firstBar (cs : List Char) : ∃ first, first <+: cs ∧ '|' ∉ first ∧
    (cs = first ∨ ∃ later, cs = first ++ '|' :: later) := by
  by_cases h : '|' ∈ cs
  · obtain ⟨first, later, rfl, hfirst⟩ := List.eq_append_cons_of_mem h
    exact ⟨first, List.prefix_append _ _, hfirst, .inr ⟨later, rfl⟩⟩
  · exact ⟨cs, List.prefix_rfl, h, .inl rfl⟩

/-- **A change within an alternative** matters only if it changes the names there. -/
theorem alternativesOf_congr {middle middle' : List Char} (hbar : '|' ∉ middle)
    (hbar' : '|' ∉ middle')
    (h : ∀ last first, last <:+ front → first <+: back →
      namesOf (last ++ middle ++ first) = namesOf (last ++ middle' ++ first)) :
    alternativesOf (front ++ middle ++ back) = alternativesOf (front ++ middle' ++ back) := by
  obtain ⟨last, hsuffix, hlast, hfront⟩ := exists_lastBar front
  obtain ⟨first, hprefix, hfirst, hback⟩ := exists_firstBar back
  have hone : alternativesOf (last ++ middle ++ first) =
      alternativesOf (last ++ middle' ++ first) := by
    rw [alternativesOf_of_not_mem (by simp [hlast, hbar, hfirst]),
      alternativesOf_of_not_mem (by simp [hlast, hbar', hfirst]), h last first hsuffix hprefix]
  have hright : alternativesOf (last ++ middle ++ back) =
      alternativesOf (last ++ middle' ++ back) := by
    rcases hback with rfl | ⟨later, rfl⟩
    · exact hone
    · rw [← List.append_assoc, ← List.append_assoc, alternativesOf_bar, alternativesOf_bar, hone]
  rcases hfront with rfl | ⟨earlier, rfl⟩
  · exact hright
  · simp only [List.append_assoc, List.cons_append] at hright ⊢
    rw [alternativesOf_bar, alternativesOf_bar, hright]

/-- Blanks at the ends of the right-hand side do not matter. -/
theorem alternativesOf_margins (hleft : AllBlank left) (hright : AllBlank right)
    (cs : List Char) : alternativesOf (left ++ cs ++ right) = alternativesOf cs := by
  have hnot {gap : List Char} (h : AllBlank gap) : '|' ∉ gap := h.not_mem (by decide)
  have hfront : alternativesOf ([] ++ left ++ (cs ++ right)) =
      alternativesOf ([] ++ [] ++ (cs ++ right)) := by
    refine alternativesOf_congr (hnot hleft) List.not_mem_nil fun last first hlast _ => ?_
    obtain rfl := List.suffix_nil.mp hlast
    have hmargins := namesOf_margins hleft Text.allBlank_nil first
    rwa [List.append_nil] at hmargins
  have hback : alternativesOf (cs ++ right ++ []) = alternativesOf (cs ++ [] ++ []) := by
    refine alternativesOf_congr (hnot hright) List.not_mem_nil fun last first _ hfirst => ?_
    obtain rfl := List.prefix_nil.mp hfirst
    simpa using namesOf_margins Text.allBlank_nil hright last
  simp only [List.nil_append, List.append_nil] at hfront hback
  rw [List.append_assoc, hfront, hback]

/-! ## What a line says -/

/-- The first arrow of a text is between two parts. -/
structure Cut (cs before after : List Char) : Prop where
  eq : cs = before ++ '-' :: '>' :: after
  first : ¬ HasArrow before

/-- The text of a line; that of an absent one is empty. -/
def textOf (line : Option String) : List Char := (line.getD "").toList

/-- The line is absent, blank or a comment. -/
def Silent (line : Option String) : Prop :=
  AllBlank (textOf line) ∨ ['#'] <+: Text.strip (textOf line) ∨
    ['/', '/'] <+: Text.strip (textOf line)

/-- What is wrong with a line that says something and is no production: it has no arrow, or nothing
but blanks in front of the first one. -/
inductive Wrong (text : String) : LineError → Prop
  | missingArrow (hs : ¬ Silent (some text)) (h : ¬ HasArrow text.toList) :
    Wrong text (.missingArrow text)
  | emptyLhs {before after : List Char} (hs : ¬ Silent (some text))
    (h : Cut text.toList before after) (hblank : AllBlank before) : Wrong text (.emptyLhs text)

theorem silent_iff : Silent line ↔
    Text.strip (textOf line) = [] ∨ isComment (Text.strip (textOf line)) = true := by
  have hhash (cs : List Char) : cs.head? = some '#' ↔ ['#'] <+: cs := by
    cases cs <;> simp [eq_comm]
  unfold Silent
  rw [Text.strip_eq_nil_iff, isComment_iff, hhash]

theorem splitArrow?_eq_none_iff : splitArrow? cs = none ↔ ¬ HasArrow cs := by
  fun_induction splitArrow? cs with
  | case1 => simp [HasArrow]
  | case2 rest => simp [hasArrow_cons]
  | case3 c rest hne ih =>
    rw [Option.map_eq_none_iff, ih, hasArrow_cons, or_iff_right]
    rintro ⟨hc, hhead⟩
    obtain ⟨later, rfl⟩ := List.head?_eq_some_iff.mp hhead
    exact hne later hc rfl

theorem exists_cut (h : HasArrow cs) : ∃ before after, Cut cs before after := by
  cases hcut : splitArrow? cs with
  | none => exact absurd h (splitArrow?_eq_none_iff.mp hcut)
  | some parts =>
    obtain ⟨heq, hfirst⟩ := splitArrow?_eq_some_iff.mp hcut
    exact ⟨parts.1, parts.2, heq, hfirst⟩

/-- A trimmed text is cut at the same arrow. -/
theorem Cut.strip (h : Cut cs before after) :
    Cut (Text.strip cs) (before.dropWhile Text.isBlank) (after.rdropWhile Text.isBlank) where
  eq := by
    have harrow (u v : List Char) : u ++ '-' :: '>' :: v = (u ++ ['-']) ++ '>' :: v := by simp
    rw [h.eq, Text.strip, Text.trim_eq, Text.dropWhile_append_cons (by decide), harrow,
      Text.rdropWhile_append_cons (by decide), ← harrow]
  first harrow := h.first (harrow.trans (List.dropWhile_suffix Text.isBlank).isInfix)

/-- A line with an arrow is silent iff it begins a comment in front of the arrow. -/
theorem Cut.silent_iff (h : Cut (textOf line) before after) :
    Silent line ↔ isComment (before.dropWhile Text.isBlank) = true := by
  rw [RuleLine.silent_iff, h.strip.eq, isComment_append_cons (by decide) (by decide)]
  exact or_iff_right (by simp)

theorem read?_of_silent (h : Silent line) : read? line = .ok none := by
  unfold read?
  exact if_pos (by simpa [textOf] using silent_iff.mp h)

theorem read?_of_not_hasArrow (hs : ¬ Silent line) (h : ¬ HasArrow (textOf line)) :
    read? line = .error (.missingArrow (line.getD "")) := by
  have hstrip : ¬ HasArrow (Text.strip (textOf line)) := fun harrow =>
    h (harrow.trans (Text.strip_infix _))
  unfold read?
  simp only
  rw [if_neg (by simpa [textOf] using mt silent_iff.mpr hs)]
  have hnone := splitArrow?_eq_none_iff.mpr hstrip
  unfold textOf at hnone
  rw [hnone]

/-- What a line with an arrow says. -/
theorem read?_of_cut (hs : ¬ Silent line) (h : Cut (textOf line) before after) :
    read? line = if Text.strip before = [] then .error (.emptyLhs (line.getD ""))
      else .ok (some ⟨String.ofList (Text.strip before), alternativesOf after⟩) := by
  have hcut := splitArrow?_eq_some_iff.mpr ⟨h.strip.eq, h.strip.first⟩
  have hlhs : Text.strip (before.dropWhile Text.isBlank) = Text.strip before := by
    rw [Text.strip, Text.trim_eq, List.dropWhile_idempotent]
    rfl
  have halternatives : alternativesOf (after.rdropWhile Text.isBlank) = alternativesOf after := by
    have hend : AllBlank (after.rtakeWhile Text.isBlank) := fun c => List.mem_rtakeWhile_imp
    have hmargins := alternativesOf_margins Text.allBlank_nil hend (after.rdropWhile Text.isBlank)
    rw [List.nil_append, List.rdropWhile_append_rtakeWhile] at hmargins
    exact hmargins.symm
  unfold textOf at hcut
  unfold read?
  simp only
  rw [if_neg (by simpa [textOf] using mt silent_iff.mpr hs), hcut]
  simp only [hlhs, halternatives, List.isEmpty_iff]

/-- A line says something, or nothing, or something is wrong with it. -/
theorem read?_cases (line : Option String) : Silent line ∨
    ∃ text, line = some text ∧ ¬ Silent line ∧ (¬ HasArrow text.toList ∨
      ∃ before after, Cut text.toList before after) := by
  by_cases hs : Silent line
  · exact .inl hs
  · cases line with
    | none => exact absurd (.inl Text.allBlank_nil) hs
    | some text =>
      refine .inr ⟨text, rfl, hs, ?_⟩
      by_cases harrow : HasArrow text.toList
      · exact .inr (exists_cut harrow)
      · exact .inl harrow

theorem Wrong.read?_eq {text : String} {e : LineError} (h : Wrong text e) :
    read? (some text) = .error e := by
  cases h with
  | missingArrow hs h => exact read?_of_not_hasArrow hs h
  | emptyLhs hs h hblank =>
    rw [read?_of_cut hs h, if_pos (Text.strip_eq_nil_iff.mpr hblank)]
    rfl

/-- **Which lines are no productions**, and what is said of them. -/
theorem read?_eq_error_iff {e : LineError} :
    read? line = .error e ↔ ∃ text, line = some text ∧ Wrong text e := by
  constructor
  · intro h
    rcases read?_cases line with hs | ⟨text, rfl, hs, harrow | ⟨before, after, hcut⟩⟩
    · rw [read?_of_silent hs] at h
      cases h
    · rw [read?_of_not_hasArrow hs harrow] at h
      cases h
      exact ⟨text, rfl, .missingArrow hs harrow⟩
    · rw [read?_of_cut hs hcut] at h
      split at h
      · rename_i hblank
        cases h
        exact ⟨text, rfl, .emptyLhs hs hcut (Text.strip_eq_nil_iff.mp hblank)⟩
      · cases h
  · rintro ⟨text, rfl, hwrong⟩
    exact hwrong.read?_eq

/-! ## Spacing -/

/-- The text of a line is set with other blanks. -/
inductive Respaced : List Char → List Char → Prop
  /-- There are more blanks at the ends. -/
  | margins {cs left right : List Char} (hleft : AllBlank left) (hright : AllBlank right) :
    Respaced cs (left ++ cs ++ right)
  /-- There are more blanks around the first arrow. -/
  | arrow {before left right after : List Char} (hfirst : ¬ HasArrow before)
    (hleft : AllBlank left) (hright : AllBlank right) :
    Respaced (before ++ '-' :: '>' :: after) (before ++ left ++ '-' :: '>' :: (right ++ after))
  /-- There are more blanks around a bar on the right of the first arrow. -/
  | bar {before front left right back : List Char} (hfirst : ¬ HasArrow before)
    (hleft : AllBlank left) (hright : AllBlank right) :
    Respaced (before ++ '-' :: '>' :: (front ++ '|' :: back))
      (before ++ '-' :: '>' :: (front ++ left ++ '|' :: (right ++ back)))
  /-- A gap between two names is another one. -/
  | gap {before front gap gap' back : List Char} (hfirst : ¬ HasArrow before)
    (hgap : AllBlank gap) (hne : gap ≠ []) (hgap' : AllBlank gap') (hne' : gap' ≠ []) :
    Respaced (before ++ '-' :: '>' :: (front ++ gap ++ back))
      (before ++ '-' :: '>' :: (front ++ gap' ++ back))
  /-- In a gap between two names there is one more spelling of the empty string. -/
  | spelling {before front gap gap' word back : List Char} (hfirst : ¬ HasArrow before)
    (hgap : AllBlank gap) (hne : gap ≠ []) (hgap' : AllBlank gap') (hne' : gap' ≠ [])
    (hword : isEmptySpelling word = true) :
    Respaced (before ++ '-' :: '>' :: (front ++ gap ++ back))
      (before ++ '-' :: '>' :: (front ++ (gap ++ word ++ gap') ++ back))

/-- No letter of a spelling of the empty string is a blank. -/
theorem lower_of_isBlank {c : Char} (h : Text.isBlank c = true) : lower c = c := by
  have hne : c ≠ 'Ε' := by
    rintro rfl
    cases h
  have hcapital : ¬ (65 ≤ c.toNat ∧ c.toNat ≤ 90) := by
    simp only [Text.isBlank, Bool.or_eq_true, Bool.and_eq_true, decide_eq_true_eq] at h
    omega
  unfold lower Char.toLower
  rw [if_neg hne]
  refine dif_neg fun hc => hcapital ⟨?_, ?_⟩
  · exact UInt32.le_iff_toNat_le.mp hc.1
  · exact UInt32.le_iff_toNat_le.mp hc.2

/-- A spelling of the empty string is a word without a bar. -/
theorem isWord_of_isEmptySpelling (h : isEmptySpelling word = true) :
    Text.IsWord word ∧ '|' ∉ word := by
  have hspelling : word.map lower ∈ ["ε".toList, "eps".toList, "epsilon".toList] :=
    of_decide_eq_true h
  have hletters : ∀ c ∈ word.map lower, Text.isBlank c = false ∧ c ≠ '|' := by
    have hall : (["ε".toList, "eps".toList, "epsilon".toList].all
        (·.all fun c => !Text.isBlank c && c != '|')) = true := by decide
    intro c hc
    simpa using List.all_eq_true.mp (List.all_eq_true.mp hall _ hspelling) c hc
  refine ⟨⟨?_, fun c hc => ?_⟩, fun hbar => ?_⟩
  · rintro rfl
    exact absurd h (by decide)
  · by_contra hblank
    rw [Bool.not_eq_false] at hblank
    have hletter := (hletters (lower c) (List.mem_map_of_mem hc)).1
    rw [lower_of_isBlank hblank, hblank] at hletter
    cases hletter
  · exact (hletters (lower '|') (List.mem_map_of_mem hbar)).2 (by decide)

/-- A gap with a spelling of the empty string in it is a gap. -/
theorem namesOf_spelling (hgap : AllBlank gap) (hne : gap ≠ []) (hgap' : AllBlank gap')
    (hne' : gap' ≠ []) (hword : isEmptySpelling word = true) (front back : List Char) :
    namesOf (front ++ (gap ++ word ++ gap') ++ back) = namesOf front ++ namesOf back := by
  have hnone : namesOf word = [] := by
    unfold namesOf
    rw [Text.words_of_isWord (isWord_of_isEmptySpelling hword).1]
    simp [hword]
  have hassoc : front ++ (gap ++ word ++ gap') ++ back = front ++ gap ++ (word ++ gap' ++ back) := by
    simp
  rw [hassoc, namesOf_gap hgap hne, namesOf_gap hgap' hne', hnone, List.nil_append]

/-- Lines say the same that agree in front of their first arrow, but for blanks, and in the
alternatives behind it. -/
theorem toOption_read?_of_cut {line' : Option String} {before' after' : List Char}
    (h : Cut (textOf line) before after) (h' : Cut (textOf line') before' after')
    (hcomment : isComment (before.dropWhile Text.isBlank) =
      isComment (before'.dropWhile Text.isBlank))
    (hlhs : Text.strip before = Text.strip before')
    (halternatives : alternativesOf after = alternativesOf after') :
    (read? line).toOption = (read? line').toOption := by
  have hsilent : Silent line ↔ Silent line' := by rw [h.silent_iff, h'.silent_iff, hcomment]
  by_cases hs : Silent line
  · rw [read?_of_silent hs, read?_of_silent (hsilent.mp hs)]
  · rw [read?_of_cut hs h, read?_of_cut (mt hsilent.mpr hs) h', hlhs, halternatives]
    split <;> rfl

/-- What a line says is read off its trimmed text. -/
theorem toOption_read?_of_strip {line' : Option String}
    (h : Text.strip (textOf line) = Text.strip (textOf line')) :
    (read? line).toOption = (read? line').toOption := by
  unfold textOf at h
  unfold read?
  simp only [h]
  split
  · rfl
  · split
    · rfl
    · split <;> rfl

/-- Blanks in front of the first arrow neither begin nor end a comment. -/
theorem isComment_append_blanks (h : AllBlank left) (before : List Char) :
    isComment ((before ++ left).dropWhile Text.isBlank) =
      isComment (before.dropWhile Text.isBlank) := by
  rw [List.dropWhile_append]
  split
  · rename_i hnil
    rw [List.isEmpty_iff.mp hnil, List.dropWhile_eq_nil_iff.mpr h]
  · cases left with
    | nil => rw [List.append_nil]
    | cons c left =>
      have hc : Text.isBlank c = true := h c List.mem_cons_self
      refine isComment_append_cons ?_ ?_ _ left
      · rintro rfl
        cases hc
      · rintro rfl
        cases hc

/-- **A line says the same in another spacing.** -/
theorem Respaced.toOption_read? {text text' : String} (h : Respaced text.toList text'.toList) :
    (read? (some text)).toOption = (read? (some text')).toOption := by
  have hbar {gap : List Char} (h : AllBlank gap) : '|' ∉ gap := h.not_mem (by decide)
  generalize hcs : text.toList = cs at h
  generalize hcs' : text'.toList = cs' at h
  cases h with
  | margins hleft hright =>
    refine toOption_read?_of_strip ?_
    show Text.strip text.toList = Text.strip text'.toList
    rw [hcs, hcs', Text.strip_append hleft hright]
  | @arrow before left right after hfirst hleft hright =>
    refine toOption_read?_of_cut ⟨hcs, hfirst⟩ ⟨hcs', mt (hasArrow_append_iff hleft).mp hfirst⟩
      (isComment_append_blanks hleft before).symm ?_ ?_
    · simpa using (Text.strip_append Text.allBlank_nil hleft before).symm
    · simpa using (alternativesOf_margins hright Text.allBlank_nil after).symm
  | @bar before front left right back hfirst hleft hright =>
    refine toOption_read?_of_cut ⟨hcs, hfirst⟩ ⟨hcs', hfirst⟩ rfl rfl ?_
    have hfront := alternativesOf_margins Text.allBlank_nil hleft front
    have hback := alternativesOf_margins hright Text.allBlank_nil back
    rw [List.nil_append] at hfront
    rw [List.append_nil] at hback
    rw [alternativesOf_bar, alternativesOf_bar, hfront, hback]
  | gap hfirst hgap hne hgap' hne' =>
    refine toOption_read?_of_cut ⟨hcs, hfirst⟩ ⟨hcs', hfirst⟩ rfl rfl ?_
    refine alternativesOf_congr (hbar hgap) (hbar hgap') fun last first _ _ => ?_
    rw [namesOf_gap hgap hne, namesOf_gap hgap' hne']
  | @spelling before gap gap' word front back hfirst hgap hne hgap' hne' hword =>
    refine toOption_read?_of_cut ⟨hcs, hfirst⟩ ⟨hcs', hfirst⟩ rfl rfl ?_
    have hword' := (isWord_of_isEmptySpelling hword).2
    refine alternativesOf_congr (hbar hgap) (by simp [hbar hgap, hbar hgap', hword'])
      fun last first _ _ => ?_
    rw [namesOf_gap hgap hne, namesOf_spelling hgap hne hgap' hne' hword]

end RuleLine

end Predictive
