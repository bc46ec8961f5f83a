import Mathlib.Data.List.DropRight
import Mathlib.Data.List.Infix
import Predictive.Grammar.Lines

/-!
# The text of a rule line

What a line says is read off its text by trimming, by looking for the first arrow, and by cutting
what is behind it at bars and blanks. So the left-hand side is not empty, neither begins nor ends
with a blank, holds no arrow and does not begin a comment (`RuleLine.IsLhs`); the names of the
alternatives hold no blank and no bar and spell no empty string (`RuleLine.IsName`). A production of
such names says itself when it is written down.

* `Text.trim_eq_self`, `Text.bare_trim`: a trimmed text, and only such a text, is left by trimming.
* `Text.words_intercalate`: words that are joined by blanks come back.
* `RuleLine.splitArrow?_eq_some_iff`: where the first arrow is.
* `RuleLine.wellFormed_of_read?`: what a line says is well formed.
* `RuleLine.read?_text`: a written production says itself.
-/

namespace Predictive

namespace Text

variable {p : Char → Bool} {cs : List Char}

/-! ## Blanks -/

/-- There are only blanks in the text. -/
def AllBlank (cs : List Char) : Prop := ∀ c ∈ cs, isBlank c = true

theorem allBlank_nil : AllBlank [] := fun _ hc => absurd hc List.not_mem_nil

theorem AllBlank.not_mem (h : AllBlank cs) {c : Char} (hc : isBlank c = false) : c ∉ cs := by
  intro hm
  rw [h c hm] at hc
  cases hc

/-! ## Trimming -/

/-- The text neither begins nor ends with a character of a kind. -/
structure Bare (p : Char → Bool) (cs : List Char) : Prop where
  head : ∀ c ∈ cs.head?, p c = false
  last : ∀ c ∈ cs.getLast?, p c = false

theorem trim_eq (p : Char → Bool) (cs : List Char) :
    trim p cs = (cs.dropWhile p).rdropWhile p := rfl

theorem dropWhile_eq_self (h : ∀ c ∈ cs.head?, p c = false) : cs.dropWhile p = cs := by
  cases cs with
  | nil => rfl
  | cons c cs => exact List.dropWhile_cons_of_neg (by simp [h c rfl])

theorem trim_prefix (h : ∀ c ∈ cs.head?, p c = false) : trim p cs <+: cs := by
  rw [trim_eq, dropWhile_eq_self h]
  exact List.rdropWhile_prefix p cs

/-- Trimming leaves a text that is bare. -/
theorem trim_eq_self (h : Bare p cs) : trim p cs = cs := by
  rw [trim_eq, dropWhile_eq_self h.head, List.rdropWhile_eq_self_iff]
  intro hne
  rw [h.last _ (List.getLast_mem_getLast? hne)]
  exact Bool.false_ne_true

/-- What comes out of trimming is bare. -/
theorem bare_trim (p : Char → Bool) (cs : List Char) : Bare p (trim p cs) := by
  rw [trim_eq]
  constructor
  · intro c hc
    obtain ⟨behind, hbehind⟩ := List.rdropWhile_prefix p (cs.dropWhile p)
    have hhead : (cs.dropWhile p).head? = some c := by
      rw [← hbehind, List.head?_append, Option.mem_def.mp hc]
      rfl
    have hnot := List.head?_dropWhile_not p cs
    rw [hhead] at hnot
    exact hnot
  · intro c hc
    have hne : (cs.dropWhile p).rdropWhile p ≠ [] := by
      intro hnil
      rw [hnil] at hc
      cases hc
    have hlast := List.rdropWhile_last_not p (cs.dropWhile p) hne
    rw [List.getLast?_eq_some_getLast hne, Option.mem_some_iff] at hc
    rw [← hc]
    exact Bool.eq_false_iff.mpr hlast

/-- A character of the kind behind a bare text is trimmed. -/
theorem trim_concat (h : Bare p cs) {c : Char} (hc : p c = true) : trim p (cs ++ [c]) = cs := by
  cases cs with
  | nil => simp [trim, hc]
  | cons d cs =>
    have hd : p d = false := h.head d rfl
    rw [trim_eq, dropWhile_eq_self (by simpa using hd), List.rdropWhile_concat_pos p _ c hc,
      ← dropWhile_eq_self h.head, ← trim_eq, trim_eq_self h, dropWhile_eq_self h.head]

/-- A text is bare that begins with a bare text and ends with no character of the kind. -/
theorem Bare.append {back : List Char} (h : Bare p cs) (hne : cs ≠ []) (middle : List Char)
    (hback : back ≠ []) (hlast : ∀ c ∈ back.getLast?, p c = false) :
    Bare p (cs ++ middle ++ back) := by
  constructor
  · intro c hc
    have hsome : cs.head?.isSome := List.isSome_head?.mpr hne
    rw [List.append_assoc, List.head?_append, Option.or_of_isSome hsome] at hc
    exact h.head c hc
  · intro c hc
    have hsome : back.getLast?.isSome := List.getLast?_isSome.mpr hback
    rw [List.getLast?_append, Option.or_of_isSome hsome] at hc
    exact hlast c hc

/-! ## Words -/

/-- A word holds characters, none of them a blank. -/
structure IsWord (w : List Char) : Prop where
  ne_nil : w ≠ []
  solid : ∀ c ∈ w, isBlank c = false

/-- A blank divides the words. -/
theorem words_append_cons (before after : List Char) {c : Char} (hc : isBlank c = true) :
    words (before ++ c :: after) = words before ++ words after := by
  unfold words
  rw [List.splitOnP_append_cons before after hc, List.filter_append]

theorem words_of_isWord {w : List Char} (h : IsWord w) : words w = [w] := by
  unfold words
  rw [List.splitOnP_eq_singleton h.solid]
  simp [h.ne_nil]

/-- Words that are joined by blanks come back. -/
theorem words_intercalate {ws : List (List Char)} (h : ∀ w ∈ ws, IsWord w) :
    words ([' '].intercalate ws) = ws := by
  induction ws with
  | nil => rfl
  | cons w ws ih =>
    have hw : words w = [w] := words_of_isWord (h w List.mem_cons_self)
    cases ws with
    | nil => rw [List.intercalate_singleton, hw]
    | cons w' ws =>
      rw [List.intercalate_cons_cons, List.append_assoc, List.singleton_append,
        words_append_cons _ _ (by decide), hw, ih fun w hm => h w (List.mem_cons_of_mem _ hm)]
      rfl

end Text

namespace RuleLine

variable {cs before after : List Char}

/-! ## The first arrow -/

/-- There is an arrow in the text. -/
def HasArrow (cs : List Char) : Prop := ['-', '>'] <:+: cs

theorem hasArrow_cons {c : Char} :
    HasArrow (c :: cs) ↔ (c = '-' ∧ cs.head? = some '>') ∨ HasArrow cs := by
  unfold HasArrow
  rw [List.infix_cons_iff, List.cons_prefix_cons]
  refine or_congr_left (and_congr eq_comm ?_)
  cases cs with
  | nil => simp
  | cons d cs => simpa using eq_comm

/-- Blanks at the end complete no arrow. -/
theorem hasArrow_append_iff (h : Text.AllBlank after) : HasArrow (before ++ after) ↔
    HasArrow before := by
  refine ⟨fun harrow => ?_, fun harrow => harrow.trans (List.prefix_append _ _).isInfix⟩
  rcases List.infix_append_iff.mp harrow with hbefore | hafter | ⟨u, v, huv, hu, hv⟩
  · exact hbefore
  · exact absurd (hafter.subset List.mem_cons_self) (h.not_mem (by decide))
  · cases v with
    | nil =>
      rw [List.append_nil] at huv
      exact (huv ▸ hu).isInfix
    | cons d v =>
      -- The arrow would end among the blanks.
      have hlast : (d :: v).getLast? = some '>' := by
        rw [← List.getLast?_append_cons u, ← huv]
        rfl
      exact absurd (hv.subset (List.mem_of_getLast? hlast)) (h.not_mem (by decide))

theorem map_cons_eq_some_iff {c d : Char} {cut : Option (List Char × List Char)} :
    (cut.map fun parts => (c :: parts.1, parts.2)) = some (d :: before, after) ↔
      c = d ∧ cut = some (before, after) := by
  rw [Option.map_eq_some_iff]
  constructor
  · rintro ⟨⟨before, after⟩, h, heq⟩
    cases heq
    exact ⟨rfl, h⟩
  · rintro ⟨rfl, h⟩
    exact ⟨_, h, rfl⟩

/-- **A text is cut at its first arrow.** -/
theorem splitArrow?_eq_some_iff : splitArrow? cs = some (before, after) ↔
    cs = before ++ '-' :: '>' :: after ∧ ¬ HasArrow before := by
  fun_induction splitArrow? cs generalizing before with
  | case1 => simp
  | case2 rest =>
    constructor
    · intro h
      cases h
      exact ⟨rfl, by simp [HasArrow]⟩
    · rintro ⟨heq, hfirst⟩
      match before with
      | [] =>
        cases heq
        rfl
      | [c] => simp at heq
      | c :: d :: before =>
        simp only [List.cons_append, List.cons.injEq] at heq
        obtain ⟨rfl, rfl, -⟩ := heq
        exact absurd (hasArrow_cons.mpr (.inl ⟨rfl, rfl⟩)) hfirst
  | case3 c rest hne ih =>
    have hne (later : List Char) : ¬ (c = '-' ∧ rest = '>' :: later) := fun h => hne later h.1 h.2
    cases before with
    | nil =>
      rw [List.nil_append, List.cons.injEq, Option.map_eq_some_iff]
      refine iff_of_false ?_ fun h => hne after h.1
      rintro ⟨⟨before, after⟩, -, heq⟩
      cases heq
    | cons d before =>
      refine map_cons_eq_some_iff.trans ?_
      rw [ih, List.cons_append, List.cons.injEq, and_assoc]
      refine and_congr_right ?_
      rintro rfl
      refine and_congr_right fun hrest => not_congr ?_
      -- The text does not begin with an arrow, so that one further on is the first.
      rw [hasArrow_cons, or_iff_right]
      rintro ⟨hc, hhead⟩
      obtain ⟨later, rfl⟩ := List.head?_eq_some_iff.mp hhead
      exact hne _ ⟨hc, hrest⟩

/-! ## Well-formed lines -/

/-- A text that can stand on the left of an arrow. -/
structure IsLhs (cs : List Char) : Prop where
  ne_nil : cs ≠ []
  bare : Text.Bare Text.isBlank cs
  arrowless : ¬ HasArrow cs
  not_comment : isComment cs = false

/-- A word that can stand for a symbol of an alternative. -/
structure IsName (cs : List Char) : Prop extends Text.IsWord cs where
  bar_not_mem : '|' ∉ cs
  not_empty : isEmptySpelling cs = false

theorem isName_iff : IsName cs ↔ (cs ≠ [] ∧ cs.all (!Text.isBlank ·) = true) ∧ '|' ∉ cs ∧
    isEmptySpelling cs = false := by
  simp only [List.all_eq_true, Bool.not_eq_true']
  exact ⟨fun h => ⟨⟨h.ne_nil, h.solid⟩, h.bar_not_mem, h.not_empty⟩,
    fun h => ⟨⟨h.1.1, h.1.2⟩, h.2.1, h.2.2⟩⟩

instance : Decidable (IsName cs) := decidable_of_iff _ isName_iff.symm

/-- What a line can say. -/
structure WellFormed (r : RuleLine) : Prop where
  lhs : IsLhs r.lhs.toList
  alternatives_ne_nil : r.alternatives ≠ []
  names : ∀ alt ∈ r.alternatives, ∀ name ∈ alt, IsName name.toList

theorem isComment_iff : isComment cs = true ↔ cs.head? = some '#' ∨ ['/', '/'] <+: cs := by
  unfold isComment
  split
  · simp
  · simp
  · rename_i hhash hslashes
    refine iff_of_false Bool.false_ne_true ?_
    rintro (hhead | ⟨rest, hrest⟩)
    · obtain ⟨rest, hrest⟩ := List.head?_eq_some_iff.mp hhead
      exact hhash rest hrest
    · exact hslashes rest hrest.symm

/-- A text that goes on after a comment sign is a comment. -/
theorem isComment_of_start {start : List Char} (hp : start <+: cs) (h : isComment start = true) :
    isComment cs = true := by
  rw [isComment_iff] at h ⊢
  refine h.imp (fun hhead => ?_) fun hslashes => hslashes.trans hp
  obtain ⟨rest, rfl⟩ := hp
  rw [List.head?_append, hhead]
  rfl

/-- Whether a text is a comment is seen in front of any other character than those of the signs. -/
theorem isComment_append_cons {c : Char} (hhash : c ≠ '#') (hslash : c ≠ '/')
    (front back : List Char) : isComment (front ++ c :: back) = isComment front := by
  rw [Bool.eq_iff_iff, isComment_iff, isComment_iff]
  match front with
  | [] => simp [hhash, hslash.symm]
  | [d] => simp [hslash.symm]
  | d :: e :: front => simp

/-- The trimmed text in front of the first arrow can stand there, if it is not empty. -/
theorem isLhs_strip (hcs : Text.Bare Text.isBlank cs) (hcomment : isComment cs = false)
    (hcut : splitArrow? cs = some (before, after)) (hne : Text.strip before ≠ []) :
    IsLhs (Text.strip before) := by
  obtain ⟨rfl, harrow⟩ := splitArrow?_eq_some_iff.mp hcut
  have hhead : ∀ c ∈ before.head?, Text.isBlank c = false := by
    intro c hc
    refine hcs.head c ?_
    rw [List.head?_append, Option.mem_def.mp hc]
    rfl
  have hleft : Text.strip before <+: before := Text.trim_prefix hhead
  refine ⟨hne, Text.bare_trim _ _, fun h => harrow (h.trans hleft.isInfix), ?_⟩
  rw [Bool.eq_false_iff] at hcomment ⊢
  exact fun h => hcomment (isComment_of_start (hleft.trans (List.prefix_append _ _)) h)

/-- What is left of the words between two bars are names. -/
theorem isName_of_mem_alternativesOf {alt : List String} (halt : alt ∈ alternativesOf cs)
    {name : String} (hname : name ∈ alt) : IsName name.toList := by
  obtain ⟨part, hpart, rfl⟩ := List.mem_map.mp halt
  obtain ⟨word, hword, rfl⟩ := List.mem_map.mp hname
  obtain ⟨hword, hspelling⟩ := List.mem_filter.mp hword
  obtain ⟨hne, hmem⟩ := Text.mem_words hword
  rw [List.splitOn_eq_splitOnP] at hpart
  rw [String.toList_ofList]
  refine ⟨⟨hne, fun c hc => (hmem c hc).2⟩, fun hbar => ?_, by simpa using hspelling⟩
  have := (Text.mem_of_mem_splitOnP hpart '|' (hmem '|' hbar).1).2
  simp at this

/-- A line says something iff it is not blank and no comment, and there is something in front of its
first arrow. -/
theorem read?_eq_ok_some_iff {line : Option String} {r : RuleLine} :
    read? line = .ok (some r) ↔ ∃ cs before after, Text.strip (line.getD "").toList = cs ∧
      cs ≠ [] ∧ isComment cs = false ∧ splitArrow? cs = some (before, after) ∧
      Text.strip before ≠ [] ∧
      r = ⟨String.ofList (Text.strip before), alternativesOf after⟩ := by
  unfold read?
  simp only
  generalize hcs : Text.strip (line.getD "").toList = cs
  by_cases hblank : cs = [] ∨ isComment cs = true
  · rw [if_pos (by simpa using hblank)]
    constructor
    · intro h
      cases h
    · rintro ⟨_, before, after, rfl, hne, hcomment, -⟩
      rcases hblank with hnil | hc
      · exact absurd hnil hne
      · rw [hc] at hcomment
        cases hcomment
  · rw [if_neg (by simpa using hblank)]
    rw [not_or, Bool.not_eq_true] at hblank
    constructor
    · intro h
      split at h
      · cases h
      · rename_i before after hcut
        split at h
        · cases h
        · rename_i hne
          cases h
          exact ⟨cs, before, after, rfl, hblank.1, hblank.2, hcut, by simpa using hne, rfl⟩
    · rintro ⟨_, before, after, rfl, -, -, hcut, hne, rfl⟩
      simp only [hcut]
      rw [if_neg (by simpa using hne)]

/-- **What a line says is well formed.** -/
theorem wellFormed_of_read? {line : Option String} {r : RuleLine}
    (h : read? line = .ok (some r)) : r.WellFormed := by
  obtain ⟨cs, before, after, rfl, -, hcomment, hcut, hne, rfl⟩ := read?_eq_ok_some_iff.mp h
  refine ⟨?_, ?_, fun alt halt name hname => isName_of_mem_alternativesOf halt hname⟩
  · rw [String.toList_ofList]
    exact isLhs_strip (Text.bare_trim _ _) hcomment hcut hne
  · intro hnil
    exact List.splitOn_ne_nil _ _ (List.map_eq_nil_iff.mp hnil)

/-! ## Written productions -/

/-- The written form of an alternative. -/
def body (names : List String) : List Char :=
  if names.isEmpty then Symbol.emptyMark.toList else [' '].intercalate (names.map String.toList)

theorem toList_text (p : Production) :
    p.text.toList = p.lhs.toList ++ " -> ".toList ++ body (p.rhs.map Symbol.name) := by
  unfold Production.text body
  cases p.rhs with
  | nil => simp
  | cons s rhs => simp [String.toList_intercalate]

/-- Joined words hold their characters and blanks, and end like one of them. -/
theorem intercalate_spec {ws : List (List Char)} (hne : ws ≠ []) (hws : ∀ w ∈ ws, w ≠ []) :
    (∀ c ∈ [' '].intercalate ws, c = ' ' ∨ ∃ w ∈ ws, c ∈ w) ∧
      ∃ w ∈ ws, ([' '].intercalate ws).getLast? = w.getLast? := by
  induction ws with
  | nil => exact absurd rfl hne
  | cons w ws ih =>
    cases ws with
    | nil =>
      rw [List.intercalate_singleton]
      exact ⟨fun c hc => .inr ⟨w, List.mem_cons_self, hc⟩, w, List.mem_cons_self, rfl⟩
    | cons w' ws =>
      obtain ⟨hmem, last, hlast, heq⟩ :=
        ih (List.cons_ne_nil w' ws) fun w hm => hws w (List.mem_cons_of_mem _ hm)
      rw [List.intercalate_cons_cons]
      refine ⟨fun c hc => ?_, last, List.mem_cons_of_mem w hlast, ?_⟩
      · rcases List.mem_append.mp hc with hc | hc
        · rcases List.mem_append.mp hc with hc | hc
          · exact .inr ⟨w, List.mem_cons_self, hc⟩
          · exact .inl (List.mem_singleton.mp hc)
        · exact (hmem c hc).imp_right fun ⟨v, hv, hc⟩ => ⟨v, List.mem_cons_of_mem w hv, hc⟩
      · have hsome : last.getLast?.isSome :=
          List.getLast?_isSome.mpr (hws last (List.mem_cons_of_mem w hlast))
        rw [List.getLast?_append, heq, Option.or_of_isSome hsome]

variable {names : List String}

/-- What a written alternative is like as a text. -/
theorem body_spec (h : ∀ name ∈ names, IsName name.toList) :
    body names ≠ [] ∧ (∀ c ∈ (body names).getLast?, Text.isBlank c = false) ∧ '|' ∉ body names := by
  cases names with
  | nil =>
    refine ⟨by decide, fun c hc => ?_, by decide⟩
    cases hc
    decide
  | cons name names =>
    have hword : ∀ w ∈ (name :: names).map String.toList, IsName w := List.forall_mem_map.mpr h
    obtain ⟨hmem, last, hlast, heq⟩ :=
      intercalate_spec (List.cons_ne_nil _ _) fun w hw => (hword w hw).ne_nil
    have hbody : body (name :: names) = [' '].intercalate ((name :: names).map String.toList) := rfl
    rw [← List.map_cons, ← hbody] at hmem heq
    refine ⟨?_, ?_, ?_⟩
    · rw [← List.getLast?_isSome, heq, List.getLast?_isSome]
      exact (hword last hlast).ne_nil
    · intro c hc
      rw [heq] at hc
      exact (hword last hlast).solid c (List.mem_of_getLast? hc)
    · intro hbar
      rcases hmem '|' hbar with hc | ⟨w, hw, hc⟩
      · exact absurd hc (by decide)
      · exact (hword w hw).bar_not_mem hc

/-- A written alternative has the names that it has been made of. -/
theorem namesOf_body (h : ∀ name ∈ names, IsName name.toList) :
    namesOf (' ' :: body names) = names := by
  have hwords : Text.words (' ' :: body names) = Text.words (body names) :=
    Text.words_append_cons [] (body names) (by decide)
  unfold namesOf
  rw [hwords]
  cases names with
  | nil => decide
  | cons name names =>
    have hword : ∀ w ∈ (name :: names).map String.toList, IsName w := List.forall_mem_map.mpr h
    have hbody : body (name :: names) = [' '].intercalate ((name :: names).map String.toList) := rfl
    rw [hbody, Text.words_intercalate fun w hw => (hword w hw).toIsWord,
      List.filter_eq_self.mpr fun w hw => by simp [(hword w hw).not_empty], List.map_map]
    exact List.map_id'' (fun name => String.ofList_toList) _

/-- **A written production says itself.** -/
theorem read?_text {p : Production} (hlhs : IsLhs p.lhs.toList)
    (hrhs : ∀ s ∈ p.rhs, IsName s.name.toList) :
    read? (some p.text) = .ok (some ⟨p.lhs, [p.rhs.map Symbol.name]⟩) := by
  obtain ⟨hne, hlast, hbar⟩ := body_spec (List.forall_mem_map.mpr hrhs)
  have hbare : Text.Bare Text.isBlank p.text.toList := by
    rw [toList_text]
    exact hlhs.bare.append hlhs.ne_nil _ hne hlast
  have hcomment : isComment p.text.toList = false := by
    rw [toList_text, List.append_assoc]
    exact (isComment_append_cons (by decide) (by decide) _ _).trans hlhs.not_comment
  have hcut : splitArrow? p.text.toList =
      some (p.lhs.toList ++ [' '], ' ' :: body (p.rhs.map Symbol.name)) := by
    have hblank : Text.AllBlank [' '] := by simp [Text.AllBlank, Text.isBlank]
    refine splitArrow?_eq_some_iff.mpr ⟨?_, mt (hasArrow_append_iff hblank).mp hlhs.arrowless⟩
    rw [toList_text, List.append_assoc, List.append_assoc]
    rfl
  have hstrip : Text.strip (p.lhs.toList ++ [' ']) = p.lhs.toList :=
    Text.trim_concat hlhs.bare (by decide)
  have halternatives : alternativesOf (' ' :: body (p.rhs.map Symbol.name)) =
      [p.rhs.map Symbol.name] := by
    unfold alternativesOf
    rw [List.splitOn_eq_singleton (by simpa using hbar), List.map_singleton,
      namesOf_body (List.forall_mem_map.mpr hrhs)]
  have hsaid : p.text.toList ≠ [] := by
    rw [toList_text]
    exact List.append_ne_nil_of_right_ne_nil _ hne
  refine read?_eq_ok_some_iff.mpr
    ⟨p.text.toList, _, _, Text.trim_eq_self hbare, hsaid, hcomment, hcut, ?_, ?_⟩
  · rw [hstrip]
    exact hlhs.ne_nil
  · rw [hstrip, halternatives, String.ofList_toList]

end RuleLine

end Predictive
