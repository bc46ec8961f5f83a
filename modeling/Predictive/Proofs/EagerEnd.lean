import Predictive.Proofs.Language

/-!
# Parses that complete without an end marker

Once a token is consumed, complete frames are closed at once, but a nonterminal that could vanish is
not: that would take another token to look at. So a parser is through with a word iff its last token
is also the last symbol that was left, at every level of the derivation (`Grammar.EndsEagerly`). If
no rule names the end of the input, there is no other way to acceptance, because no cell belongs to
the end.

* `Grammar.endsEagerly_concat_iff`: a nonterminal ends eagerly in a word iff a leftmost derivation
  reads the word up to its last symbol and leaves that symbol alone.
* `ParsingTable.Decides.front_unique`: what a leftmost derivation leaves behind a token is unique.
* `accepted_iff_endsEagerly`: acceptance without an end marker, for lists that are fed and for
  parses.
-/

namespace Predictive

namespace Grammar

/-- A nonterminal ends eagerly in a word if the last symbol of one of its alternatives does: behind
what the rest of the alternative derives, that symbol is the last one of the word or, as a
nonterminal, ends eagerly in the remainder. -/
inductive EndsEagerly (g : Grammar) : String → List Symbol → Prop
  | last {name : String} {u w : List Symbol} {z : Symbol} (h : g.HasAlternative name (u ++ [z]))
      (hz : z.isNonterminal = false) (hu : g.Derives u w) : EndsEagerly g name (w ++ [z])
  | within {name inner : String} {u w v : List Symbol}
      (h : g.HasAlternative name (u ++ [.nonterminal inner])) (hu : g.Derives u w)
      (hv : EndsEagerly g inner v) : EndsEagerly g name (w ++ v)

variable {g : Grammar}

theorem Derives.eq_nil {u : List Symbol} (h : g.Derives [] u) : u = [] := by
  rcases Relation.ReflTransGen.cases_head h with heq | ⟨v, hp, -⟩
  · exact heq.symm
  · generalize hx : ([] : List Symbol) = x at hp
    obtain ⟨u, v, -⟩ := hp
    simp at hx

/-- What derives a word can be read off in front of something else. -/
theorem LeftDerives.of_derives {u w : List Symbol} (hw : ∀ s ∈ w, s.isNonterminal = false)
    (h : g.Derives u w) (x : List Symbol) : g.LeftDerives (u ++ x) w x := by
  obtain ⟨r, hl, hv⟩ := (derives_iff hw).mp h
  have := (hl.append_right x).trans ((of_vanishes hv).append_right x)
  rwa [List.append_nil] at this

theorem EndsEagerly.leftDerives {name : String} {x : List Symbol} (h : g.EndsEagerly name x)
    (hx : ∀ s ∈ x, s.isNonterminal = false) :
    ∃ w a, x = w ++ [a] ∧ g.LeftDerives [.nonterminal name] w [a] := by
  induction h with
  | @last name u w z h hz hu =>
    have hw : ∀ s ∈ w, s.isNonterminal = false := fun s hs => hx s (List.mem_append_left _ hs)
    refine ⟨w, z, rfl, .expand h ?_⟩
    rw [List.append_nil]
    exact .of_derives hw hu [z]
  | @within name inner u w v h hu _ ih =>
    have hw : ∀ s ∈ w, s.isNonterminal = false := fun s hs => hx s (List.mem_append_left _ hs)
    obtain ⟨w', a, rfl, hl⟩ := ih fun s hs => hx s (List.mem_append_right _ hs)
    refine ⟨w ++ w', a, (List.append_assoc ..).symm, .expand h ?_⟩
    rw [List.append_nil]
    exact (LeftDerives.of_derives hw hu _).trans hl

/-- Where a leftmost derivation leaves a single symbol, this comes from the last symbol of the form
that it began with, and all in front of that has been read. -/
theorem LeftDerives.ends {x w : List Symbol} {a : Symbol} (ha : a.isNonterminal = false)
    (h : g.LeftDerives x w [a]) {u : List Symbol} {z : Symbol} (hx : x = u ++ [z]) :
    ∃ w₁ w₂, w = w₁ ++ w₂ ∧ g.Derives u w₁ ∧ ((z = a ∧ w₂ = []) ∨
      ∃ inner, z = .nonterminal inner ∧ g.EndsEagerly inner (w₂ ++ [a])) := by
  generalize hr : [a] = r at h
  induction h generalizing u z with
  | refl r =>
    subst hr
    cases u with
    | nil =>
      obtain ⟨rfl, -⟩ := List.cons.inj hx
      exact ⟨[], [], rfl, Derives.refl [], .inl ⟨rfl, rfl⟩⟩
    | cons s u => simp at hx
  | @shift b x w r hb h ih =>
    subst hr
    cases u with
    | nil =>
      -- Nothing would be left for the single symbol.
      obtain ⟨-, rfl⟩ := List.cons.inj hx
      cases h
    | cons s u =>
      obtain ⟨rfl, rfl⟩ := List.cons.inj hx
      obtain ⟨w₁, w₂, rfl, hu, hz⟩ := ih rfl rfl
      exact ⟨b :: w₁, w₂, rfl, hu.append_left [b], hz⟩
  | @expand name rhs x w r hrhs h ih =>
    subst hr
    cases u with
    | nil =>
      obtain ⟨rfl, rfl⟩ := List.cons.inj hx
      rw [List.append_nil] at h ih
      refine ⟨[], w, rfl, Derives.refl [], .inr ⟨name, rfl, ?_⟩⟩
      rcases List.eq_nil_or_concat' rhs with rfl | ⟨v, z', rfl⟩
      · cases h
      obtain ⟨w₁, w₂, rfl, hv, ⟨rfl, rfl⟩ | ⟨inner, rfl, hinner⟩⟩ := ih rfl rfl
      · rw [List.append_nil]
        exact .last hrhs ha hv
      · rw [List.append_assoc]
        exact .within hrhs hv hinner
    | cons s u =>
      obtain ⟨rfl, rfl⟩ := List.cons.inj hx
      obtain ⟨w₁, w₂, rfl, hu, hz⟩ := ih (List.append_assoc ..).symm rfl
      exact ⟨w₁, w₂, rfl, (derives_cons hrhs u).trans hu, hz⟩

/-- **A nonterminal ends eagerly in a word iff a leftmost derivation reads the word up to its last
symbol and leaves that symbol alone.** -/
theorem endsEagerly_concat_iff {name : String} {w : List Symbol} {a : Symbol}
    (hw : ∀ s ∈ w ++ [a], s.isNonterminal = false) :
    g.EndsEagerly name (w ++ [a]) ↔ g.LeftDerives [.nonterminal name] w [a] := by
  have ha : a.isNonterminal = false := hw a (List.mem_append_right w List.mem_cons_self)
  constructor
  · intro h
    obtain ⟨w', a', heq, hl⟩ := h.leftDerives hw
    obtain ⟨rfl, hlast⟩ := List.append_inj' heq rfl
    obtain ⟨rfl, -⟩ := List.cons.inj hlast
    exact hl
  · intro h
    obtain ⟨w₁, w₂, rfl, hnil, ⟨rfl, -⟩ | ⟨inner, heq, hends⟩⟩ := h.ends ha (u := []) rfl
    · exact absurd ha (by simp)
    · obtain rfl := hnil.eq_nil
      cases heq
      exact hends

end Grammar

namespace ParsingTable.Decides

variable {g : Grammar} {table : ParsingTable}

/-- **What a leftmost derivation leaves behind a token is unique.** -/
theorem front_unique (h : table.Decides g) {root : String} (hroot : root ∈ g.nonterminals)
    {y u w r r' : List Symbol} {a : Symbol} (hd : g.Derives [.nonterminal root] (y ++ u))
    (hw : ∀ s ∈ w ++ [a], s.IsToken) (hl : g.LeftDerives u w (a :: r))
    (hl' : g.LeftDerives u w (a :: r')) : r = r' := by
  have ha : a.isNonterminal = false := (hw a (List.mem_append_right w List.mem_cons_self)).1
  generalize hx : a :: r = x at hl
  induction hl generalizing y with
  | refl x =>
    subst hx
    cases hl' with
    | refl => rfl
    | expand => exact absurd ha (by simp)
  | @shift b u w x hb _ ih =>
    cases hl' with
    | shift _ hl' =>
      refine ih (y := y ++ [b]) ?_ (fun s hs => hw s (List.mem_cons_of_mem b hs)) hl' hx
      rwa [List.append_assoc]
    | expand => exact absurd hb (by simp)
  | @expand name rhs u w x hrhs hl ih =>
    cases hl' with
    | refl => exact absurd ha (by simp)
    | shift hb => exact absurd hb (by simp)
    | @expand _ rhs' _ _ _ hrhs' hl' =>
      -- The next token is the same in both derivations, and selects both alternatives.
      obtain ⟨t, htoken, hnext⟩ : ∃ t : Symbol, t.IsToken ∧
          ∀ r, ∃ z, w ++ a :: r = t :: z := by
        cases w with
        | nil => exact ⟨a, hw a List.mem_cons_self, fun r => ⟨r, rfl⟩⟩
        | cons t w => exact ⟨t, hw t List.mem_cons_self, fun r => ⟨w ++ a :: r, rfl⟩⟩
      have selected {rhs r : List Symbol} (hl : g.LeftDerives (rhs ++ u) w (a :: r)) :
          g.Selects name rhs t := by
        obtain ⟨z, hz⟩ := hnext r
        exact Grammar.selects_of_begins hroot hd
          (hl.derives.begins (hz ▸ .here htoken.1))
      obtain rfl : rhs = rhs' :=
        h.unique htoken hrhs (selected (hx ▸ hl)) hrhs' (selected hl')
      exact ih (hd.trans ((Grammar.derives_cons hrhs u).append_left y)) hw hl' hx

/-- No cell belongs to the end of the input if no alternative names it. -/
theorem lookup_endOfInput (h : table.Decides g)
    (hend : ∀ p ∈ g.productions, .endOfInput ∉ p.rhs) (name : String) :
    table.lookup name .endOfInput = none := by
  cases hl : table.lookup name .endOfInput with
  | none => rfl
  | some i =>
    exfalso
    obtain ⟨rhs, hp⟩ := h.valid hl
    have hrhs := Grammar.hasAlternative_of_production? hp
    rcases h.selects Symbol.isToken_endOfInput hl hp with hb | ⟨-, hf⟩
    · obtain ⟨v, hv⟩ := (Grammar.begins_iff_derives rfl).mp hb
      have hd : g.Derives [.nonterminal name] (.endOfInput :: v) := by
        have := Grammar.derives_cons hrhs []
        rw [List.append_nil] at this
        exact this.trans hv
      rcases hd.mem List.mem_cons_self with heq | ⟨p, hp, hmem⟩
      · cases heq
      · exact hend p hp hmem
    · obtain ⟨p, hp, hmem⟩ := hf.mem_alternative rfl
      exact hend p hp hmem

end ParsingTable.Decides

/-! ## Parsers -/

theorem Grammar.isToken_of_mem_classes {g : Grammar} {lexemes : List String} {s : Symbol}
    (hs : s ∈ g.classes lexemes) : s.IsToken := by
  obtain ⟨lexeme, -, rfl⟩ := List.mem_map.mp hs
  exact g.isToken_classify (some lexeme)

theorem Grammar.classes_concat (g : Grammar) (lexemes : List String) (lexeme : String) :
    g.classes (lexemes ++ [lexeme]) = g.classes lexemes ++ [g.classify (some lexeme)] :=
  List.map_append

namespace Parser

variable {p : Parser}

/-- When some lexemes are consumed, the last of them stood in front of what is left now. -/
theorem Sound.front_of_consumes (h : p.Sound) (hh : p.halted = none) {lexemes : List String}
    {lexeme : String} (hc : p.Consumes ((lexemes ++ [lexeme]).map some)) :
    p.automaton.grammar.LeftDerives (p.stack.rest p.automaton.grammar)
        (p.automaton.grammar.classes lexemes) (p.automaton.grammar.classify (some lexeme) ::
          (p.fedAll ((lexemes ++ [lexeme]).map some)).stack.rest p.automaton.grammar) ∧
      ((p.fedAll ((lexemes ++ [lexeme]).map some)).stack.rest p.automaton.grammar = [] →
        (p.fedAll ((lexemes ++ [lexeme]).map some)).stack = []) ∧
      (p.fedAll ((lexemes ++ [lexeme]).map some)).halted = none := by
  rw [List.map_append, List.map_singleton] at hc ⊢
  obtain ⟨hc, ⟨c, hverdict⟩, -⟩ := consumes_append.mp hc
  obtain ⟨hl, -⟩ := h.leftDerives_of_consumes hh hc
  have hfront := (h.fedAll (lexemes.map some)).front_of_consumed hverdict
  unfold classify at hfront
  rw [automaton_fedAll] at hfront
  rw [fedAll_concat]
  obtain ⟨-, hrunning, ⟨hleft, hnil⟩ | ⟨hend, -⟩⟩ := hfront
  · have := hl.trans hleft
    rw [List.append_nil] at this
    exact ⟨this, hnil, hrunning⟩
  · exact absurd hend (Grammar.classify_some_ne lexeme)

section Fresh

variable {automaton : Automaton} {name : String} (hd : automaton.table.Decides automaton.grammar)
  (hlimit : automaton.depthLimit = none) (hname : name ∈ automaton.grammar.nonterminals)

include hd hlimit hname

/-- A fresh parser is through with some lexemes iff its start ends eagerly in their classes. -/
theorem fresh_through_iff (listening : Bool) {lexemes : List String} (hne : lexemes ≠ []) :
    ((fresh automaton name listening).Consumes (lexemes.map some) ∧
        ((fresh automaton name listening).fedAll (lexemes.map some)).accepted = true) ↔
      automaton.grammar.EndsEagerly name (automaton.grammar.classes lexemes) := by
  have hsound : (fresh automaton name listening).Sound := ⟨hd, Stack.wellFormed_start name⟩
  obtain ⟨lexemes, lexeme, rfl⟩ := (List.eq_nil_or_concat' lexemes).resolve_left hne
  have htokens : ∀ s ∈ automaton.grammar.classes lexemes ++
      [automaton.grammar.classify (some lexeme)], s.IsToken := by
    rw [← Grammar.classes_concat]
    exact fun s hs => Grammar.isToken_of_mem_classes hs
  rw [Grammar.classes_concat, Grammar.endsEagerly_concat_iff fun s hs => (htokens s hs).1]
  constructor
  · rintro ⟨hc, hacc⟩
    obtain ⟨hfront, -⟩ := hsound.front_of_consumes rfl hc
    rwa [(accepted_iff.mp hacc).1] at hfront
  · intro hends
    have hread := hends.trans (.shift (htokens _ (by simp)).1 (.refl []))
    rw [← Grammar.classes_concat] at hread
    have hc : (fresh automaton name listening).Consumes ((lexemes ++ [lexeme]).map some) :=
      (fresh_consumes_iff hd hlimit hname listening _).mpr
        ((Grammar.isPrefix_iff fun s hs => Grammar.isNonterminal_of_mem_classes hs).mpr ⟨_, hread⟩)
    obtain ⟨hfront, hnil, hrunning⟩ := hsound.front_of_consumes rfl hc
    have hrest := hd.front_unique hname (y := []) (Grammar.Derives.refl _) htokens hfront hends
    exact ⟨hc, accepted_iff.mpr ⟨hnil hrest, hrunning⟩⟩

end Fresh

/-- Where no alternative names the end of the input, the end is consumed only behind
everything. -/
theorem Sound.rest_of_consumed_end (h : p.Sound)
    (hend : ∀ q ∈ p.automaton.grammar.productions, .endOfInput ∉ q.rhs)
    (hrest : .endOfInput ∉ p.stack.rest p.automaton.grammar) {c : Consumed}
    (hc : (p.feed none).verdict = .consumed c) : p.stack.rest p.automaton.grammar = [] := by
  have hh := (running_of_consumed hc).1
  obtain ⟨events, last, outcome, hm, hlast, hrun⟩ := h.exists_moves_run none
  rw [feed_of_running hh, hrun] at hc
  -- No alternative is taken for the end, so that what is left stays the same.
  have hkept : last.rest p.automaton.grammar = p.stack.rest p.automaton.grammar := by
    refine hm.invariant (P := fun s => s.rest p.automaton.grammar = _) (fun hturn hs => ?_) rfl
    rcases hturn.rest with ⟨name, i, q, u, hl, -⟩ | heq
    · have hnone := h.decides.lookup_endOfInput hend name
      have hl' : p.automaton.table.lookup name .endOfInput = some i := hl
      rw [hnone] at hl'
      cases hl'
    · rw [heq, hs]
  rcases hlast.of_consumed (hm.wellFormed h.wellFormed) hc with ⟨-, hcons, -⟩ | ⟨-, rfl, -⟩
  · have hmem : (p.tokenOf none).symbol ∈ p.stack.rest p.automaton.grammar := by
      rw [← hkept, hcons]
      exact List.mem_cons_self
    exact absurd hmem hrest
  · exact hkept.symm

/-- The end of the input is accepted behind everything. -/
theorem feed_end_of_through (hs : p.stack = []) (hh : p.halted = none) :
    (∃ c, (p.feed none).verdict = .consumed c) ∧ (p.feed none).parser.accepted = true := by
  have hrun : p.automaton.run (p.tokenOf none) p.stack =
      ⟨[], [⟨.accept, []⟩], .consumed ⟨.endOfInput, none, 0⟩⟩ := by
    unfold Automaton.run
    rw [Automaton.runBelow_eq, hs]
    rfl
  rw [feed_of_running hh, hrun]
  exact ⟨⟨_, rfl⟩, rfl⟩

section Unmarked

variable {automaton : Automaton} {name : String} (hd : automaton.table.Decides automaton.grammar)
  (hlimit : automaton.depthLimit = none) (hname : name ∈ automaton.grammar.nonterminals)
  (hend : ∀ q ∈ automaton.grammar.productions, .endOfInput ∉ q.rhs)

include hd hlimit hname hend

/-- Without an end marker, a fresh parser accepts some lexemes and the end of the input iff it is
through with the lexemes. -/
theorem fresh_accepts_unmarked (listening : Bool) (lexemes : List String) :
    ((fresh automaton name listening).Consumes (lexemes.map some ++ [none]) ∧
        ((fresh automaton name listening).fedAll (lexemes.map some ++ [none])).accepted = true) ↔
      lexemes ≠ [] ∧
        automaton.grammar.EndsEagerly name (automaton.grammar.classes lexemes) := by
  have hsound : (fresh automaton name listening).Sound := ⟨hd, Stack.wellFormed_start name⟩
  rw [consumes_append, fedAll_concat]
  constructor
  · rintro ⟨⟨hc, ⟨c, hverdict⟩, -⟩, -⟩
    obtain ⟨hl, -⟩ := hsound.leftDerives_of_consumes rfl hc
    have hg : ((fresh automaton name listening).fedAll (lexemes.map some)).automaton = automaton :=
      automaton_fedAll _
    -- The end can not be left to derive.
    have hmem : .endOfInput ∉ ((fresh automaton name listening).fedAll
        (lexemes.map some)).stack.rest automaton.grammar := by
      intro hmem
      rcases hl.derives.mem (List.mem_append_right _ hmem) with heq | ⟨q, hq, hrhs⟩
      · cases heq
      · exact hend q hq hrhs
    have hrest := (hsound.fedAll (lexemes.map some)).rest_of_consumed_end
      (by rwa [hg]) (by rwa [hg]) hverdict
    rw [hg] at hrest
    rcases List.eq_nil_or_concat' lexemes with rfl | ⟨lexemes, lexeme, rfl⟩
    · cases hrest
    · obtain ⟨-, hnil, hrunning⟩ := hsound.front_of_consumes rfl hc
      exact ⟨by simp, (fresh_through_iff hd hlimit hname listening (by simp)).mp
        ⟨hc, accepted_iff.mpr ⟨hnil hrest, hrunning⟩⟩⟩
  · rintro ⟨hne, hends⟩
    obtain ⟨hc, hacc⟩ := (fresh_through_iff hd hlimit hname listening hne).mpr hends
    obtain ⟨hstack, hrunning⟩ := accepted_iff.mp hacc
    obtain ⟨hverdict, haccepted⟩ := feed_end_of_through hstack hrunning
    exact ⟨⟨hc, hverdict, trivial⟩, haccepted⟩

end Unmarked

end Parser

variable {g : Grammar} {settings : Settings} {analysis : Analysis} {start : Option String}
  {listening : Bool} {p : Parser}

/-- **Acceptance without an end marker.** A parser for an analysed grammar, without a depth limit,
is through with some lexemes, one or more, iff its start ends eagerly in their classes. If no
alternative names the end of the input, a parse accepts just the lists whose lexemes that are not
empty are such; so it refuses the empty input, and every list in front of whose last class something
is left behind that class, though it may vanish. -/
theorem accepted_iff_endsEagerly (h : Analysis.run g settings = .ok analysis)
    (hp : Parser.create ⟨analysis.grammar, analysis.table, none⟩ start listening = .ok p) :
    (∀ lexemes : List String, lexemes ≠ [] →
      ((p.Consumes (lexemes.map some) ∧ (p.fedAll (lexemes.map some)).accepted = true) ↔
        g.EndsEagerly p.start (g.classes lexemes))) ∧
    ((∀ q ∈ g.productions, .endOfInput ∉ q.rhs) → ∀ (lexemes : List String) (recording : Bool),
      ∃ result, Trace.parse ⟨analysis.grammar, analysis.table, none⟩ lexemes start recording =
          .ok result ∧
        (result.accepted = true ↔ g.classes (Trace.kept lexemes) ≠ [] ∧
          g.EndsEagerly p.start (g.classes (Trace.kept lexemes))) ∧
        ∀ w a r, g.classes (Trace.kept lexemes) = w ++ [a] →
          g.LeftDerives [.nonterminal p.start] w (a :: r) → r ≠ [] → result.accepted = false) := by
  have hd : analysis.table.Decides analysis.grammar := Analysis.decides_grammar h
  obtain rfl : analysis.grammar = g := (Analysis.of_run h).1
  obtain ⟨hname, rfl⟩ := Parser.create_eq_ok_iff.mp hp
  refine ⟨fun lexemes hne => Parser.fresh_through_iff hd rfl hname listening hne,
    fun hend lexemes recording => ?_⟩
  have hrecord : Parser.create ⟨analysis.grammar, analysis.table, none⟩ start recording =
      .ok (.fresh ⟨analysis.grammar, analysis.table, none⟩ _ recording) :=
    Parser.create_eq_ok_iff.mpr ⟨hname, rfl⟩
  obtain ⟨result, hparse, hparsed⟩ := Trace.exists_parsed hrecord (.of_create hd hrecord) lexemes
  have haccepted : result.accepted = true ↔ Trace.kept lexemes ≠ [] ∧ analysis.grammar.EndsEagerly
      (Parser.startOf analysis.grammar start)
      (analysis.grammar.classes (Trace.kept lexemes)) := by
    rw [hparsed.accepted, Trace.inputOf_eq]
    exact Parser.fresh_accepts_unmarked hd rfl hname hend recording _
  have hempty : analysis.grammar.classes (Trace.kept lexemes) = [] ↔ Trace.kept lexemes = [] :=
    List.map_eq_nil_iff
  refine ⟨result, hparse, by rwa [ne_eq, hempty], fun w a r hw hl hr => ?_⟩
  refine Bool.eq_false_iff.mpr fun hacc => hr ?_
  have hends := (haccepted.mp hacc).2
  have htokens : ∀ s ∈ w ++ [a], s.IsToken := by
    rw [← hw]
    exact fun s hs => Grammar.isToken_of_mem_classes hs
  rw [hw, Grammar.endsEagerly_concat_iff fun s hs => (htokens s hs).1] at hends
  exact hd.front_unique hname (y := []) (Grammar.Derives.refl _) htokens hl hends

/-- An `a`, and perhaps a `b` after it. -/
def Grammar.optionalEnd : Grammar :=
  .build "S" (.ofList [("S", [[.terminal "a", .nonterminal "B"]]), ("B", [[.terminal "b"], []])])
    (.ofList ["a", "b"])

/-- With the `b` the start ends eagerly; without it the parse is refused, though it is derived. -/
theorem optionalEnd_accepts :
    ∃ analysis p result result', Analysis.run .optionalEnd .defaults = .ok analysis ∧
      Parser.create ⟨analysis.grammar, analysis.table, none⟩ none false = .ok p ∧
      (p.fedAll [some "a", some "b"]).accepted = true ∧
      Trace.parse ⟨analysis.grammar, analysis.table, none⟩ ["a", "b"] none false = .ok result ∧
      result.accepted = true ∧
      Trace.parse ⟨analysis.grammar, analysis.table, none⟩ ["a"] none false = .ok result' ∧
      result'.accepted = false ∧
      Grammar.optionalEnd.Derives [.nonterminal "S"] [.terminal "a"] := by
  obtain ⟨analysis, h, hp⟩ := Analysis.exists_create (g := .optionalEnd) (s := .defaults)
    (by decide +kernel) none (by decide +kernel) none false
  have hS : Grammar.optionalEnd.HasAlternative "S" [.terminal "a", .nonterminal "B"] :=
    ⟨_, rfl, by simp⟩
  have hb : Grammar.optionalEnd.HasAlternative "B" [.terminal "b"] := ⟨_, rfl, by simp⟩
  have hB : Grammar.optionalEnd.HasAlternative "B" [] := ⟨_, rfl, by simp⟩
  obtain ⟨hfed, hparses⟩ := accepted_iff_endsEagerly h hp
  replace hparses := hparses (by decide +kernel)
  obtain ⟨result, hparse, hiff, -⟩ := hparses ["a", "b"] false
  obtain ⟨result', hparse', -, hrefused⟩ := hparses ["a"] false
  have hclasses : Grammar.optionalEnd.classes (Trace.kept ["a", "b"]) =
      [.terminal "a", .terminal "b"] := by decide +kernel
  have hclass : Grammar.optionalEnd.classes (Trace.kept ["a"]) = [] ++ [.terminal "a"] := by
    decide +kernel
  have hends : Grammar.optionalEnd.EndsEagerly "S" [.terminal "a", .terminal "b"] :=
    .within (u := [.terminal "a"]) hS (.refl _) (.last (u := []) hb rfl (.refl _))
  refine ⟨analysis, _, result, result', h, hp, ((hfed ["a", "b"] (by simp)).mpr hends).2, hparse,
    hiff.mpr ?_, hparse', ?_, ?_⟩
  · rw [hclasses]
    exact ⟨by simp, hends⟩
  · exact hrefused [] _ [.nonterminal "B"] hclass (.expand hS (.refl _)) (by simp)
  · exact (Grammar.derives_cons hS []).trans
      ((Grammar.derives_cons hB []).append_left [.terminal "a"])

end Predictive
