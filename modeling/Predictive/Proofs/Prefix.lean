import Predictive.Proofs.Simulation
import Predictive.Proofs.Trace

/-!
# Errors are found as early as possible

A parser for an analysed grammar consumes a list of lexemes iff their classes are the beginning of
something that the start derives.

* `Parser.Sound.leftDerives_of_consumes`: consumed lexemes are read off by a leftmost derivation.
* `Parser.Sound.consumes_of_expects`: expected lexemes are consumed.
* `consumes_iff_isPrefix`: both together, for lists that are fed and for parses.
-/

namespace Predictive

/-- The symbols of some lexemes. -/
def Grammar.classes (g : Grammar) (lexemes : List String) : List Symbol :=
  lexemes.map fun lexeme => g.classify (some lexeme)

/-- The lexemes that a parse feeds: those that are not empty. -/
def Trace.kept (lexemes : List String) : List String := lexemes.filter (!·.isEmpty)

theorem Trace.inputOf_eq (lexemes : List String) :
    inputOf lexemes = (kept lexemes).map some ++ [none] := rfl

namespace Grammar

variable {g : Grammar}

theorem classify_some_ne (lexeme : String) : g.classify (some lexeme) ≠ .endOfInput := by
  unfold classify
  simp only
  split
  · exact fun h => by cases h
  · decide

theorem isNonterminal_of_mem_classes {lexemes : List String} {s : Symbol}
    (hs : s ∈ g.classes lexemes) : s.isNonterminal = false := by
  obtain ⟨lexeme, -, rfl⟩ := List.mem_map.mp hs
  exact (g.isToken_classify (some lexeme)).1

theorem endOfInput_not_mem_classes (lexemes : List String) :
    .endOfInput ∉ g.classes lexemes := by
  intro h
  obtain ⟨lexeme, -, heq⟩ := List.mem_map.mp h
  exact classify_some_ne lexeme heq

end Grammar

namespace Parser.Sound

variable {p : Parser}

/-- **Consumed lexemes are read off by a leftmost derivation**, and what it leaves is what the
parser has left. -/
theorem leftDerives_of_consumes (h : p.Sound) (hh : p.halted = none) {lexemes : List String}
    (hc : p.Consumes (lexemes.map some)) :
    p.automaton.grammar.LeftDerives (p.stack.rest p.automaton.grammar)
        (p.automaton.grammar.classes lexemes)
        ((p.fedAll (lexemes.map some)).stack.rest p.automaton.grammar) ∧
      (p.fedAll (lexemes.map some)).halted = none := by
  induction lexemes generalizing p with
  | nil => exact ⟨.refl _, hh⟩
  | cons lexeme lexemes ih =>
    obtain ⟨⟨c, hverdict⟩, hmore⟩ := hc
    obtain ⟨-, hrunning, hread⟩ := h.leftDerives_of_consumed hverdict
    have hg : (p.feed (some lexeme)).parser.automaton = p.automaton := automaton_feed
    obtain ⟨hl, hh'⟩ := ih (h.feed (some lexeme)) hrunning hmore
    rw [hg] at hl
    refine ⟨?_, hh'⟩
    rcases hread with ⟨hread, -⟩ | ⟨hend, -⟩
    · exact hread.trans hl
    · exact absurd hend (Grammar.classify_some_ne lexeme)

/-- **Expected lexemes are consumed** without a depth limit, if what stands behind the stack does
not begin with a lexeme; and then the rest is still expected. -/
theorem consumes_of_expects (h : p.Sound) (hlimit : p.automaton.depthLimit = none)
    (hh : p.halted = none) {lexemes : List String} {behind w r : List Symbol}
    (hb : ∀ lexeme : String,
      ¬ p.automaton.grammar.Begins (p.automaton.grammar.classify (some lexeme)) behind)
    (he : p.automaton.grammar.Expects (p.stack.rest p.automaton.grammar ++ behind)
      (p.automaton.grammar.classes lexemes ++ w) r) :
    p.Consumes (lexemes.map some) ∧ p.automaton.grammar.Expects
      ((p.fedAll (lexemes.map some)).stack.rest p.automaton.grammar ++ behind) w r := by
  induction lexemes generalizing p with
  | nil => exact ⟨trivial, he⟩
  | cons lexeme lexemes ih =>
    have hg : (p.feed (some lexeme)).parser.automaton = p.automaton := automaton_feed
    rcases h.consumed_of_expects hlimit hh he with ⟨⟨c, hverdict⟩, he'⟩ | ⟨he', -⟩
    · obtain ⟨-, hrunning, -⟩ := h.leftDerives_of_consumed hverdict
      have hnext := ih (h.feed (some lexeme)) (by rw [hg]; exact hlimit) hrunning
      rw [hg] at hnext
      obtain ⟨hmore, hrest⟩ := hnext hb he'
      exact ⟨⟨⟨c, hverdict⟩, hmore⟩, hrest⟩
    · exact absurd he'.leftDerives.begins (hb lexeme)

end Parser.Sound

variable {g : Grammar} {settings : Settings} {analysis : Analysis} {start : Option String}
  {listening : Bool} {p : Parser}

namespace Parser

/-- A fresh parser without a depth limit consumes just the viable lists of lexemes. -/
theorem fresh_consumes_iff {automaton : Automaton} {name : String}
    (hd : automaton.table.Decides automaton.grammar) (hlimit : automaton.depthLimit = none)
    (hname : name ∈ automaton.grammar.nonterminals) (listening : Bool) (lexemes : List String) :
    (fresh automaton name listening).Consumes (lexemes.map some) ↔
      automaton.grammar.IsPrefix name (automaton.grammar.classes lexemes) := by
  have hsound : (fresh automaton name listening).Sound := ⟨hd, Stack.wellFormed_start name⟩
  rw [Grammar.isPrefix_iff fun s hs => Grammar.isNonterminal_of_mem_classes hs]
  constructor
  · intro hc
    exact ⟨_, (hsound.leftDerives_of_consumes rfl hc).1⟩
  · rintro ⟨r, hl⟩
    have he : automaton.grammar.Expects ([.nonterminal name] ++ [])
        (automaton.grammar.classes lexemes ++ []) r := by
      rw [List.append_nil, List.append_nil]
      exact ⟨⟨name, hname, [], Grammar.Derives.refl _⟩, hl⟩
    exact (hsound.consumes_of_expects hlimit rfl (fun _ => Grammar.not_begins_nil) he).1

end Parser

/-- **The earliest error is found, and no other.** Without a depth limit, a parser for an analysed
grammar consumes a list of lexemes iff their classes are a prefix of something that its start
derives; and a parse has a result, which counts a number of its lexemes as consumed iff that many of
them are such a prefix. -/
theorem consumes_iff_isPrefix (h : Analysis.run g settings = .ok analysis)
    (hp : Parser.create ⟨analysis.grammar, analysis.table, none⟩ start listening = .ok p)
    (lexemes : List String) (recording : Bool) :
    (p.Consumes (lexemes.map some) ↔ g.IsPrefix p.start (g.classes lexemes)) ∧
      ∃ result, Trace.parse ⟨analysis.grammar, analysis.table, none⟩ lexemes start recording =
          .ok result ∧
        ∀ k ≤ (Trace.kept lexemes).length,
          k ≤ result.consumed ↔ g.IsPrefix p.start (g.classes ((Trace.kept lexemes).take k)) := by
  have hg : analysis.grammar = g := (Analysis.of_run h).1
  have hd : analysis.table.Decides analysis.grammar := Analysis.decides_grammar h
  obtain ⟨hstart, rfl⟩ := Parser.create_eq_ok_iff.mp hp
  have hconsumes (listening : Bool) (lexemes : List String) :
      (Parser.fresh ⟨analysis.grammar, analysis.table, none⟩ _ listening).Consumes
          (lexemes.map some) ↔ analysis.grammar.IsPrefix _ (analysis.grammar.classes lexemes) :=
    Parser.fresh_consumes_iff hd rfl hstart listening lexemes
  have hrecord : Parser.create ⟨analysis.grammar, analysis.table, none⟩ start recording =
      .ok (.fresh ⟨analysis.grammar, analysis.table, none⟩ _ recording) :=
    Parser.create_eq_ok_iff.mpr ⟨hstart, rfl⟩
  obtain ⟨result, hparse, hparsed⟩ := Trace.exists_parsed hrecord (.of_create hd hrecord) lexemes
  rw [← hg]
  refine ⟨hconsumes listening lexemes, result, hparse, fun k hk => ?_⟩
  have hk' : k ≤ (Trace.inputOf lexemes).length := by
    rw [Trace.inputOf_eq, List.length_append, List.length_map]
    omega
  have hcount := hparsed.consumed k hk'
  rw [Nat.zero_add, Trace.inputOf_eq, List.take_append_of_le_length (by rwa [List.length_map]),
    ← List.map_take] at hcount
  rw [hcount]
  exact hconsumes recording _

/-- The second run may come at once, because the first one vanishes in front of it. -/
theorem twoRuns_consumes :
    ∃ analysis p, Analysis.run .twoRuns .defaults = .ok analysis ∧
      Parser.create ⟨analysis.grammar, analysis.table, none⟩ none false = .ok p ∧
      p.Consumes [some "b"] := by
  obtain ⟨analysis, h, hp⟩ := Analysis.exists_create (g := .twoRuns) (s := .defaults)
    (by decide +kernel) none (by decide +kernel) none false
  refine ⟨analysis, _, h, hp, ?_⟩
  refine (consumes_iff_isPrefix h hp ["b"] false).1.mpr ?_
  have hclasses : Grammar.twoRuns.classes ["b"] = [.terminal "b"] := by decide +kernel
  rw [hclasses]
  obtain ⟨hS, -, hA, hB, -⟩ := Grammar.twoRuns_alternatives
  exact ⟨[.nonterminal "B", .endOfInput], ((Grammar.derives_cons hS []).trans
    (Grammar.derives_cons hA _)).trans (Grammar.derives_cons hB _)⟩

end Predictive
