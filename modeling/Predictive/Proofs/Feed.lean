import Predictive.Proofs.Growth
import Predictive.Session

/-!
# Parsers at work

A parser that is made for an analysed grammar keeps a well-formed stack, whatever it is asked to do
(`Parser.Sound.after`). So every feed is some turns and one last move, or the repetition of a
refusal.

* `Parser.Intact.after`: for a well-formed stack it is enough that the cells of the table are valid.
* `Parser.Sound.settled`: a feed consumes its token or refuses it.
* `feed_ends_in_bounds`: it comes to its end, and on the way the stack grows by no more frames than
  the grammar has nonterminals, whatever the depth limit and whatever was fed before.
-/

namespace Predictive

namespace Parser

/-- The parser after some operations. -/
def after (p : Parser) (ops : List Operation) : Parser :=
  ops.foldl (fun p op => (p.perform op).parser) p

/-- The stacks that a parser holds from the beginning of a feed to its end: those between its
moves, and those that the moves show. -/
def Holds (p : Parser) (lexeme : Option String) (stack : Stack) : Prop :=
  stack = p.stack ∨ (p.halted = none ∧
    ((∃ events, p.automaton.Moves (p.tokenOf lexeme) p.stack events stack) ∨
      (p.automaton.run (p.tokenOf lexeme) p.stack).Shows stack))

/-- The work on a lexeme comes to its end: it is some turns and a last move. A halted parser does
not work. -/
def Ends (p : Parser) (lexeme : Option String) : Prop :=
  p.halted = none → ∃ events last outcome,
    p.automaton.Moves (p.tokenOf lexeme) p.stack events last ∧
    p.automaton.step (p.tokenOf lexeme) last = .done outcome ∧
    p.automaton.run (p.tokenOf lexeme) p.stack = outcome.after events

/-- The cells of the table are valid, and the stack is well formed. -/
structure Intact (p : Parser) : Prop where
  valid : p.automaton.table.CellsValid p.automaton.grammar
  wellFormed : p.stack.WellFormed p.automaton.grammar

/-- The table of the parser decides its grammar, and its stack is well formed. -/
structure Sound (p : Parser) : Prop where
  decides : p.automaton.table.Decides p.automaton.grammar
  wellFormed : p.stack.WellFormed p.automaton.grammar

/-! ## New parsers -/

/-- The nonterminal that is derived when a start is given or not. -/
def startOf (g : Grammar) : Option String → String
  | none => g.start
  | some name => if name.isEmpty then g.start else name

/-- A parser before the first token. -/
def fresh (automaton : Automaton) (name : String) (listening : Bool) : Parser :=
  ⟨automaton, name, listening, [.undecided name], none⟩

/-- A new parser is a fresh one; an undeclared start makes none. -/
theorem create_eq (automaton : Automaton) (start : Option String) (listening : Bool) :
    create automaton start listening =
      if automaton.grammar.rules.contains (startOf automaton.grammar start) then
        .ok (fresh automaton (startOf automaton.grammar start) listening)
      else .error (.undeclaredSymbol none (startOf automaton.grammar start)) := by
  cases start <;> rfl

/-- A new parser is a fresh one, and its start is declared. -/
theorem create_eq_ok_iff {automaton : Automaton} {start : Option String} {listening : Bool}
    {p : Parser} :
    create automaton start listening = .ok p ↔
      startOf automaton.grammar start ∈ automaton.grammar.nonterminals ∧
        p = fresh automaton (startOf automaton.grammar start) listening := by
  rw [create_eq, Grammar.nonterminals, ← OrderedMap.contains_iff]
  split
  · rename_i hc
    simp [hc, eq_comm]
  · rename_i hc
    simp [hc]

theorem Sound.of_create {automaton : Automaton} {start : Option String} {listening : Bool}
    {p : Parser} (hd : automaton.table.Decides automaton.grammar)
    (h : create automaton start listening = .ok p) : p.Sound := by
  obtain ⟨-, rfl⟩ := create_eq_ok_iff.mp h
  exact ⟨hd, Stack.wellFormed_start _⟩

/-! ## A feed -/

variable {p : Parser} {lexeme : Option String}

theorem isToken_tokenOf : (p.tokenOf lexeme).symbol.IsToken :=
  p.automaton.grammar.isToken_classify lexeme

theorem feed_of_halted {e : ParseError} (h : p.halted = some e) :
    p.feed lexeme = ⟨p, .refused e, []⟩ := by
  unfold feed
  rw [h]

theorem feed_of_running (h : p.halted = none) :
    p.feed lexeme =
      { parser :=
          { p with
            stack := (p.automaton.run (p.tokenOf lexeme) p.stack).stack
            halted := refusal? (p.automaton.run (p.tokenOf lexeme) p.stack).verdict }
        verdict := (p.automaton.run (p.tokenOf lexeme) p.stack).verdict
        events := if p.listening then (p.automaton.run (p.tokenOf lexeme) p.stack).events
          else [] } := by
  unfold feed
  rw [h]

/-- Only a running parser consumes a token, and it stays running. -/
theorem running_of_consumed {c : Consumed} (hc : (p.feed lexeme).verdict = .consumed c) :
    p.halted = none ∧ (p.feed lexeme).parser.halted = none := by
  cases hh : p.halted with
  | some e =>
    rw [feed_of_halted hh] at hc
    cases hc
  | none =>
    rw [feed_of_running hh] at hc ⊢
    exact ⟨rfl, congrArg refusal? hc⟩

/-- A refusal halts the parser. -/
theorem halted_of_refused {e : ParseError} (h : (p.feed lexeme).verdict = .refused e) :
    (p.feed lexeme).parser.halted = some e := by
  cases hh : p.halted with
  | some e' =>
    rw [feed_of_halted hh] at h ⊢
    cases h
    exact hh
  | none =>
    rw [feed_of_running hh] at h ⊢
    exact congrArg refusal? h

theorem reset_feed : (p.feed lexeme).parser.reset = p.reset := by
  cases hh : p.halted with
  | some e => rw [feed_of_halted hh]
  | none =>
    rw [feed_of_running hh]
    rfl

theorem automaton_feed : (p.feed lexeme).parser.automaton = p.automaton := by
  show (p.feed lexeme).parser.reset.automaton = p.reset.automaton
  rw [reset_feed]

theorem reset_perform (op : Operation) : (p.perform op).parser.reset = p.reset := by
  cases op with
  | reset | classify => rfl
  | feed lexeme => exact reset_feed

/-- **A reset goes back to the same parser**, whatever has been asked: to one with the same automaton
and the same start. -/
theorem reset_after (ops : List Operation) : (p.after ops).reset = p.reset := by
  induction ops generalizing p with
  | nil => rfl
  | cons op ops ih =>
    show ((p.perform op).parser.after ops).reset = p.reset
    rw [ih, reset_perform]

theorem automaton_after (ops : List Operation) : (p.after ops).automaton = p.automaton := by
  show (p.after ops).reset.automaton = p.reset.automaton
  rw [reset_after]

theorem start_after (ops : List Operation) : (p.after ops).start = p.start := by
  show (p.after ops).reset.start = p.reset.start
  rw [reset_after]

theorem listening_after (ops : List Operation) : (p.after ops).listening = p.listening := by
  show (p.after ops).reset.listening = p.reset.listening
  rw [reset_after]

/-- The work on a token is some turns, and a last move unless it has no end. -/
theorem run_spec (p : Parser) (lexeme : Option String) :
    ∃ events last outcome, p.automaton.Moves (p.tokenOf lexeme) p.stack events last ∧
      p.automaton.run (p.tokenOf lexeme) p.stack = outcome.after events ∧
      (p.automaton.Halt (p.tokenOf lexeme) last outcome ∨ outcome = ⟨last, [], .endless⟩) := by
  obtain ⟨events, last, outcome, hm, hrun, hlast⟩ := Automaton.runBelow_spec p.automaton
    (p.tokenOf lexeme) (p.automaton.ceiling p.stack) p.stack
  exact ⟨events, last, outcome, hm, hrun, hlast.imp_right (·.1)⟩

namespace Intact

theorem feed (h : p.Intact) (lexeme : Option String) : (p.feed lexeme).parser.Intact := by
  cases hh : p.halted with
  | some e =>
    rw [feed_of_halted hh]
    exact h
  | none =>
    rw [feed_of_running hh]
    refine ⟨h.valid, ?_⟩
    obtain ⟨events, last, outcome, hm, hrun, hlast⟩ := p.run_spec lexeme
    have hw := hm.wellFormed h.wellFormed
    rw [hrun]
    rcases hlast with hhalt | rfl
    · exact ((hhalt.settled h.valid hw).2 _ (.inl rfl)).1
    · exact hw

theorem perform (h : p.Intact) (op : Operation) : (p.perform op).parser.Intact := by
  cases op with
  | reset => exact ⟨h.valid, Stack.wellFormed_start p.start⟩
  | classify => exact h
  | feed lexeme => exact h.feed lexeme

/-- **An intact parser stays intact.** -/
theorem after (h : p.Intact) (ops : List Operation) : (p.after ops).Intact := by
  induction ops generalizing p with
  | nil => exact h
  | cons op ops ih => exact ih (h.perform op)

end Intact

namespace Sound

theorem intact (h : p.Sound) : p.Intact := ⟨h.decides.valid, h.wellFormed⟩

/-- **A sound parser stays sound.** -/
theorem after (h : p.Sound) (ops : List Operation) : (p.after ops).Sound := by
  refine ⟨?_, (h.intact.after ops).wellFormed⟩
  rw [automaton_after]
  exact h.decides

theorem feed (h : p.Sound) (lexeme : Option String) : (p.feed lexeme).parser.Sound :=
  h.after [.feed lexeme]

/-- The work on a token by a sound parser is some turns and one last move. -/
theorem exists_moves_run (h : p.Sound) (lexeme : Option String) :
    ∃ events last outcome, p.automaton.Moves (p.tokenOf lexeme) p.stack events last ∧
      p.automaton.Halt (p.tokenOf lexeme) last outcome ∧
      p.automaton.run (p.tokenOf lexeme) p.stack = outcome.after events :=
  Automaton.exists_moves_run h.decides isToken_tokenOf h.wellFormed

/-- The work on a token consumes it or refuses it, and all it shows at the end is well formed and
in bounds. -/
theorem run_spec (h : p.Sound) (lexeme : Option String) :
    ((∃ c, (p.automaton.run (p.tokenOf lexeme) p.stack).verdict = .consumed c) ∨
      ∃ e, (p.automaton.run (p.tokenOf lexeme) p.stack).verdict = .refused e) ∧
    ∀ s, (p.automaton.run (p.tokenOf lexeme) p.stack).Shows s →
      s.WellFormed p.automaton.grammar ∧
        s.length ≤ p.stack.length + p.automaton.grammar.nonterminals.length := by
  obtain ⟨events, last, outcome, hm, hh, hrun⟩ := h.exists_moves_run lexeme
  have bound {earlier : List Event} {s : Stack}
      (hm : p.automaton.Moves (p.tokenOf lexeme) p.stack earlier s) :
      s.length ≤ p.stack.length + p.automaton.grammar.nonterminals.length :=
    Automaton.length_le_of_moves h.decides isToken_tokenOf h.wellFormed hm
  obtain ⟨hverdict, hkept⟩ := hh.settled h.decides.valid (hm.wellFormed h.wellFormed)
  rw [hrun]
  refine ⟨hverdict, fun s hshow => ?_⟩
  rcases Outcome.shows_after.mp hshow with ⟨e, he, rfl⟩ | hshow
  · obtain ⟨earlier, hm'⟩ := hm.exists_of_mem he
    exact ⟨hm'.wellFormed h.wellFormed, bound hm'⟩
  · obtain ⟨hw, hlen⟩ := hkept s hshow
    exact ⟨hw, Nat.le_trans hlen (bound hm)⟩

/-- **A feed consumes its token or refuses it.** -/
theorem settled (h : p.Sound) (lexeme : Option String) :
    (∃ c, (p.feed lexeme).verdict = .consumed c) ∨ ∃ e, (p.feed lexeme).verdict = .refused e := by
  cases hh : p.halted with
  | some e =>
    rw [feed_of_halted hh]
    exact .inr ⟨e, rfl⟩
  | none =>
    rw [feed_of_running hh]
    exact (h.run_spec lexeme).1

/-- Every event of a feed shows a well-formed stack. -/
theorem events_wellFormed (h : p.Sound) {e : Event} (he : e ∈ (p.feed lexeme).events) :
    e.stack.WellFormed p.automaton.grammar := by
  cases hh : p.halted with
  | some e =>
    rw [feed_of_halted hh] at he
    exact absurd he List.not_mem_nil
  | none =>
    rw [feed_of_running hh] at he
    simp only at he
    split at he
    · exact ((h.run_spec lexeme).2 _ (.inr ⟨e, he, rfl⟩)).1
    · exact absurd he List.not_mem_nil

/-- From the beginning of a feed to its end the stacks are well formed and in bounds. -/
theorem holds_spec (h : p.Sound) {s : Stack} (hs : p.Holds lexeme s) :
    s.WellFormed p.automaton.grammar ∧
      s.length ≤ p.stack.length + p.automaton.grammar.nonterminals.length := by
  rcases hs with rfl | ⟨-, ⟨events, hm⟩ | hshow⟩
  · exact ⟨h.wellFormed, Nat.le_add_right _ _⟩
  · exact ⟨hm.wellFormed h.wellFormed,
      Automaton.length_le_of_moves h.decides isToken_tokenOf h.wellFormed hm⟩
  · exact (h.run_spec lexeme).2 s hshow

theorem length_le_of_holds (h : p.Sound) {s : Stack} (hs : p.Holds lexeme s) :
    s.length ≤ p.stack.length + p.automaton.grammar.nonterminals.length := (h.holds_spec hs).2

end Sound

end Parser

variable {g : Grammar} {settings : Settings} {analysis : Analysis} {limit : Option Int}
  {start : Option String} {listening : Bool} {p : Parser}

/-- A new parser for an analysed grammar is sound. -/
theorem Analysis.sound_of_create (h : Analysis.run g settings = .ok analysis)
    (hp : Parser.create ⟨analysis.grammar, analysis.table, limit⟩ start listening = .ok p) :
    p.Sound := .of_create (Analysis.decides_grammar h) hp

/-- A grammar that is analysed has parsers for all its names. -/
theorem Analysis.exists_create {g : Grammar} {s : Settings}
    (hok : (Analysis.run g s).isOk = true) (start : Option String)
    (hstart : Parser.startOf g start ∈ g.nonterminals) (limit : Option Int) (listening : Bool) :
    ∃ analysis, Analysis.run g s = .ok analysis ∧
      Parser.create ⟨analysis.grammar, analysis.table, limit⟩ start listening =
        .ok (.fresh ⟨analysis.grammar, analysis.table, limit⟩ (Parser.startOf g start)
          listening) := by
  obtain ⟨analysis, h⟩ := exists_run hok
  have hg : analysis.grammar = g := (Analysis.of_run h).1
  refine ⟨analysis, h, ?_⟩
  rw [hg]
  exact Parser.create_eq_ok_iff.mpr ⟨hstart, rfl⟩

/-- **A feed comes to its end, and the stack stays in bounds.** Whatever a parser for an analysed
grammar has been asked before, the work on a lexeme is a finite number of moves that ends in its
consumption or its refusal, and no stack on the way exceeds the height before it by more than the
number of nonterminals. -/
theorem feed_ends_in_bounds (h : Analysis.run g settings = .ok analysis)
    (hp : Parser.create ⟨analysis.grammar, analysis.table, limit⟩ start listening = .ok p)
    (ops : List Operation) (lexeme : Option String) :
    (p.after ops).Ends lexeme ∧
      ((∃ c, ((p.after ops).feed lexeme).verdict = .consumed c) ∨
        ∃ e, ((p.after ops).feed lexeme).verdict = .refused e) ∧
      ∀ s, (p.after ops).Holds lexeme s →
        s.length ≤ (p.after ops).stack.length + g.nonterminals.length := by
  have hsound : (p.after ops).Sound := (Analysis.sound_of_create h hp).after ops
  refine ⟨fun _ => ?_, hsound.settled lexeme, fun s hs => ?_⟩
  · obtain ⟨events, last, outcome, hm, hh, hrun⟩ := hsound.exists_moves_run lexeme
    exact ⟨events, last, outcome, hm, hh.step_eq, hrun⟩
  · have hg : (p.after ops).automaton.grammar = g := by
      rw [Parser.automaton_after, (Parser.create_eq_ok_iff.mp hp).2]
      exact (Analysis.of_run h).1
    rw [← hg]
    exact hsound.length_le_of_holds hs

/-- The name `A` is left recursive behind `B`, which vanishes. -/
def Grammar.hiddenRecursion : Grammar :=
  .build "S" (.ofList [
    ("S", [[.terminal "x", .endOfInput], [.nonterminal "A", .endOfInput]]),
    ("A", [[.nonterminal "B", .nonterminal "A", .terminal "c"]]),
    ("B", [[]])]) (.ofList ["x", "c"])

/-- After a token and a reset, no token makes the stack higher than four frames. -/
theorem hiddenRecursion_in_bounds :
    ∃ analysis p, Analysis.run .hiddenRecursion .defaults = .ok analysis ∧
      Parser.create ⟨analysis.grammar, analysis.table, none⟩ none false = .ok p ∧
      ∀ lexeme s, (p.after [.feed (some "x"), .reset]).Holds lexeme s → s.length ≤ 4 := by
  obtain ⟨analysis, h, hp⟩ := Analysis.exists_create (g := .hiddenRecursion) (s := .defaults)
    (by decide +kernel) none (by decide +kernel) none false
  refine ⟨analysis, _, h, hp, fun lexeme s hs => ?_⟩
  have hlen := (feed_ends_in_bounds h hp [.feed (some "x"), .reset] lexeme).2.2 s hs
  have hn : Grammar.hiddenRecursion.nonterminals.length = 3 := by decide +kernel
  rw [hn] at hlen
  exact hlen

end Predictive
