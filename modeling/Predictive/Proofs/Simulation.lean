import Predictive.Proofs.Feed
import Predictive.Proofs.Leftmost

/-!
# The automaton follows leftmost derivations

What is left to derive of a stack is a form. A turn expands its first symbol or leaves it as it is,
and a consumed token is taken off its left end, so that the tokens consumed so far are read off by a
leftmost derivation (`Moves.leftDerives`, `Halt.of_consumed`). The other way round, a token that can
still be read off is never refused, though a cell of the table may have been filled for another
context: the alternative that the derivation takes is selected by the token in its own context, and
no other one is (`Decides.expand`).

* `Parser.Sound.leftDerives_of_consumed`: what a consumed token says about the rest.
* `Parser.Sound.consumed_of_expects`: a token that is expected is consumed, or everything is derived
  and the token comes behind it.
-/

namespace Predictive

/-- The word can be read off the form, which some declared nonterminal derives behind something
else, and then the last form is left. -/
structure Grammar.Expects (g : Grammar) (u w r : List Symbol) : Prop where
  context : ∃ root ∈ g.nonterminals, ∃ y, g.Derives [.nonterminal root] (y ++ u)
  leftDerives : g.LeftDerives u w r

namespace Grammar.Expects

variable {g : Grammar} {a : Symbol} {u w r : List Symbol}

/-- An expected token comes off the left end. -/
theorem tail {s : Symbol} (h : g.Expects (s :: u) (a :: w) r) (hs : s.isNonterminal = false) :
    s = a ∧ g.Expects u w r := by
  obtain ⟨⟨root, hroot, y, hd⟩, hl⟩ := h
  cases hl with
  | shift _ hl =>
    refine ⟨rfl, ⟨root, hroot, y ++ [a], ?_⟩, hl⟩
    simpa only [List.append_assoc, List.cons_append, List.nil_append] using hd
  | expand => exact absurd hs (by simp)

/-- The alternative of a leftmost derivation that goes on to a token is selected by the token. -/
theorem selects {name : String} (h : g.Expects (.nonterminal name :: u) (a :: w) r) :
    ∃ rhs, g.HasAlternative name rhs ∧ g.Selects name rhs a ∧ g.Expects (rhs ++ u) (a :: w) r := by
  obtain ⟨⟨root, hroot, y, hd⟩, hl⟩ := h
  cases hl with
  | shift ha => exact absurd ha (by simp)
  | @expand _ rhs _ _ _ hrhs hl =>
    exact ⟨rhs, hrhs, selects_of_begins hroot hd hl.begins,
      ⟨root, hroot, y, hd.trans ((derives_cons hrhs u).append_left y)⟩, hl⟩

end Grammar.Expects

/-- **The table expands as the derivation does.** -/
theorem ParsingTable.Decides.expand {g : Grammar} {table : ParsingTable} (h : table.Decides g)
    {name : String} {a : Symbol} (ha : a.IsToken) {u w r : List Symbol}
    (he : g.Expects (.nonterminal name :: u) (a :: w) r) {i : Int} {p : Production}
    (hl : table.lookup name a = some i) (hp : g.production? name i = .ok p) :
    g.Expects (p.rhs ++ u) (a :: w) r := by
  obtain ⟨rhs, hrhs, hs, he⟩ := he.selects
  have heq : p.rhs = rhs := h.unique ha (Grammar.hasAlternative_of_production? hp)
    (h.selects ha hl hp) hrhs hs
  rwa [heq]

namespace Automaton

variable {a : Automaton} {token : Token} {stack next : Stack} {events : List Event}
  {outcome : Outcome}

/-! ## What the moves derive -/

/-- A turn takes an alternative for the first symbol that is left, or leaves the rest as it is. -/
theorem Turn.rest (h : a.Turn token stack events next) :
    (∃ name i p u, a.table.lookup name token.symbol = some i ∧
      a.grammar.production? name i = .ok p ∧ stack.rest a.grammar = .nonterminal name :: u ∧
      next.rest a.grammar = p.rhs ++ u) ∨
    next.rest a.grammar = stack.rest a.grammar := by
  cases h with
  | @choose f below i p hf hl hp =>
    refine .inl ⟨f.nonterminal, i, p, Stack.behind a.grammar below, hl, hp, ?_, ?_⟩
    · rw [Stack.rest_cons, Frame.todo_of_undecided hf]
      rfl
    · rw [Stack.rest_cons, Frame.todo_of_production? (Frame.production?_decided hp)]
      rfl
  | close hf hs =>
    right
    rw [Stack.rest_resume, Stack.rest_cons, Frame.todo_eq_nil hf hs, List.nil_append]
  | descend hf hs hb =>
    right
    rw [Stack.rest_cons, Stack.rest_cons, Stack.behind_cons, Frame.todo_eq_cons hf hs,
      Frame.todo_of_undecided rfl]
    rfl

/-- The moves on a token that read nothing are steps of a leftmost derivation. -/
theorem Moves.leftDerives (h : a.Moves token stack events next) :
    a.grammar.LeftDerives (stack.rest a.grammar) [] (next.rest a.grammar) := by
  induction h with
  | refl => exact .refl _
  | turn ht _ ih =>
    rcases ht.rest with ⟨name, i, p, u, -, hp, hstack, hnext⟩ | heq
    · rw [hstack]
      rw [hnext] at ih
      exact .expand (Grammar.hasAlternative_of_production? hp) ih
    · rwa [heq] at ih

/-- A consumed token stood at the left end of what was left, or is the end of the input behind
everything. -/
theorem Halt.of_consumed (h : a.Halt token stack outcome) (hs : stack.WellFormed a.grammar)
    {c : Consumed} (hc : outcome.verdict = .consumed c) :
    (token.symbol.isNonterminal = false ∧
      stack.rest a.grammar = token.symbol :: outcome.stack.rest a.grammar ∧
      (outcome.stack.rest a.grammar = [] → outcome.stack = [])) ∨
    (token.symbol = .endOfInput ∧ stack = [] ∧ outcome.stack = []) := by
  cases h with
  | finish =>
    right
    unfold Automaton.finish at hc ⊢
    split at hc
    · rename_i ht
      simp [ht]
    · cases hc
  | unselected | mismatch | blocked | misled | lost => cases hc
  | @shift f below p hf hsym hn =>
    left
    exact ⟨hn, rest_eq_cons token hf hsym hs, (collapsed_advance token hf hsym hs).eq_nil⟩

/-! ## What a derivation makes the automaton do -/

section Decided

variable (hd : a.table.Decides a.grammar) (ht : token.symbol.IsToken)

include hd ht

/-- What stands behind the stack is kept by a turn, and so is the expectation of the token. -/
theorem Turn.expects (h : a.Turn token stack events next) {behind w r : List Symbol}
    (he : a.grammar.Expects (stack.rest a.grammar ++ behind) (token.symbol :: w) r) :
    a.grammar.Expects (next.rest a.grammar ++ behind) (token.symbol :: w) r := by
  rcases h.rest with ⟨name, i, p, u, hl, hp, hstack, hnext⟩ | heq
  · rw [hstack, List.cons_append] at he
    rw [hnext, List.append_assoc]
    exact hd.expand ht he hl hp
  · rwa [heq]

theorem Moves.expects (h : a.Moves token stack events next) {behind w r : List Symbol}
    (he : a.grammar.Expects (stack.rest a.grammar ++ behind) (token.symbol :: w) r) :
    a.grammar.Expects (next.rest a.grammar ++ behind) (token.symbol :: w) r :=
  h.invariant (P := fun s => a.grammar.Expects (s.rest a.grammar ++ behind) _ r)
    (fun hturn he => hturn.expects hd ht he) he

/-- **An expected token is not refused**: without a depth limit it is consumed, or it is expected
behind everything. -/
theorem Halt.of_expects (h : a.Halt token stack outcome) (hs : stack.WellFormed a.grammar)
    (hlimit : a.depthLimit = none) {behind w r : List Symbol}
    (he : a.grammar.Expects (stack.rest a.grammar ++ behind) (token.symbol :: w) r) :
    ((∃ c, outcome.verdict = .consumed c) ∧
      a.grammar.Expects (outcome.stack.rest a.grammar ++ behind) w r) ∨
    (stack = [] ∧ outcome = Automaton.finish token) := by
  have hsettled := h.settled hd.valid hs
  cases h with
  | finish => exact .inr ⟨rfl, rfl⟩
  | unselected hf hl =>
    rw [Stack.rest_cons, Frame.todo_of_undecided hf] at he
    obtain ⟨rhs, hrhs, hsel, -⟩ := he.selects
    obtain ⟨i, hl', -⟩ := hd.exists_lookup ht hrhs hsel
    rw [hl] at hl'
    cases hl'
  | mismatch hf hsym hn hne =>
    rw [Stack.rest_cons, Frame.todo_eq_cons hf hsym] at he
    exact absurd (he.tail hn).1 hne
  | blocked hf hsym hb =>
    rw [(blocked?_eq_some_iff.mp hb).1] at hlimit
    cases hlimit
  | @shift f below p hf hsym hn =>
    left
    refine ⟨⟨_, (collapsed_advance token hf hsym hs).verdict⟩, ?_⟩
    rw [rest_eq_cons token hf hsym hs] at he
    exact (he.tail hn).2
  | misled | lost => rcases hsettled.1 with ⟨c, hc⟩ | ⟨e, hc⟩ <;> cases hc

end Decided

end Automaton

/-! ## Feeds -/

namespace Parser.Sound

variable {p : Parser} {lexeme : Option String}

/-- **A consumed token was brought to the left end of what was left**, or is the end of the input,
and what was left vanishes. -/
theorem front_of_consumed (h : p.Sound) {c : Consumed}
    (hc : (p.feed lexeme).verdict = .consumed c) :
    p.halted = none ∧ (p.feed lexeme).parser.halted = none ∧
      ((p.automaton.grammar.LeftDerives (p.stack.rest p.automaton.grammar) []
          (p.classify lexeme :: (p.feed lexeme).parser.stack.rest p.automaton.grammar) ∧
          ((p.feed lexeme).parser.stack.rest p.automaton.grammar = [] →
            (p.feed lexeme).parser.stack = [])) ∨
        (p.classify lexeme = .endOfInput ∧
          p.automaton.grammar.LeftDerives (p.stack.rest p.automaton.grammar) [] [] ∧
          (p.feed lexeme).parser.stack = [])) := by
  obtain ⟨hh, hrunning⟩ := running_of_consumed hc
  refine ⟨hh, hrunning, ?_⟩
  obtain ⟨events, last, outcome, hm, hlast, hrun⟩ := h.exists_moves_run lexeme
  rw [feed_of_running hh, hrun] at hc ⊢
  have hleft := hm.leftDerives
  rcases hlast.of_consumed (hm.wellFormed h.wellFormed) hc with
    ⟨-, hrest, hnil⟩ | ⟨ht, rfl, hstack⟩
  · rw [hrest] at hleft
    exact .inl ⟨hleft, hnil⟩
  · exact .inr ⟨ht, hleft, hstack⟩

/-- A consumed token is read off what was left, or is the end of the input, and what was left
vanishes. -/
theorem leftDerives_of_consumed (h : p.Sound) {c : Consumed}
    (hc : (p.feed lexeme).verdict = .consumed c) :
    p.halted = none ∧ (p.feed lexeme).parser.halted = none ∧
      ((p.automaton.grammar.LeftDerives (p.stack.rest p.automaton.grammar) [p.classify lexeme]
          ((p.feed lexeme).parser.stack.rest p.automaton.grammar) ∧
          ((p.feed lexeme).parser.stack.rest p.automaton.grammar = [] →
            (p.feed lexeme).parser.stack = [])) ∨
        (p.classify lexeme = .endOfInput ∧
          p.automaton.grammar.LeftDerives (p.stack.rest p.automaton.grammar) [] [] ∧
          (p.feed lexeme).parser.stack = [])) := by
  obtain ⟨hh, hrunning, ⟨hleft, hnil⟩ | hend⟩ := h.front_of_consumed hc
  · have hn : (p.classify lexeme).isNonterminal = false := (isToken_tokenOf (p := p)).1
    exact ⟨hh, hrunning, .inl ⟨hleft.trans (.shift hn (.refl _)), hnil⟩⟩
  · exact ⟨hh, hrunning, .inr hend⟩

/-- **An expected token is consumed** without a depth limit, or is expected behind everything that
was left; the end of the input is consumed there too. -/
theorem consumed_of_expects (h : p.Sound) (hlimit : p.automaton.depthLimit = none)
    (hh : p.halted = none) {behind w r : List Symbol}
    (he : p.automaton.grammar.Expects (p.stack.rest p.automaton.grammar ++ behind)
      (p.classify lexeme :: w) r) :
    ((∃ c, (p.feed lexeme).verdict = .consumed c) ∧
      p.automaton.grammar.Expects
        ((p.feed lexeme).parser.stack.rest p.automaton.grammar ++ behind) w r) ∨
    (p.automaton.grammar.Expects behind (p.classify lexeme :: w) r ∧
      (p.classify lexeme = .endOfInput →
        (∃ c, (p.feed lexeme).verdict = .consumed c) ∧ (p.feed lexeme).parser.stack = [])) := by
  obtain ⟨events, last, outcome, hm, hlast, hrun⟩ := h.exists_moves_run lexeme
  have he' := hm.expects h.decides isToken_tokenOf he
  rw [feed_of_running hh, hrun]
  rcases hlast.of_expects h.decides isToken_tokenOf (hm.wellFormed h.wellFormed) hlimit he' with
    hconsumed | ⟨rfl, rfl⟩
  · exact .inl hconsumed
  · refine .inr ⟨he', fun hend => ?_⟩
    have hfinish : Automaton.finish (p.tokenOf lexeme) =
        ⟨[], [⟨.accept, []⟩], .consumed ⟨(p.tokenOf lexeme).symbol, lexeme, 0⟩⟩ := if_pos hend
    rw [hfinish]
    exact ⟨⟨_, rfl⟩, rfl⟩

end Parser.Sound

end Predictive
