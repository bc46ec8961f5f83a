import Mathlib.Data.List.Forall2
import Predictive.Proofs.Feed
import Predictive.Trace

/-!
# Automata that cannot be told apart

An index in a cell or in a frame is only ever used to find a production. So two automata behave in
the same way if their cells lead to the same productions, whatever the indexes are
(`Automaton.Similar`). Stacks are compared frame by frame in the same sense.

* `Automaton.Similar.step`: similar stacks stay similar, move by move.
* `Automaton.Similar.run`: the work on a token has the same verdict and the same actions.
* `Parser.Similar.feed`: similar parsers say the same of every lexeme, and stay similar.
* `Automaton.Similar.parse_eq`: a parse has the same result, all its records included.
-/

namespace Predictive

/-! ## What is compared -/

section Comparisons

variable (g g' : Grammar)

/-- The frames are at the same place of the same production. -/
structure Frame.Similar (f f' : Frame) : Prop where
  nonterminal_eq : f'.nonterminal = f.nonterminal
  position_eq : f'.position = f.position
  production?_eq : f'.production? g' = f.production? g

/-- The frames are similar one by one. -/
def Stack.Similar (stack stack' : Stack) : Prop := List.Forall₂ (Frame.Similar g g') stack stack'

/-- The actions are the same, and the stacks after them are similar. -/
structure Event.Similar (e e' : Event) : Prop where
  action_eq : e'.action = e.action
  stack : Stack.Similar g g' e.stack e'.stack

/-- The verdicts are the same, and the stacks and the events are similar. -/
structure Outcome.Similar (o o' : Outcome) : Prop where
  stack : Stack.Similar g g' o.stack o'.stack
  events : List.Forall₂ (Event.Similar g g') o.events o'.events
  verdict_eq : o'.verdict = o.verdict

/-- The moves lead to similar stacks or to similar outcomes. -/
inductive Move.Similar : Move → Move → Prop
  | next {stack stack' : Stack} {events events' : List Event}
      (hs : Stack.Similar g g' stack stack')
      (he : List.Forall₂ (Event.Similar g g') events events') :
      Similar (.next stack events) (.next stack' events')
  | done {o o' : Outcome} (h : Outcome.Similar g g' o o') : Similar (.done o) (.done o')

end Comparisons

/-- The grammars agree in all that a parse asks of them, and the cells lead to the same productions.
-/
structure Automaton.Similar (a a' : Automaton) : Prop where
  depthLimit_eq : a'.depthLimit = a.depthLimit
  start_eq : a'.grammar.start = a.grammar.start
  classify_eq : ∀ lexeme, a'.grammar.classify lexeme = a.grammar.classify lexeme
  contains_eq : ∀ name, a'.grammar.rules.contains name = a.grammar.rules.contains name
  count_eq : a'.grammar.nonterminals.length = a.grammar.nonterminals.length
  production?_eq : ∀ name s, (a'.table.lookup name s).map (a'.grammar.production? name) =
    (a.table.lookup name s).map (a.grammar.production? name)

variable {g g' : Grammar}

/-! ## Frames and stacks -/

namespace Frame

theorem similar_undecided (name : String) : Similar g g' (undecided name) (undecided name) :=
  ⟨rfl, rfl, rfl⟩

theorem similar_decided {name : String} {i i' : Int}
    (h : g'.production? name i' = g.production? name i) :
    Similar g g' (decided name i) (decided name i') := by
  refine ⟨rfl, rfl, ?_⟩
  unfold production? decided
  simp only [h]

variable {f f' : Frame}

theorem Similar.advance (h : Similar g g' f f') : Similar g g' f.advance f'.advance :=
  ⟨h.nonterminal_eq, congrArg (· + 1) h.position_eq, h.production?_eq⟩

theorem Similar.render_eq (h : Similar g g' f f') : f'.render g' = f.render g := by
  unfold render
  rw [h.production?_eq, h.nonterminal_eq, h.position_eq]

end Frame

namespace Stack

variable {stack stack' : Stack}

theorem Similar.resume (h : Similar g g' stack stack') :
    Similar g g' stack.resume stack'.resume := by
  cases h with
  | nil => exact .nil
  | cons hf hbelow => exact .cons hf.advance hbelow

theorem renderFrames_eq (h : List.Forall₂ (Frame.Similar g g') stack stack') :
    renderFrames g' stack' = renderFrames g stack := by
  induction h with
  | nil => rfl
  | cons hf _ ih =>
    unfold renderFrames
    rw [hf.render_eq, ih]

/-- Similar stacks have the same written form. -/
theorem Similar.render_eq (h : Similar g g' stack stack') : stack'.render g' = stack.render g :=
  renderFrames_eq (List.forall₂_reverse_iff.mpr h)

end Stack

theorem Outcome.Similar.after {o o' : Outcome} {events events' : List Event}
    (h : Similar g g' o o') (he : List.Forall₂ (Event.Similar g g') events events') :
    Similar g g' (o.after events) (o'.after events') :=
  ⟨h.stack, List.rel_append he h.events, h.verdict_eq⟩

/-- A verdict on similar stacks without an event. -/
theorem Outcome.similar_silent {stack stack' : Stack} (h : Stack.Similar g g' stack stack')
    (v : Verdict) : Similar g g' ⟨stack, [], v⟩ ⟨stack', [], v⟩ := ⟨h, .nil, rfl⟩

/-! ## The work on a token -/

namespace Automaton

variable {a a' : Automaton} {token : Token} {stack stack' below below' : Stack} {f f' : Frame}

theorem Similar.isComplete_eq (hf : Frame.Similar a.grammar a'.grammar f f') :
    a'.isComplete f' = a.isComplete f := by
  unfold isComplete
  rw [hf.production?_eq, hf.position_eq]

/-- The events of a closed frame are similar. -/
theorem similar_close (hf : Frame.Similar g g' f f') (hs : Stack.Similar g g' stack stack') :
    List.Forall₂ (Event.Similar g g') [⟨.close f.nonterminal, stack⟩]
      [⟨.close f'.nonterminal, stack'⟩] :=
  .cons ⟨congrArg Action.close hf.nonterminal_eq, hs⟩ .nil

theorem Similar.collapse (token : Token) (hf : Frame.Similar a.grammar a'.grammar f f')
    (hs : Stack.Similar a.grammar a'.grammar below below') :
    Outcome.Similar a.grammar a'.grammar (a.collapse token f below)
      (a'.collapse token f' below') := by
  induction hs generalizing f f' with
  | nil =>
    unfold Automaton.collapse
    rw [isComplete_eq hf]
    split
    · exact Outcome.similar_silent (.cons hf .nil) _
    · exact Outcome.similar_silent (.cons hf .nil) _
    · exact ⟨.nil, similar_close hf .nil, rfl⟩
  | @cons e e' below below' he hbelow ih =>
    have hlength : below'.length = below.length := hbelow.length_eq.symm
    unfold Automaton.collapse
    rw [isComplete_eq hf, hlength]
    split
    · exact Outcome.similar_silent (.cons hf (.cons he hbelow)) _
    · exact Outcome.similar_silent (.cons hf (.cons he hbelow)) _
    · exact (ih he.advance).after (similar_close hf (.cons he.advance hbelow))

variable (h : a.Similar a')

include h

theorem Similar.blocked?_eq (hs : Stack.Similar a.grammar a'.grammar stack stack') :
    a'.blocked? stack' = a.blocked? stack := by
  unfold blocked?
  rw [h.depthLimit_eq, hs.length_eq]

theorem Similar.choose (hf : Frame.Similar a.grammar a'.grammar f f')
    (hs : Stack.Similar a.grammar a'.grammar below below') :
    Move.Similar a.grammar a'.grammar (a.choose token f below) (a'.choose token f' below') := by
  have hcells := h.production?_eq f.nonterminal token.symbol
  unfold Automaton.choose
  rw [hf.nonterminal_eq]
  cases hl : a.table.lookup f.nonterminal token.symbol with
  | none =>
    rw [hl, Option.map_none, Option.map_eq_none_iff] at hcells
    rw [hcells]
    exact .done (Outcome.similar_silent (.cons hf hs) _)
  | some i =>
    rw [hl, Option.map_some, Option.map_eq_some_iff] at hcells
    -- The indexes may differ, but the decided frames are at the same production.
    obtain ⟨i', hl', hp⟩ := hcells
    have hdecided := Frame.similar_decided hp
    rw [hl']
    simp only [hp]
    split
    · exact .done (Outcome.similar_silent (.cons hdecided hs) _)
    · exact .next (.cons hdecided hs) (.cons ⟨rfl, .cons hdecided hs⟩ .nil)

theorem Similar.proceed (p : Production) (hf : Frame.Similar a.grammar a'.grammar f f')
    (hs : Stack.Similar a.grammar a'.grammar below below') :
    Move.Similar a.grammar a'.grammar (a.proceed token p f below)
      (a'.proceed token p f' below') := by
  have hstack : Stack.Similar a.grammar a'.grammar (f :: below) (f' :: below') := .cons hf hs
  unfold Automaton.proceed
  rw [hf.position_eq, h.blocked?_eq hstack]
  split
  · exact .next hs.resume (similar_close hf hs.resume)
  · split
    · split
      · exact .done (Outcome.similar_silent hstack _)
      · exact .next (.cons (Frame.similar_undecided _) hstack) .nil
    · split
      · refine .done ((Similar.collapse token hf.advance hs).after ?_)
        exact .cons ⟨rfl, .cons hf.advance hs⟩ .nil
      · exact .done (Outcome.similar_silent hstack _)

/-- **Similar stacks stay similar**, move by move. -/
theorem Similar.step (token : Token) (hs : Stack.Similar a.grammar a'.grammar stack stack') :
    Move.Similar a.grammar a'.grammar (a.step token stack) (a'.step token stack') := by
  cases hs with
  | nil =>
    show Move.Similar _ _ (.done (finish token)) (.done (finish token))
    refine .done ?_
    unfold finish
    split
    · exact ⟨.nil, .cons ⟨rfl, .nil⟩ .nil, rfl⟩
    · exact Outcome.similar_silent .nil _
  | @cons f f' below below' hf hbelow =>
    simp only [Automaton.step, hf.production?_eq]
    split
    · exact .done (Outcome.similar_silent (.cons hf hbelow) _)
    · exact h.choose hf hbelow
    · exact h.proceed _ hf hbelow

theorem Similar.runBelow (ceiling : Nat) (hs : Stack.Similar a.grammar a'.grammar stack stack') :
    Outcome.Similar a.grammar a'.grammar (a.runBelow ceiling token stack)
      (a'.runBelow ceiling token stack') := by
  -- Every move below the ceiling lowers the worth of the first stack.
  induction hn : a.work ceiling stack using Nat.strongRecOn generalizing stack stack' with
  | ind n ih =>
    have hstep := h.step token hs
    rw [runBelow_eq, runBelow_eq]
    generalize hm : a.step token stack = move at hstep ⊢
    generalize a'.step token stack' = move' at hstep ⊢
    cases hstep with
    | done ho => exact ho
    | @next next next' events events' hnext he =>
      have hlength : next'.length = next.length := hnext.length_eq.symm
      simp only [hlength]
      by_cases hbelow : next.length ≤ ceiling
      · rw [if_pos hbelow, if_pos hbelow]
        exact (ih _ (hn ▸ a.work_next hm hbelow) hnext rfl).after he
      · rw [if_neg hbelow, if_neg hbelow]
        exact Outcome.similar_silent hs .endless

theorem Similar.run (token : Token) (hs : Stack.Similar a.grammar a'.grammar stack stack') :
    Outcome.Similar a.grammar a'.grammar (a.run token stack) (a'.run token stack') := by
  have hceiling : a'.ceiling stack' = a.ceiling stack := by
    unfold ceiling
    rw [h.depthLimit_eq, h.count_eq, hs.length_eq]
  unfold Automaton.run
  rw [hceiling]
  exact h.runBelow _ hs

end Automaton

/-! ## Parsers -/

/-- The parsers are at the same place of one parse. -/
structure Parser.Similar (p p' : Parser) : Prop where
  automaton : p.automaton.Similar p'.automaton
  listening_eq : p'.listening = p.listening
  halted_eq : p'.halted = p.halted
  stack : Stack.Similar p.automaton.grammar p'.automaton.grammar p.stack p'.stack

namespace Parser

variable {p p' : Parser}

theorem similar_fresh {a a' : Automaton} (h : a.Similar a') (name : String) (listening : Bool) :
    Similar (fresh a name listening) (fresh a' name listening) :=
  ⟨h, rfl, rfl, .cons (Frame.similar_undecided name) .nil⟩

theorem Similar.accepted_eq (h : p.Similar p') : p'.accepted = p.accepted := by
  have hnil : p'.stack = [] ↔ p.stack = [] := by
    rw [← List.length_eq_zero_iff, ← List.length_eq_zero_iff, h.stack.length_eq]
  unfold accepted
  rw [h.halted_eq, Bool.eq_iff_iff]
  simp only [Bool.and_eq_true, List.isEmpty_iff, hnil]

/-- **Similar parsers say the same of a lexeme**, and stay similar. -/
theorem Similar.feed (h : p.Similar p') (lexeme : Option String) :
    (p.feed lexeme).parser.Similar (p'.feed lexeme).parser ∧
      (p'.feed lexeme).verdict = (p.feed lexeme).verdict ∧
      List.Forall₂ (Event.Similar p.automaton.grammar p'.automaton.grammar)
        (p.feed lexeme).events (p'.feed lexeme).events := by
  have hhalted := h.halted_eq
  cases hp : p.halted with
  | some e =>
    rw [hp] at hhalted
    rw [feed_of_halted hp, feed_of_halted hhalted]
    exact ⟨h, rfl, .nil⟩
  | none =>
    rw [hp] at hhalted
    have htoken : p'.tokenOf lexeme = p.tokenOf lexeme := by
      unfold tokenOf classify
      rw [h.automaton.classify_eq]
    obtain ⟨hstack, hevents, hverdict⟩ := h.automaton.run (p.tokenOf lexeme) h.stack
    rw [feed_of_running hp, feed_of_running hhalted, htoken, h.listening_eq]
    refine ⟨⟨h.automaton, rfl, congrArg refusal? hverdict, hstack⟩, hverdict, ?_⟩
    cases p.listening with
    | true => exact hevents
    | false => exact .nil

end Parser

/-! ## Parses of token lists -/

namespace Trace

theorem step_eq {stack stack' : Stack} (h : Stack.Similar g g' stack stack')
    (input : List (Option String)) (action : String) :
    step g' input stack' action = step g input stack action := by
  unfold step
  rw [h.render_eq]

theorem steps_eq {events events' : List Event}
    (h : List.Forall₂ (Event.Similar g g') events events') (input : List (Option String)) :
    steps g' input events' = steps g input events := by
  induction h with
  | nil => rfl
  | cons he _ ih =>
    unfold steps
    rw [step_eq he.stack, he.action_eq, ih]

theorem feedAll_eq {p p' : Parser} (h : p.Similar p') (done : Nat) (sofar : List TraceStep)
    (input : List (Option String)) : feedAll p' done sofar input = feedAll p done sofar input := by
  induction input generalizing p p' done sofar with
  | nil =>
    unfold feedAll
    rw [h.accepted_eq]
  | cons lexeme rest ih =>
    obtain ⟨hparser, hverdict, hevents⟩ := h.feed lexeme
    unfold feedAll
    simp only [steps_eq hevents, hverdict, ih hparser]

end Trace

/-- **A parse by similar automata has the same result**, its records and its failures included. -/
theorem Automaton.Similar.parse_eq {a a' : Automaton} (h : a.Similar a') (lexemes : List String)
    (start : Option String) (recording : Bool) :
    Trace.parse a' lexemes start recording = Trace.parse a lexemes start recording := by
  have hstart : Parser.startOf a'.grammar start = Parser.startOf a.grammar start := by
    unfold Parser.startOf
    rw [h.start_eq]
  unfold Trace.parse
  rw [Parser.create_eq, Parser.create_eq, hstart, h.contains_eq]
  split
  · have hfresh := Parser.similar_fresh h (Parser.startOf a.grammar start) recording
    have hinit (input : List (Option String)) :
        Trace.step a'.grammar input [.undecided (Parser.startOf a.grammar start)] "init" =
          Trace.step a.grammar input [.undecided (Parser.startOf a.grammar start)] "init" :=
      Trace.step_eq hfresh.stack input "init"
    simp only [Failure.lift, bind, Except.bind, Trace.feedAll_eq hfresh]
    simp only [Parser.fresh, hinit]
  · rfl

end Predictive
