import Predictive.Proofs.Feed

/-!
# A lexeme is only shown

The moves on a token depend on its symbol. Its lexeme goes into the event that consumes it and into
the refusal or the consumption that is reported, and nothing else is made of it: the work on another
lexeme of the same symbol is the same work, with the other lexeme shown (`Outcome.showing`).

* `Automaton.step_showing`: one move.
* `Automaton.run_showing`: the whole work on a token.
* `Parser.feed_showing`: a feed.
-/

namespace Predictive

variable (lexeme : Option String)

/-! ## Another lexeme -/

/-- The action when the token has another lexeme: only its consumption shows that. -/
def Action.showing : Action → Action
  | .shift _ => .shift lexeme
  | action => action

/-- The refusal when the token has another lexeme. -/
def ParseError.showing : ParseError → ParseError
  | .unexpectedToken nonterminal token _ => .unexpectedToken nonterminal token lexeme
  | .tokenMismatch expected actual _ => .tokenMismatch expected actual lexeme
  | .nestingTooDeep depth => .nestingTooDeep depth

/-- The verdict when the token has another lexeme. -/
def Verdict.showing : Verdict → Verdict
  | .consumed c => .consumed { c with lexeme := lexeme }
  | .refused e => .refused (e.showing lexeme)
  | verdict => verdict

/-- The event when the token has another lexeme. -/
def Event.showing (e : Event) : Event := { e with action := e.action.showing lexeme }

/-- The outcome when the token has another lexeme. -/
def Outcome.showing (o : Outcome) : Outcome :=
  ⟨o.stack, o.events.map (·.showing lexeme), o.verdict.showing lexeme⟩

/-- The move when the token has another lexeme. -/
def Move.showing : Move → Move
  | .next stack events => .next stack (events.map (·.showing lexeme))
  | .done o => .done (o.showing lexeme)

theorem Outcome.showing_after (o : Outcome) (events : List Event) :
    (o.after events).showing lexeme =
      (o.showing lexeme).after (events.map (·.showing lexeme)) := by
  unfold showing after
  rw [List.map_append]

/-! ## The work on a token -/

namespace Automaton

variable (a : Automaton) (symbol : Symbol) (other : Option String)

theorem collapse_showing (top : Frame) (below : List Frame) :
    a.collapse ⟨symbol, lexeme⟩ top below = (a.collapse ⟨symbol, other⟩ top below).showing lexeme := by
  induction below generalizing top with
  | nil =>
    unfold collapse
    cases a.isComplete top with
    | error e => rfl
    | ok complete => cases complete <;> rfl
  | cons f below ih =>
    unfold collapse
    cases a.isComplete top with
    | error e => rfl
    | ok complete =>
      cases complete with
      | false => rfl
      | true =>
        simp only [ih, Outcome.showing_after]
        rfl

theorem finish_showing :
    finish ⟨symbol, lexeme⟩ = (finish ⟨symbol, other⟩).showing lexeme := by
  unfold finish
  split <;> rfl

theorem choose_showing (f : Frame) (below : Stack) :
    a.choose ⟨symbol, lexeme⟩ f below = (a.choose ⟨symbol, other⟩ f below).showing lexeme := by
  unfold choose
  cases a.table.lookup f.nonterminal symbol with
  | none => rfl
  | some index =>
    simp only
    cases a.grammar.production? f.nonterminal index <;> rfl

theorem proceed_showing (p : Production) (f : Frame) (below : Stack) :
    a.proceed ⟨symbol, lexeme⟩ p f below = (a.proceed ⟨symbol, other⟩ p f below).showing lexeme := by
  unfold proceed
  cases p.rhs[f.position]? with
  | none => rfl
  | some s =>
    simp only
    split
    · cases a.blocked? (f :: below) <;> rfl
    · split
      · rw [collapse_showing lexeme a symbol other, Move.showing, Outcome.showing_after]
        rfl
      · rfl

/-- **A move depends on the symbol of the token**, and shows its lexeme. -/
theorem step_showing (stack : Stack) :
    a.step ⟨symbol, lexeme⟩ stack = (a.step ⟨symbol, other⟩ stack).showing lexeme := by
  cases stack with
  | nil => exact congrArg Move.done (finish_showing lexeme symbol other)
  | cons f below =>
    simp only [step]
    cases f.production? a.grammar with
    | error e => rfl
    | ok production =>
      cases production with
      | none => exact a.choose_showing lexeme symbol other f below
      | some p => exact a.proceed_showing lexeme symbol other p f below

theorem runBelow_showing (ceiling : Nat) (stack : Stack) :
    a.runBelow ceiling ⟨symbol, lexeme⟩ stack =
      (a.runBelow ceiling ⟨symbol, other⟩ stack).showing lexeme := by
  -- Every move below the ceiling lowers the worth of the stack.
  induction hn : a.work ceiling stack using Nat.strongRecOn generalizing stack with
  | ind n ih =>
    rw [runBelow_eq, runBelow_eq a ceiling ⟨symbol, other⟩, step_showing]
    cases hm : a.step ⟨symbol, other⟩ stack with
    | done outcome => rfl
    | next next events =>
      simp only [Move.showing]
      by_cases hbelow : next.length ≤ ceiling
      · rw [if_pos hbelow, if_pos hbelow, ih _ (hn ▸ a.work_next hm hbelow) next rfl,
          Outcome.showing_after]
      · rw [if_neg hbelow, if_neg hbelow]
        rfl

/-- **The work on a token depends on its symbol**, and shows its lexeme. -/
theorem run_showing (stack : Stack) :
    a.run ⟨symbol, lexeme⟩ stack = (a.run ⟨symbol, other⟩ stack).showing lexeme :=
  a.runBelow_showing lexeme symbol other (a.ceiling stack) stack

end Automaton

/-! ## A feed -/

namespace Parser

variable {lexeme} {p : Parser} {lexeme' : Option String}

/-- **A feed depends on the symbol of the lexeme**, and shows the lexeme. The parsers after it differ
in the lexeme of the refusal that has halted them, if one has. -/
theorem feed_showing (hh : p.halted = none) (hs : p.classify lexeme' = p.classify lexeme) :
    (p.feed lexeme').verdict = (p.feed lexeme).verdict.showing lexeme' ∧
      (p.feed lexeme').events = (p.feed lexeme).events.map (·.showing lexeme') ∧
      (p.feed lexeme').parser = { (p.feed lexeme).parser with
        halted := (p.feed lexeme).parser.halted.map (·.showing lexeme') } := by
  have hrun : p.automaton.run (p.tokenOf lexeme') p.stack =
      (p.automaton.run (p.tokenOf lexeme) p.stack).showing lexeme' := by
    rw [← Automaton.run_showing]
    unfold tokenOf
    rw [hs]
  rw [feed_of_running hh, feed_of_running hh, hrun]
  refine ⟨rfl, ?_, ?_⟩
  · cases p.listening <;> rfl
  · cases hv : (p.automaton.run (p.tokenOf lexeme) p.stack).verdict <;>
      simp [Outcome.showing, Verdict.showing, hv, refusal?]

end Parser

end Predictive
