import Predictive.Proofs.Trace

/-!
# A depth limit only cuts runs short

A parse without a depth limit is followed moment by moment (`Moment`, `Automaton.Next`): the stack,
the tokens consumed, the input that remains and the steps recorded so far. What a parse results in can
be told from any of its moments (`Next.result_eq`). Under a limit of `d` frames the moments are the
same as long as none of them holds more than `d` (`Next.limited`). The first one that does comes of a
descent, which the limit forbids (`Next.above`): there the limited parse ends, with what is recorded
and consumed by then.

* `Automaton.exists_result`: a parse comes to a last moment, and its result is told by that.
* `result_limited_of_within`: a limit that is never exceeded changes nothing.
* `FirstAbove.result_limited`: one that is exceeded ends the parse at the first moment above it.
* `depth_limit_cuts`: the main result.
-/

namespace Predictive

/-! ## Moments -/

/-- A moment of a parse. -/
structure Moment where
  stack : Stack
  /-- The number of tokens consumed. -/
  consumed : Nat
  /-- The input that is left, the token at work included. -/
  remaining : List (Option String)
  /-- What is recorded. -/
  steps : List TraceStep

namespace Moment

/-- The moment before the first token. -/
def first (name : String) (lexemes : List String) : Moment :=
  ⟨[.undecided name], 0, Trace.inputOf lexemes,
    [⟨[name], Trace.remaining (Trace.inputOf lexemes), "init"⟩]⟩

/-- What a parse results in that goes on from a moment. -/
def result (a : Automaton) (name : String) (m : Moment) : Except Failure ParseResult :=
  Trace.feedAll ⟨a, name, true, m.stack, none⟩ m.consumed m.steps m.remaining

/-- What it results in once the work on the next token has come to an outcome. -/
def settle (a : Automaton) (name : String) (consumed : Nat) (steps : List TraceStep)
    (lexeme : Option String) (rest : List (Option String)) (outcome : Outcome) :
    Except Failure ParseResult :=
  match Trace.steps a.grammar (lexeme :: rest) outcome.events with
  | .error e => .error e
  | .ok new =>
    match outcome.verdict with
    | .consumed _ => result a name ⟨outcome.stack, consumed + 1, rest, steps ++ new⟩
    | .refused e => .ok ⟨false, some (.refused e), steps ++ new, consumed⟩
    | .faulty e => .error (.lookup e)
    | .endless => .error .endless

end Moment

/-- The records of more events are added to those of some. -/
theorem Trace.steps_append {g : Grammar} {input : List (Option String)} {events later : List Event}
    {new : List TraceStep} (h : steps g input events = .ok new) :
    steps g input (events ++ later) = (steps g input later).map (new ++ ·) := by
  induction events generalizing new with
  | nil =>
    cases h
    cases hl : steps g input later <;> simp [hl, Except.map]
  | cons e events ih =>
    simp only [steps, bind, Except.bind] at h
    split at h
    · cases h
    · rename_i first hfirst
      split at h
      · cases h
      · rename_i more hmore
        cases h
        simp only [List.cons_append, steps, hfirst, ih hmore, bind, Except.bind]
        cases steps g input later <;> rfl

namespace Moment

variable {a : Automaton} {name : String} {stack : Stack} {consumed : Nat}
  {sofar new : List TraceStep} {lexeme : Option String} {rest : List (Option String)}
  {outcome : Outcome} {events : List Event}

theorem result_eq_settle :
    result a name ⟨stack, consumed, lexeme :: rest, sofar⟩ =
      settle a name consumed sofar lexeme rest
        (a.run ⟨a.grammar.classify lexeme, lexeme⟩ stack) := by
  have htoken : Parser.tokenOf ⟨a, name, true, stack, none⟩ lexeme =
      ⟨a.grammar.classify lexeme, lexeme⟩ := rfl
  rw [result, Trace.feedAll, Parser.feed_of_running rfl, settle]
  simp only [htoken, if_true, bind, Except.bind]
  generalize a.run ⟨a.grammar.classify lexeme, lexeme⟩ stack = outcome
  cases Trace.steps a.grammar (lexeme :: rest) outcome.events with
  | error e => rfl
  | ok new => cases outcome.verdict <;> rfl

/-- What has been done before is recorded in front. -/
theorem settle_after (h : Trace.steps a.grammar (lexeme :: rest) events = .ok new) :
    settle a name consumed sofar lexeme rest (outcome.after events) =
      settle a name consumed (sofar ++ new) lexeme rest outcome := by
  unfold settle
  rw [Outcome.after, Trace.steps_append h]
  cases Trace.steps a.grammar (lexeme :: rest) outcome.events with
  | error e => rfl
  | ok more => simp only [Except.map, List.append_assoc]

end Moment

namespace Automaton

/-- A move of a parse: a turn on the next token, or the move that consumes it. What it does is
recorded with the input that was there before. -/
inductive Next (a : Automaton) : Moment → Moment → Prop
  | turn {stack next : Stack} {events : List Event} {consumed : Nat} {lexeme : Option String}
      {rest : List (Option String)} {sofar new : List TraceStep}
      (ht : a.Turn ⟨a.grammar.classify lexeme, lexeme⟩ stack events next)
      (hnew : Trace.steps a.grammar (lexeme :: rest) events = .ok new) :
      Next a ⟨stack, consumed, lexeme :: rest, sofar⟩
        ⟨next, consumed, lexeme :: rest, sofar ++ new⟩
  | consume {stack : Stack} {outcome : Outcome} {c : Consumed} {consumed : Nat}
      {lexeme : Option String} {rest : List (Option String)} {sofar new : List TraceStep}
      (hh : a.Halt ⟨a.grammar.classify lexeme, lexeme⟩ stack outcome)
      (hc : outcome.verdict = .consumed c)
      (hnew : Trace.steps a.grammar (lexeme :: rest) outcome.events = .ok new) :
      Next a ⟨stack, consumed, lexeme :: rest, sofar⟩
        ⟨outcome.stack, consumed + 1, rest, sofar ++ new⟩

/-- A moment after which there is none: the input is at its end, or its next token is refused. -/
inductive Last (a : Automaton) : Moment → Prop
  | ended {stack : Stack} {consumed : Nat} {sofar : List TraceStep} :
      Last a ⟨stack, consumed, [], sofar⟩
  | refused {stack : Stack} {consumed : Nat} {lexeme : Option String}
      {rest : List (Option String)} {sofar : List TraceStep} {e : ParseError}
      (hh : a.Halt ⟨a.grammar.classify lexeme, lexeme⟩ stack ⟨stack, [], .refused e⟩) :
      Last a ⟨stack, consumed, lexeme :: rest, sofar⟩

/-- The moment comes some time after another one. -/
def Reaches (a : Automaton) : Moment → Moment → Prop := Relation.ReflTransGen a.Next

/-- The moment is the first one after another to hold more than `d` frames. -/
def FirstAbove (a : Automaton) (d : Int) (m last : Moment) : Prop :=
  Relation.ReflTransGen (fun m m' => a.Next m m' ∧ (m.stack.length : Int) ≤ d) m last ∧
    (last.stack.length : Int) = d + 1

variable {a : Automaton} {token : Token} {stack last last' : Stack} {events events' : List Event}
  {outcome outcome' : Outcome}

/-- The work on a token is the same whichever way it is followed. -/
theorem Moves.after_unique (hm : a.Moves token stack events last) (hh : a.Halt token last outcome)
    (hm' : a.Moves token stack events' last') (hh' : a.Halt token last' outcome') :
    outcome.after events = outcome'.after events' := by
  induction hm generalizing events' with
  | refl =>
    cases hm' with
    | refl =>
      cases hh.step_eq.symm.trans hh'.step_eq
      rfl
    | turn ht _ => cases hh.step_eq.symm.trans ht.step_eq
  | turn ht _ ih =>
    cases hm' with
    | refl => cases ht.step_eq.symm.trans hh'.step_eq
    | turn ht' hm' =>
      cases ht.step_eq.symm.trans ht'.step_eq
      rw [← Outcome.after_after, ← Outcome.after_after, ih hh hm']

end Automaton

/-! ## The result can be told from every moment -/

namespace Automaton

variable {a : Automaton} {name : String} {m m' last : Moment}

theorem Next.grows (h : a.Next m m') : m.steps <+: m'.steps ∧ m.consumed ≤ m'.consumed := by
  cases h with
  | turn => exact ⟨List.prefix_append _ _, Nat.le_refl _⟩
  | consume => exact ⟨List.prefix_append _ _, Nat.le_succ _⟩

/-- What is recorded stays, and what is consumed stays consumed. -/
theorem Reaches.grows (h : a.Reaches m last) :
    m.steps <+: last.steps ∧ m.consumed ≤ last.consumed := by
  induction h with
  | refl => exact ⟨List.prefix_rfl, Nat.le_refl _⟩
  | tail _ hnext ih => exact ⟨ih.1.trans hnext.grows.1, Nat.le_trans ih.2 hnext.grows.2⟩

/-- The turns on a token are moves of the parse. -/
theorem Moves.reaches {lexeme : Option String} {stack next : Stack} {events : List Event}
    (h : a.Moves ⟨a.grammar.classify lexeme, lexeme⟩ stack events next)
    (hs : stack.WellFormed a.grammar) (consumed : Nat) (rest : List (Option String))
    (sofar : List TraceStep) :
    ∃ more, a.Reaches ⟨stack, consumed, lexeme :: rest, sofar⟩
      ⟨next, consumed, lexeme :: rest, more⟩ := by
  induction h generalizing sofar with
  | refl => exact ⟨sofar, .refl⟩
  | @turn stack next last events later ht hm ih =>
    have hshown : ∀ e ∈ events, e.stack.WellFormed a.grammar := fun e he => by
      obtain ⟨earlier, hearlier⟩ := (Moves.single ht).exists_of_mem he
      exact hearlier.wellFormed hs
    obtain ⟨new, hnew⟩ := Trace.exists_steps hshown (lexeme :: rest)
    obtain ⟨more, hmore⟩ := ih (ht.wellFormed hs) (sofar ++ new)
    exact ⟨more, .head (.turn ht hnew) hmore⟩

section Decided

variable (hd : a.table.Decides a.grammar)

include hd

theorem run_of_moves {token : Token} (ht : token.symbol.IsToken) {stack last : Stack}
    {events : List Event} {outcome : Outcome} (hs : stack.WellFormed a.grammar)
    (hm : a.Moves token stack events last) (hh : a.Halt token last outcome) :
    a.run token stack = outcome.after events := by
  obtain ⟨events', last', outcome', hm', hh', hrun⟩ := exists_moves_run hd ht hs
  rw [hrun, hm'.after_unique hh' hm hh]

theorem Next.wellFormed (h : a.Next m m') (hs : m.stack.WellFormed a.grammar) :
    m'.stack.WellFormed a.grammar := by
  cases h with
  | turn ht => exact ht.wellFormed hs
  | consume hh => exact ((hh.settled hd.valid hs).2 _ (.inl rfl)).1

/-- **The result does not change from one moment to the next.** -/
theorem Next.result_eq (h : a.Next m m') (hs : m.stack.WellFormed a.grammar) :
    m.result a name = m'.result a name := by
  cases h with
  | @turn stack next events consumed lexeme rest sofar new ht hnew =>
    have htoken := a.grammar.isToken_classify lexeme
    obtain ⟨later, last, outcome, hm, hh, hrun⟩ :=
      @exists_moves_run a ⟨a.grammar.classify lexeme, lexeme⟩ hd htoken next (ht.wellFormed hs)
    rw [Moment.result_eq_settle, Moment.result_eq_settle, hrun,
      run_of_moves hd htoken hs (.turn ht hm) hh, ← Outcome.after_after,
      Moment.settle_after hnew]
  | @consume stack outcome c consumed lexeme rest sofar new hh hc hnew =>
    have hrun := run_of_moves hd (a.grammar.isToken_classify lexeme) hs (.refl stack) hh
    rw [Moment.result_eq_settle, hrun, Moment.settle, Outcome.after, List.nil_append]
    simp only [hnew, hc]

theorem Reaches.wellFormed (h : a.Reaches m last) (hs : m.stack.WellFormed a.grammar) :
    last.stack.WellFormed a.grammar := by
  induction h with
  | refl => exact hs
  | tail _ hnext ih => exact hnext.wellFormed hd ih

theorem Reaches.result_eq (h : a.Reaches m last) (hs : m.stack.WellFormed a.grammar) :
    m.result a name = last.result a name := by
  induction h with
  | refl => rfl
  | tail hr hnext ih => rw [ih, hnext.result_eq hd (Reaches.wellFormed hd hr hs)]

/-- A token that is refused ends the parse with what is recorded and consumed by then. -/
theorem result_of_refusal {lexeme : Option String} {rest : List (Option String)} {e : ParseError}
    (hm : m.remaining = lexeme :: rest) (hs : m.stack.WellFormed a.grammar)
    (hh : a.Halt ⟨a.grammar.classify lexeme, lexeme⟩ m.stack ⟨m.stack, [], .refused e⟩) :
    m.result a name = .ok ⟨false, some (.refused e), m.steps, m.consumed⟩ := by
  obtain ⟨stack, consumed, remaining, sofar⟩ := m
  cases hm
  have hrun := run_of_moves hd (a.grammar.isToken_classify lexeme) hs (.refl stack) hh
  rw [Moment.result_eq_settle, hrun, Moment.settle]
  simp [Outcome.after, Trace.steps]

/-- The result of a last moment is what is recorded and consumed by then. -/
theorem Last.exists_result (h : a.Last m) (hs : m.stack.WellFormed a.grammar) (name : String) :
    ∃ result, m.result a name = .ok result ∧ result.steps = m.steps ∧
      result.consumed = m.consumed := by
  cases h with
  | ended => exact ⟨_, rfl, rfl, rfl⟩
  | refused hh => exact ⟨_, result_of_refusal hd rfl hs hh, rfl, rfl⟩

/-- **A parse comes to a last moment.** -/
theorem exists_last (m : Moment) (hs : m.stack.WellFormed a.grammar) :
    ∃ last, a.Reaches m last ∧ a.Last last := by
  obtain ⟨stack, consumed, remaining, sofar⟩ := m
  induction remaining generalizing stack consumed sofar with
  | nil => exact ⟨_, .refl, .ended⟩
  | cons lexeme rest ih =>
    obtain ⟨events, next, outcome, hm, hh, -⟩ :=
      @exists_moves_run a ⟨a.grammar.classify lexeme, lexeme⟩ hd
        (a.grammar.isToken_classify lexeme) stack hs
    have hw := hm.wellFormed hs
    obtain ⟨more, hreaches⟩ := Moves.reaches hm hs consumed rest sofar
    obtain ⟨hverdict, hkept⟩ := hh.settled hd.valid hw
    rcases hverdict with ⟨c, hc⟩ | ⟨e, he⟩
    · obtain ⟨new, hnew⟩ := Trace.exists_steps
        (fun e he => (hkept e.stack (.inr ⟨e, he, rfl⟩)).1) (lexeme :: rest)
      obtain ⟨last, hlast, hend⟩ :=
        ih outcome.stack (consumed + 1) (more ++ new) (hkept _ (.inl rfl)).1
      exact ⟨last, hreaches.trans (.head (.consume hh hc hnew) hlast), hend⟩
    · rw [hh.eq_of_refused hw he] at hh
      exact ⟨_, hreaches, .refused hh⟩

/-- **A parse has a result**, which is what is recorded and consumed at its last moment. -/
theorem exists_result (hs : m.stack.WellFormed a.grammar) (name : String) :
    ∃ result last, m.result a name = .ok result ∧ a.Reaches m last ∧ a.Last last ∧
      result.steps = last.steps ∧ result.consumed = last.consumed := by
  obtain ⟨last, hreaches, hlast⟩ := exists_last hd m hs
  obtain ⟨result, hresult, hsteps, hconsumed⟩ :=
    hlast.exists_result hd (hreaches.wellFormed hd hs) name
  exact ⟨result, last, (hreaches.result_eq hd hs).trans hresult, hreaches, hlast, hsteps,
    hconsumed⟩

end Decided

end Automaton

/-! ## The same automaton under a limit -/

namespace Automaton

/-- The automaton under a depth limit. -/
def limited (a : Automaton) (d : Int) : Automaton := { a with depthLimit := some d }

variable {a : Automaton} {d : Int} {token : Token} {stack next : Stack} {events : List Event}
  {outcome : Outcome} {name : String} {m m' last : Moment}

theorem collapse_limited (token : Token) (top : Frame) (below : List Frame) :
    (a.limited d).collapse token top below = a.collapse token top below := by
  induction below generalizing top with
  | nil => rfl
  | cons f below ih =>
    simp only [collapse, ih]
    rfl

/-- A turn to no more frames than the limit allows is a turn under the limit. -/
theorem Turn.limited (h : a.Turn token stack events next) (hle : (next.length : Int) ≤ d) :
    (a.limited d).Turn token stack events next := by
  cases h with
  | choose hf hl hp => exact .choose hf hl hp
  | close hf hs => exact .close hf hs
  | descend hf hs hb =>
    refine .descend hf hs (blocked?_eq_none_iff.mpr fun limit hlimit => ?_)
    cases hlimit
    rw [List.length_cons] at hle
    omega

/-- A turn to more frames than the limit allows is a descent, which the limit forbids. -/
theorem Turn.above (h : a.Turn token stack events next) (hle : (stack.length : Int) ≤ d)
    (hgt : d < (next.length : Int)) : events = [] ∧ (next.length : Int) = d + 1 ∧
      (a.limited d).Halt token stack ⟨stack, [], .refused (.nestingTooDeep d)⟩ := by
  cases h with
  | choose =>
    simp only [List.length_cons] at hle hgt
    omega
  | close =>
    simp only [List.length_cons, Stack.length_resume] at hle hgt
    omega
  | @descend f below p name hf hs hb =>
    simp only [List.length_cons] at hle hgt
    have hfull : (a.limited d).blocked? (f :: below) = some d :=
      blocked?_eq_some_iff.mpr ⟨rfl, by simp only [List.length_cons]; omega⟩
    refine ⟨rfl, ?_, .blocked hf hs hfull⟩
    simp only [List.length_cons]
    omega

/-- The last move of an automaton without a limit is the one under a limit. -/
theorem Halt.limited (h : a.Halt token stack outcome) (hn : a.depthLimit = none) :
    (a.limited d).Halt token stack outcome := by
  cases h with
  | finish => exact .finish
  | unselected hf hl => exact .unselected hf hl
  | mismatch hf hs hn ht => exact .mismatch hf hs hn ht
  | blocked hf hs hb =>
    rw [(blocked?_eq_some_iff.mp hb).1] at hn
    cases hn
  | shift hf hs hn =>
    rw [← collapse_limited (d := d)]
    exact .shift hf hs hn
  | misled hf hl hp => exact .misled hf hl hp
  | lost hf => exact .lost hf

/-- A move to no more frames than the limit allows is a move under the limit. -/
theorem Next.limited (h : a.Next m m') (hn : a.depthLimit = none)
    (hle : (m'.stack.length : Int) ≤ d) : (a.limited d).Next m m' := by
  cases h with
  | turn ht hnew => exact .turn (ht.limited hle) hnew
  | consume hh hc hnew => exact .consume (hh.limited hn) hc hnew

/-- A path that never holds more than `d` frames is one under the limit. -/
theorem reaches_limited (hn : a.depthLimit = none)
    (h : Relation.ReflTransGen (fun m m' => a.Next m m' ∧ (m.stack.length : Int) ≤ d) m last)
    (hle : (last.stack.length : Int) ≤ d) : (a.limited d).Reaches m last := by
  induction h with
  | refl => exact .refl
  | tail _ hnext ih => exact .tail (ih hnext.2) (hnext.1.limited hn hle)

theorem Last.result_limited (h : a.Last m) (hd : a.table.Decides a.grammar)
    (hn : a.depthLimit = none) (hs : m.stack.WellFormed a.grammar) :
    m.result (a.limited d) name = m.result a name := by
  cases h with
  | ended => rfl
  | refused hh =>
    have hd' : (a.limited d).table.Decides (a.limited d).grammar := hd
    rw [result_of_refusal hd rfl hs hh]
    exact result_of_refusal hd' rfl hs (hh.limited hn)

section Decided

variable (hd : a.table.Decides a.grammar) (hs : m.stack.WellFormed a.grammar)

include hd hs

/-- A move to more frames than the limit allows is forbidden by it, and has recorded and consumed
nothing. -/
theorem Next.above (h : a.Next m m') (hle : (m.stack.length : Int) ≤ d)
    (hgt : d < (m'.stack.length : Int)) :
    (m'.stack.length : Int) = d + 1 ∧ ∀ name, m.result (a.limited d) name =
      .ok ⟨false, some (.refused (.nestingTooDeep d)), m'.steps, m'.consumed⟩ := by
  have hd' : (a.limited d).table.Decides (a.limited d).grammar := hd
  cases h with
  | turn ht hnew =>
    obtain ⟨rfl, hlen, hblocked⟩ := ht.above hle hgt
    cases hnew
    rw [List.append_nil]
    exact ⟨hlen, fun _ => result_of_refusal hd' rfl hs hblocked⟩
  | @consume stack outcome c consumed lexeme rest sofar new hh hc hnew =>
    -- What consumes a token only closes frames.
    have hlower : outcome.stack.length ≤ stack.length :=
      ((hh.settled hd.valid hs).2 _ (.inl rfl)).2
    simp only at hle hgt
    omega

variable (hn : a.depthLimit = none)

include hn

/-- **A limit that is never exceeded changes nothing.** -/
theorem result_limited_of_within
    (hall : ∀ m', a.Reaches m m' → (m'.stack.length : Int) ≤ d) :
    m.result (a.limited d) name = m.result a name := by
  have hd' : (a.limited d).table.Decides (a.limited d).grammar := hd
  obtain ⟨last, hreaches, hlast⟩ := exists_last hd m hs
  have hpath : ∀ {m'}, a.Reaches m m' →
      Relation.ReflTransGen (fun m m' => a.Next m m' ∧ (m.stack.length : Int) ≤ d) m m' := by
    intro m' h
    induction h with
    | refl => exact .refl
    | tail hr hnext ih => exact ih.tail ⟨hnext, hall _ hr⟩
  calc m.result (a.limited d) name
      = last.result (a.limited d) name :=
        (reaches_limited hn (hpath hreaches) (hall last hreaches)).result_eq hd' hs
    _ = last.result a name := hlast.result_limited hd hn (hreaches.wellFormed hd hs)
    _ = m.result a name := (hreaches.result_eq hd hs).symm

/-- **A limit that is exceeded ends the parse at the first moment above it.** -/
theorem FirstAbove.result_limited (h : a.FirstAbove d m last)
    (hle : (m.stack.length : Int) ≤ d) :
    m.result (a.limited d) name =
      .ok ⟨false, some (.refused (.nestingTooDeep d)), last.steps, last.consumed⟩ := by
  have hd' : (a.limited d).table.Decides (a.limited d).grammar := hd
  obtain ⟨hpath, hlen⟩ := h
  rcases hpath.cases_tail with rfl | ⟨before, hpath, hnext, hbefore⟩
  · omega
  · have hreaches := reaches_limited hn hpath hbefore
    have hw : before.stack.WellFormed (a.limited d).grammar := hreaches.wellFormed hd' hs
    rw [hreaches.result_eq hd' hs]
    exact (hnext.above hd hw hbefore (by omega)).2 name

end Decided

/-- The first moment above a limit is a moment of the parse. -/
theorem FirstAbove.reaches (h : a.FirstAbove d m last) : a.Reaches m last :=
  Relation.ReflTransGen.mono (fun _ _ hnext => hnext.1) _ _ h.1

/-- Before a moment above a limit there is a first one. -/
theorem exists_firstAbove (hd : a.table.Decides a.grammar) (h : a.Reaches m last)
    (hs : m.stack.WellFormed a.grammar) (hle : (m.stack.length : Int) ≤ d)
    (hgt : d < (last.stack.length : Int)) :
    ∃ m', a.FirstAbove d m m' ∧ a.Reaches m' last := by
  induction h using Relation.ReflTransGen.head_induction_on with
  | refl => omega
  | @head m next hnext hrest ih =>
    by_cases habove : d < (next.stack.length : Int)
    · have hlen := (hnext.above hd hs hle habove).1
      exact ⟨next, ⟨.single ⟨hnext, hle⟩, hlen⟩, hrest⟩
    · obtain ⟨m', hfirst, hlater⟩ := ih (hnext.wellFormed hd hs) (Int.not_lt.mp habove)
      exact ⟨m', ⟨.head ⟨hnext, hle⟩ hfirst.1, hfirst.2⟩, hlater⟩

end Automaton

/-! ## Parses under a limit -/

/-- A parse begins with its first moment. -/
theorem Trace.parse_eq {a : Automaton} {start : Option String}
    (hstart : Parser.startOf a.grammar start ∈ a.grammar.nonterminals) (lexemes : List String) :
    parse a lexemes start true =
      (Moment.first (Parser.startOf a.grammar start) lexemes).result a
        (Parser.startOf a.grammar start) := by
  rw [parse_of_declared hstart]
  rfl

/-- How the parse under a limit stands to the one without: the limit is never exceeded, or the
parse ends at the first moment above it. -/
theorem Automaton.exists_limited {a : Automaton} {d : Int} {m : Moment}
    (hd : a.table.Decides a.grammar) (hn : a.depthLimit = none)
    (hs : m.stack.WellFormed a.grammar) (hle : (m.stack.length : Int) ≤ d) (name : String) :
    ∃ limited, m.result (a.limited d) name = .ok limited ∧
      ((∀ m', a.Reaches m m' → (m'.stack.length : Int) ≤ d) ∧ m.result a name = .ok limited ∨
        ∃ m', a.FirstAbove d m m' ∧
          limited = ⟨false, some (.refused (.nestingTooDeep d)), m'.steps, m'.consumed⟩) := by
  by_cases hall : ∀ m', a.Reaches m m' → (m'.stack.length : Int) ≤ d
  · obtain ⟨unlimited, -, hunlimited, -⟩ := exists_result hd hs name
    refine ⟨unlimited, ?_, .inl ⟨hall, hunlimited⟩⟩
    rw [result_limited_of_within hd hs hn hall, hunlimited]
  · obtain ⟨m', hreaches, hgt⟩ : ∃ m', a.Reaches m m' ∧ d < (m'.stack.length : Int) := by
      simpa using hall
    obtain ⟨first, hfirst, -⟩ := exists_firstAbove hd hreaches hs hle hgt
    exact ⟨_, hfirst.result_limited hd hs hn hle, .inr ⟨first, hfirst, rfl⟩⟩

namespace Automaton

section Raised

variable {a : Automaton} {d d' : Int} {name : String} {m : Moment} {r r' : ParseResult}

variable (hd : a.table.Decides a.grammar) (hn : a.depthLimit = none)
  (hs : m.stack.WellFormed a.grammar) (hle : (m.stack.length : Int) ≤ d)
  (hr : m.result (a.limited d) name = .ok r)

include hd hn hs hle hr

/-- Without the limit no less is consumed, and what was accepted still is. -/
theorem unlimited_of_limited (hr' : m.result a name = .ok r') :
    (r.accepted = true → r'.accepted = true) ∧ r.consumed ≤ r'.consumed := by
  obtain ⟨limited, hlimited, ⟨-, hsame⟩ | ⟨first, hfirst, rfl⟩⟩ :=
    exists_limited hd hn hs hle name
  · cases hlimited.symm.trans hr
    cases hsame.symm.trans hr'
    exact ⟨id, Nat.le_refl _⟩
  · cases hlimited.symm.trans hr
    have hfrom : m.result a name = first.result a name := hfirst.reaches.result_eq hd hs
    obtain ⟨result, last, hresult, hreaches, -, -, hconsumed⟩ :=
      exists_result hd (hfirst.reaches.wellFormed hd hs) name
    cases (hfrom.trans hresult).symm.trans hr'
    refine ⟨by simp, ?_⟩
    rw [hconsumed]
    exact hreaches.grows.2

/-- Under a higher limit no less is consumed, and what was accepted still is. -/
theorem raised_of_limited (hraised : d ≤ d') (hr' : m.result (a.limited d') name = .ok r') :
    (r.accepted = true → r'.accepted = true) ∧ r.consumed ≤ r'.consumed := by
  obtain ⟨limited, hlimited, ⟨-, hsame⟩ | ⟨first, hfirst, rfl⟩⟩ :=
    exists_limited hd hn hs (Int.le_trans hle hraised) name
  · cases hlimited.symm.trans hr'
    exact unlimited_of_limited hd hn hs hle hr hsame
  · -- The parse has been above the lower limit before.
    obtain ⟨earlier, hearlier, hreaches⟩ :=
      exists_firstAbove hd hfirst.reaches hs hle (by rw [hfirst.2]; omega)
    cases hlimited.symm.trans hr'
    cases (hearlier.result_limited hd hs hn hle).symm.trans hr
    exact ⟨id, hreaches.grows.2⟩

end Raised

end Automaton

variable {g : Grammar} {settings : Settings} {analysis : Analysis} {start : Option String}

/-- **A depth limit only cuts a parse short.** Let a token list be parsed by an analysed grammar from
a declared start, under a limit of at least one frame and without one. If the parse without a limit
never holds more frames than that, both have the same result. Otherwise it has a first moment with
one frame more, and the parse under the limit is rejected for that: it has recorded the steps and
consumed the tokens that the other one had recorded and consumed by then. The moments are those of
the parse: its last one tells the steps and the number of tokens of its result. So a limit that is
raised, or dropped, never makes a parse consume less, and what was accepted is accepted. -/
theorem depth_limit_cuts (h : Analysis.run g settings = .ok analysis)
    (hstart : Parser.startOf g start ∈ g.nonterminals) (lexemes : List String) {d : Int}
    (hd : 1 ≤ d) :
    let a : Automaton := ⟨analysis.grammar, analysis.table, none⟩
    let first := Moment.first (Parser.startOf g start) lexemes
    ∃ limited unlimited,
      Trace.parse ⟨analysis.grammar, analysis.table, some d⟩ lexemes start true = .ok limited ∧
      Trace.parse a lexemes start true = .ok unlimited ∧
      ((∀ m, a.Reaches first m → (m.stack.length : Int) ≤ d) → limited = unlimited) ∧
      ((¬ ∀ m, a.Reaches first m → (m.stack.length : Int) ≤ d) →
        ∃ m, a.FirstAbove d first m) ∧
      (∀ m, a.FirstAbove d first m →
        limited = ⟨false, some (.refused (.nestingTooDeep d)), m.steps, m.consumed⟩ ∧
        m.steps <+: unlimited.steps ∧ m.consumed ≤ unlimited.consumed) ∧
      (∃ last, a.Reaches first last ∧ a.Last last ∧ unlimited.steps = last.steps ∧
        unlimited.consumed = last.consumed) ∧
      ∀ looser : Option Int, (∀ d' ∈ looser, d ≤ d') → ∃ raised,
        Trace.parse ⟨analysis.grammar, analysis.table, looser⟩ lexemes start true = .ok raised ∧
        (limited.accepted = true → raised.accepted = true) ∧
        limited.consumed ≤ raised.consumed := by
  obtain rfl : analysis.grammar = g := (Analysis.of_run h).1
  intro a first
  have hdec : a.table.Decides a.grammar := Analysis.decides_grammar h
  have hs : first.stack.WellFormed a.grammar := Stack.wellFormed_start _
  have hle : (first.stack.length : Int) ≤ d := hd
  have hparse (limit : Option Int) :
      Trace.parse ⟨analysis.grammar, analysis.table, limit⟩ lexemes start true =
        first.result ⟨analysis.grammar, analysis.table, limit⟩
          (Parser.startOf analysis.grammar start) := Trace.parse_eq hstart lexemes
  obtain ⟨limited, hlimited, -⟩ :=
    Automaton.exists_limited hdec rfl hs hle (Parser.startOf analysis.grammar start)
  obtain ⟨unlimited, last, hunlimited, hreaches, hlast, hsteps, hconsumed⟩ :=
    Automaton.exists_result hdec hs (Parser.startOf analysis.grammar start)
  refine ⟨limited, unlimited, (hparse _).trans hlimited, (hparse _).trans hunlimited,
    fun hall => ?_, fun hnot => ?_, fun m hm => ⟨?_, ?_⟩,
    ⟨last, hreaches, hlast, hsteps, hconsumed⟩, fun looser hraised => ?_⟩
  · have hsame : first.result (a.limited d) (Parser.startOf analysis.grammar start) =
        first.result a (Parser.startOf analysis.grammar start) :=
      Automaton.result_limited_of_within hdec hs rfl hall
    exact Except.ok.inj (hlimited.symm.trans (hsame.trans hunlimited))
  · obtain ⟨m, hm, hgt⟩ : ∃ m, a.Reaches first m ∧ d < (m.stack.length : Int) := by
      simpa using hnot
    obtain ⟨m', hfirst, -⟩ := Automaton.exists_firstAbove hdec hm hs hle hgt
    exact ⟨m', hfirst⟩
  · exact Except.ok.inj (hlimited.symm.trans (hm.result_limited hdec hs rfl hle))
  · -- The result without a limit is that of the moment, too.
    have hw := hm.reaches.wellFormed hdec hs
    obtain ⟨result, last', hresult, hlater, -, hsteps', hconsumed'⟩ :=
      Automaton.exists_result hdec hw (Parser.startOf analysis.grammar start)
    have hsame := (hm.reaches.result_eq hdec hs).trans hresult
    obtain rfl := Except.ok.inj (hunlimited.symm.trans hsame)
    rw [hsteps', hconsumed']
    exact hlater.grows
  · cases looser with
    | none =>
      exact ⟨unlimited, (hparse _).trans hunlimited,
        Automaton.unlimited_of_limited hdec rfl hs hle hlimited hunlimited⟩
    | some d' =>
      have hle' : d ≤ d' := hraised d' rfl
      obtain ⟨raised, hresult, -⟩ := Automaton.exists_limited hdec rfl hs
        (Int.le_trans hle hle') (Parser.startOf analysis.grammar start)
      exact ⟨raised, (hparse _).trans hresult,
        Automaton.raised_of_limited hdec rfl hs hle hlimited hle' hresult⟩

/-- Two `b` in a row are accepted without a limit. Under a limit of two frames the parse ends at the
first moment with three. -/
theorem twoRuns_cut :
    ∃ analysis limited unlimited m, Analysis.run .twoRuns .defaults = .ok analysis ∧
      Trace.parse ⟨analysis.grammar, analysis.table, some 2⟩ ["b", "b"] none true = .ok limited ∧
      Trace.parse ⟨analysis.grammar, analysis.table, none⟩ ["b", "b"] none true = .ok unlimited ∧
      unlimited.accepted = true ∧
      Automaton.FirstAbove ⟨analysis.grammar, analysis.table, none⟩ 2 (.first "S" ["b", "b"]) m ∧
      limited = ⟨false, some (.refused (.nestingTooDeep 2)), m.steps, m.consumed⟩ := by
  obtain ⟨analysis, h, -⟩ := Analysis.exists_create (g := .twoRuns) (s := .defaults)
    (by decide +kernel) none (by decide +kernel) none true
  have hcomputed : ((Analysis.run .twoRuns .defaults).toOption.map fun a =>
      ((Trace.parse ⟨a.grammar, a.table, some 2⟩ ["b", "b"] none true).toOption.map (·.accepted),
        (Trace.parse ⟨a.grammar, a.table, none⟩ ["b", "b"] none true).toOption.map
          (·.accepted))) = some (some false, some true) := by decide +kernel
  obtain ⟨limited, unlimited, hlimited, hunlimited, hsame, hfirst, hcut, -⟩ :=
    @depth_limit_cuts .twoRuns .defaults analysis none h (by decide +kernel) ["b", "b"] 2
      (by decide)
  rw [h] at hcomputed
  simp only [Except.toOption, Option.map_some, hlimited, hunlimited, Option.some.injEq,
    Prod.mk.injEq] at hcomputed
  obtain ⟨hrejected, haccepted⟩ := hcomputed
  obtain ⟨m, hm⟩ := hfirst fun hall => by
    rw [hsame hall, haccepted] at hrejected
    cases hrejected
  exact ⟨analysis, limited, unlimited, m, h, hlimited, hunlimited, haccepted, hm, (hcut m hm).1⟩

end Predictive
