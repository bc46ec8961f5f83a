import Predictive.Proofs.Lexemes
import Predictive.Proofs.Prefix

/-!
# What the result of a parse depends on

A parse looks at the classes of its lexemes, one token after the other, and stops at the first one
that is refused. What is recorded on the way is only read off it.

* `Trace.exists_blocks`: the steps come in blocks, one a token, and every step of a block shows what
  remains at its token (`ParseResult.RecordedBy`).
* `Trace.feedAll_agrees`: tokens behind the one that is refused do not matter, nor whether the steps
  are recorded.
* `Trace.feedAll_alike`: lexemes of the same classes have results that differ in what is shown only
  (`ParseResult.Alike`).
* `only_classes_matter`: the main result.
-/

namespace Predictive

/-! ## Recorded steps -/

/-- The step records an event, with what remains of the input. -/
structure TraceStep.Records (g : Grammar) (remaining : List String) (e : Event)
    (step : TraceStep) : Prop where
  stack : e.stack.render g = .ok step.stack
  action : step.action = e.action.text
  remaining_eq : step.remaining = remaining

/-- The step consumes the first token of what remains, and shows its lexeme. -/
def TraceStep.Matches (step : TraceStep) : Prop :=
  ∃ shown rest, step.remaining = shown :: rest ∧ step.action = "match " ++ shown

/-- The steps have the same stack and the same action, unless both consume a token; then each shows
its own lexeme. -/
structure TraceStep.Alike (step step' : TraceStep) : Prop where
  stack_eq : step'.stack = step.stack
  action : step'.action = step.action ∨ step.Matches ∧ step'.Matches

/-- The rejection when the token that is refused has another lexeme. -/
def Rejection.showing (lexeme : Option String) : Rejection → Rejection
  | .refused e => .refused (e.showing lexeme)
  | .unfinished => .unfinished

/-- The results differ in what they show only. The second one is of some lexemes, of which it shows
the one that is refused. -/
structure ParseResult.Alike (lexemes : List String) (r r' : ParseResult) : Prop where
  accepted_eq : r'.accepted = r.accepted
  consumed_eq : r'.consumed = r.consumed
  rejection_eq : r'.rejection = r.rejection.map (·.showing lexemes[r.consumed]?)
  steps : List.Forall₂ TraceStep.Alike r.steps r'.steps

/-- The steps of a parse of some lexemes: one before the first token, and behind it a block for every
token that is fed, up to the one that is refused or to the end of the stream. The block of a token
records the feed by the parser that has been fed those before, event by event, and shows the lexemes
from the token on and the end of the stream. -/
def ParseResult.RecordedBy (p : Parser) (lexemes : List String) (r : ParseResult) : Prop :=
  ∃ blocks : List (List TraceStep),
    r.steps = ⟨[p.start], lexemes ++ [Symbol.endMark], "init"⟩ :: blocks.flatten ∧
    blocks.length = min (r.consumed + 1) (lexemes.length + 1) ∧
    ∀ k block, blocks[k]? = some block →
      List.Forall₂
        (TraceStep.Records p.automaton.grammar (lexemes.drop k ++ [Symbol.endMark]))
        ((p.fedAll ((lexemes.take k).map some)).feed lexemes[k]?).events block

variable {g : Grammar} {input : List (Option String)} {lexeme lexeme' : Option String}

namespace Trace

theorem step_eq_ok_iff {e : Event} {step : TraceStep} :
    Trace.step g input e.stack e.action.text = .ok step ↔
      step.Records g (remaining input) e := by
  unfold Trace.step
  constructor
  · intro h
    split at h
    · rename_i rendered hrendered
      cases h
      exact ⟨hrendered, rfl, rfl⟩
    · cases h
  · rintro ⟨hstack, haction, hremaining⟩
    rw [hstack, ← haction, ← hremaining]

/-- The steps record the events one by one. -/
theorem steps_eq_ok_iff {events : List Event} {new : List TraceStep} :
    steps g input events = .ok new ↔
      List.Forall₂ (TraceStep.Records g (remaining input)) events new := by
  induction events generalizing new with
  | nil => cases new <;> simp [steps]
  | cons e events ih =>
    constructor
    · intro h
      simp only [steps, bind, Except.bind] at h
      split at h
      · cases h
      · rename_i first hfirst
        split at h
        · cases h
        · rename_i more hmore
          cases h
          exact .cons (step_eq_ok_iff.mp hfirst) (ih.mp hmore)
    · intro h
      cases h with
      | cons hfirst hmore =>
        simp only [steps, step_eq_ok_iff.mpr hfirst, ih.mpr hmore, bind, Except.bind, pure,
          Except.pure]

end Trace

/-! ## One token -/

namespace Parser

variable {p : Parser}

/-- The events of a feed show its lexeme. -/
theorem showing_of_mem_events (hh : p.halted = none) {e : Event}
    (he : e ∈ (p.feed lexeme).events) : e.showing lexeme = e := by
  have hsame : p.classify lexeme = p.classify lexeme := rfl
  have hself := (feed_showing hh hsame).2.1
  conv_lhs at hself => rw [← List.map_id (p.feed lexeme).events]
  exact (List.map_inj_left.mp hself e he).symm

theorem feed_listening (p : Parser) (lexeme : Option String) (listening : Bool) :
    (({ p with listening := listening } : Parser).feed lexeme).verdict = (p.feed lexeme).verdict ∧
      (({ p with listening := listening } : Parser).feed lexeme).parser =
        { (p.feed lexeme).parser with listening := listening } := by
  obtain ⟨automaton, start, heard, stack, halted⟩ := p
  cases halted <;> exact ⟨rfl, rfl⟩

/-- Nothing is heard by nobody. -/
theorem events_of_not_listening (hl : p.listening = false) : (p.feed lexeme).events = [] := by
  cases hh : p.halted with
  | some e => rw [feed_of_halted hh]
  | none =>
    rw [feed_of_running hh, hl]
    rfl

end Parser

/-- Steps that record an event of one lexeme and of another are alike. -/
theorem TraceStep.Records.alike {e : Event} {rest rest' : List (Option String)}
    {step step' : TraceStep} (h : step.Records g (Trace.remaining (lexeme :: rest)) e)
    (h' : step'.Records g (Trace.remaining (lexeme' :: rest')) (e.showing lexeme'))
    (hshown : e.showing lexeme = e) : step.Alike step' := by
  have hstack : e.stack.render g = .ok step'.stack := h'.stack
  refine ⟨Except.ok.inj (hstack.symm.trans h.stack), ?_⟩
  obtain ⟨action, stack⟩ := e
  cases action with
  | shift shown =>
    cases hshown
    exact .inr ⟨⟨_, _, h.remaining_eq, h.action⟩, ⟨_, _, h'.remaining_eq, h'.action⟩⟩
  | expand | close | accept => exact .inl (h'.action.trans h.action.symm)

theorem TraceStep.alike_of_records {events : List Event} {rest rest' : List (Option String)}
    {new new' : List TraceStep}
    (h : List.Forall₂ (Records g (Trace.remaining (lexeme :: rest))) events new)
    (h' : List.Forall₂ (Records g (Trace.remaining (lexeme' :: rest')))
      (events.map (·.showing lexeme')) new')
    (hshown : ∀ e ∈ events, e.showing lexeme = e) : List.Forall₂ TraceStep.Alike new new' := by
  induction h generalizing new' with
  | nil =>
    cases h'
    exact .nil
  | cons hstep _ ih =>
    cases h' with
    | cons hstep' hmore =>
      exact .cons (hstep.alike hstep' (hshown _ List.mem_cons_self))
        (ih hmore fun e he => hshown e (List.mem_cons_of_mem _ he))

/-! ## All tokens of a list -/

namespace Trace

variable {p : Parser} {done : Nat} {sofar : List TraceStep} {r : ParseResult}

theorem le_consumed (h : p.Sound) (hr : feedAll p done sofar input = .ok r) :
    done ≤ r.consumed := by
  obtain ⟨r', hr', hparsed⟩ := exists_feedAll h done sofar input
  cases hr.symm.trans hr'
  exact (hparsed.consumed 0 (Nat.zero_le _)).mpr trivial

/-- **The steps come in blocks**, one for every token that is fed. -/
theorem exists_blocks (h : p.Sound) (hr : feedAll p done sofar input = .ok r) :
    ∃ blocks : List (List TraceStep), r.steps = sofar ++ blocks.flatten ∧
      blocks.length = min (r.consumed + 1 - done) input.length ∧
      ∀ k block, blocks[k]? = some block → ∃ lexeme, input[k]? = some lexeme ∧
        List.Forall₂ (TraceStep.Records p.automaton.grammar (remaining (input.drop k)))
          ((p.fedAll (input.take k)).feed lexeme).events block := by
  induction input generalizing p done sofar with
  | nil =>
    cases hr
    exact ⟨[], by simp, by simp, by simp⟩
  | cons lexeme rest ih =>
    rcases h.settled lexeme with ⟨c, hc⟩ | ⟨e, he⟩
    · obtain ⟨new, hnew, hrun⟩ := exists_feedAll_of_consumed h hc rest
      rw [hrun] at hr
      have hle := le_consumed (h.feed lexeme) hr
      obtain ⟨blocks, hsteps, hlength, hblocks⟩ := ih (h.feed lexeme) hr
      refine ⟨new :: blocks, by rw [hsteps, List.flatten_cons, List.append_assoc], ?_,
        fun k block hk => ?_⟩
      · simp only [List.length_cons, hlength]
        omega
      · cases k with
        | zero =>
          cases hk
          exact ⟨lexeme, rfl, steps_eq_ok_iff.mp hnew⟩
        | succ k =>
          rw [Parser.automaton_feed] at hblocks
          exact hblocks k block hk
    · obtain ⟨new, hnew, hrun⟩ := exists_feedAll_of_refused h he rest
      rw [hrun] at hr
      cases hr
      refine ⟨[new], by simp, by simp, fun k block hk => ?_⟩
      cases k with
      | zero =>
        cases hk
        exact ⟨lexeme, rfl, steps_eq_ok_iff.mp hnew⟩
      | succ k => simp at hk

/-- **Tokens behind the one that is refused do not matter**, nor whether the steps are recorded. -/
theorem feedAll_agrees (h : p.Sound) (hr : feedAll p done sofar input = .ok r) {k : Nat}
    (hk : r.consumed = done + k) {input' : List (Option String)}
    (hsame : input'.take (k + 1) = input.take (k + 1)) (listening : Bool)
    (sofar' : List TraceStep) :
    ∃ steps, feedAll { p with listening := listening } done sofar' input' =
      .ok { r with steps := steps } := by
  induction input generalizing p done sofar k sofar' input' with
  | nil =>
    obtain rfl : input' = [] := by simpa using hsame
    cases hr
    exact ⟨sofar', rfl⟩
  | cons lexeme rest ih =>
    obtain ⟨rest', rfl, hrest⟩ : ∃ rest', input' = lexeme :: rest' ∧ rest'.take k = rest.take k := by
      cases input' with
      | nil => simp at hsame
      | cons lexeme' rest' => simpa using hsame
    have hsound : ({ p with listening := listening } : Parser).Sound := ⟨h.decides, h.wellFormed⟩
    obtain ⟨hverdict, hparser⟩ := Parser.feed_listening p lexeme listening
    rcases h.settled lexeme with ⟨c, hc⟩ | ⟨e, he⟩
    · obtain ⟨new, -, hrun⟩ := exists_feedAll_of_consumed h hc rest
      obtain ⟨new', -, hrun'⟩ := exists_feedAll_of_consumed hsound (hverdict.trans hc) rest'
      rw [hrun] at hr
      have hle := le_consumed (h.feed lexeme) hr
      obtain ⟨k, rfl⟩ : ∃ k', k = k' + 1 := ⟨k - 1, by omega⟩
      rw [hrun', hparser]
      exact ih (h.feed lexeme) hr (by omega) hrest _
    · obtain ⟨new, -, hrun⟩ := exists_feedAll_of_refused h he rest
      obtain ⟨new', -, hrun'⟩ := exists_feedAll_of_refused hsound (hverdict.trans he) rest'
      rw [hrun] at hr
      cases hr
      exact ⟨_, hrun' done sofar'⟩

/-- Without a listener nothing is recorded. -/
theorem steps_of_not_listening (h : p.Sound) (hl : p.listening = false)
    (hr : feedAll p done sofar input = .ok r) : r.steps = sofar := by
  induction input generalizing p done with
  | nil =>
    cases hr
    rfl
  | cons lexeme rest ih =>
    have hsilent : steps p.automaton.grammar (lexeme :: rest) (p.feed lexeme).events = .ok [] := by
      rw [Parser.events_of_not_listening hl, steps]
    rcases h.settled lexeme with ⟨c, hc⟩ | ⟨e, he⟩
    · obtain ⟨new, hnew, hrun⟩ := exists_feedAll_of_consumed h hc rest
      cases hnew.symm.trans hsilent
      rw [hrun, List.append_nil] at hr
      exact ih (h.feed lexeme) ((Parser.listening_after [.feed lexeme]).trans hl) hr
    · obtain ⟨new, hnew, hrun⟩ := exists_feedAll_of_refused h he rest
      cases hnew.symm.trans hsilent
      rw [hrun, List.append_nil] at hr
      cases hr
      rfl

/-- **Lexemes of the same classes have results that differ in what is shown only.** -/
theorem feedAll_alike (h : p.Sound) (hh : p.halted = none) {input' : List (Option String)}
    (hs : input.map p.classify = input'.map p.classify) {sofar' : List TraceStep}
    (hsofar : List.Forall₂ TraceStep.Alike sofar sofar') (done : Nat) :
    ∃ r r', feedAll p done sofar input = .ok r ∧ feedAll p done sofar' input' = .ok r' ∧
      r'.accepted = r.accepted ∧ List.Forall₂ TraceStep.Alike r.steps r'.steps ∧
      ∃ k, r.consumed = done + k ∧ r'.consumed = done + k ∧
        r'.rejection = r.rejection.map (·.showing input'[k]?.join) := by
  induction input generalizing p input' sofar sofar' done with
  | nil =>
    obtain rfl : input' = [] := by simpa using hs.symm
    refine ⟨_, _, rfl, rfl, rfl, hsofar, 0, rfl, rfl, ?_⟩
    cases p.accepted <;> rfl
  | cons lexeme rest ih =>
    cases input' with
    | nil => cases hs
    | cons lexeme' rest' =>
      obtain ⟨hclass, hrest⟩ := List.cons.inj hs
      obtain ⟨hverdict, hevents, hparser⟩ := Parser.feed_showing hh hclass.symm
      have hmore {new new' : List TraceStep}
          (hnew : steps p.automaton.grammar (lexeme :: rest) (p.feed lexeme).events = .ok new)
          (hnew' : steps p.automaton.grammar (lexeme' :: rest') (p.feed lexeme').events = .ok new') :
          List.Forall₂ TraceStep.Alike (sofar ++ new) (sofar' ++ new') := by
        rw [hevents] at hnew'
        exact List.rel_append hsofar (TraceStep.alike_of_records (steps_eq_ok_iff.mp hnew)
          (steps_eq_ok_iff.mp hnew') fun e => Parser.showing_of_mem_events hh)
      rcases h.settled lexeme with ⟨c, hc⟩ | ⟨e, he⟩
      · rw [hc] at hverdict
        obtain ⟨new, hnew, hrun⟩ := exists_feedAll_of_consumed h hc rest
        obtain ⟨new', hnew', hrun'⟩ := exists_feedAll_of_consumed h hverdict rest'
        have hrunning := (Parser.running_of_consumed hc).2
        have hsame : (p.feed lexeme').parser = (p.feed lexeme).parser := by
          rw [hparser, hrunning, Option.map_none, ← hrunning]
        have hclasses : rest.map (p.feed lexeme).parser.classify =
            rest'.map (p.feed lexeme).parser.classify := by
          have hclassify : (p.feed lexeme).parser.classify = p.classify := by
            unfold Parser.classify
            rw [Parser.automaton_feed]
          rw [hclassify, hrest]
        obtain ⟨r, r', hr, hr', haccepted, hsteps, k, hk, hk', hrejection⟩ :=
          ih (h.feed lexeme) hrunning hclasses (hmore hnew hnew') (done + 1)
        rw [hrun, hrun', hsame]
        exact ⟨r, r', hr, hr', haccepted, hsteps, k + 1, by omega, by omega, hrejection⟩
      · rw [he] at hverdict
        obtain ⟨new, hnew, hrun⟩ := exists_feedAll_of_refused h he rest
        obtain ⟨new', hnew', hrun'⟩ := exists_feedAll_of_refused h hverdict rest'
        exact ⟨_, _, hrun done sofar, hrun' done sofar', rfl, hmore hnew hnew', 0, rfl, rfl, rfl⟩

/-! ## Whole parses -/

theorem join_getElem?_inputOf (tokens : List String) (k : Nat) :
    (inputOf tokens)[k]?.join = (kept tokens)[k]? := by
  rw [inputOf_eq]
  rcases Nat.lt_trichotomy k (kept tokens).length with hk | rfl | hk
  · rw [List.getElem?_append_left (by simpa using hk), List.getElem?_map]
    cases (kept tokens)[k]? <;> rfl
  · simp
  · rw [List.getElem?_eq_none (by simp; omega), List.getElem?_eq_none (Nat.le_of_lt hk)]
    rfl

theorem take_inputOf {tokens : List String} {k : Nat} (hk : k ≤ (kept tokens).length) :
    (inputOf tokens).take k = ((kept tokens).take k).map some := by
  rw [inputOf_eq, List.take_append_of_le_length (by simpa using hk), List.map_take]

theorem remaining_drop_inputOf {tokens : List String} {k : Nat} (hk : k ≤ (kept tokens).length) :
    remaining ((inputOf tokens).drop k) = (kept tokens).drop k ++ [Symbol.endMark] := by
  rw [inputOf_eq, List.drop_append_of_le_length (by simpa using hk), remaining, List.map_append,
    ← List.map_drop, List.map_map]
  simp [Function.comp_def]

theorem recordedBy_of_feedAll {p : Parser} (h : p.Sound) {tokens : List String} {r : ParseResult}
    (hr : feedAll p 0 [⟨[p.start], remaining (inputOf tokens), "init"⟩] (inputOf tokens) = .ok r) :
    r.RecordedBy p (kept tokens) := by
  obtain ⟨blocks, hsteps, hlength, hblocks⟩ := exists_blocks h hr
  refine ⟨blocks, ?_, by simpa [inputOf_eq] using hlength, fun k block hk => ?_⟩
  · have hwhole : remaining (inputOf tokens) = kept tokens ++ [Symbol.endMark] :=
      remaining_drop_inputOf (Nat.zero_le _)
    rw [hsteps, hwhole, List.singleton_append]
  · obtain ⟨lexeme, hlexeme, hrecords⟩ := hblocks k block hk
    have hle : k ≤ (kept tokens).length := by
      have := (List.getElem?_eq_some_iff.mp hlexeme).1
      simpa [inputOf_eq, Nat.lt_succ_iff] using this
    rw [take_inputOf hle, remaining_drop_inputOf hle] at hrecords
    rwa [← join_getElem?_inputOf, hlexeme]

theorem take_inputOf_congr {tokens tokens' : List String} {k : Nat}
    (hk : k < (kept tokens).length)
    (hsame : (kept tokens').take (k + 1) = (kept tokens).take (k + 1)) :
    (inputOf tokens').take (k + 1) = (inputOf tokens).take (k + 1) := by
  have hlength := congrArg List.length hsame
  rw [List.length_take, List.length_take] at hlength
  rw [take_inputOf (by omega), take_inputOf hk, hsame]

theorem map_classify_inputOf (g : Grammar) (tokens : List String) :
    (inputOf tokens).map g.classify = g.classes (kept tokens) ++ [.endOfInput] := by
  rw [inputOf_eq, List.map_append, List.map_map]
  rfl

end Trace

variable {settings : Settings} {analysis : Analysis}

/-- **Only the classes of the lexemes matter, and what is recorded does not.** A token list stands for
its lexemes that are not empty (`Trace.kept`). By an analysed grammar, under any depth limit, every
parse from an undeclared start is refused for that, and from a declared one:

* Two lists whose lexemes have the same classes, one by one, have results that are alike
  (`ParseResult.Alike`): both accepted or not, with as many tokens consumed, the same rejection but
  for the lexeme in it, and as many steps, each with the same stack and the same action, but for the
  lexeme that it consumes.
* Recorded or not, a list has the same result but for the steps, of which there are none if they are
  not recorded; if they are, those of a token show the lexemes from that one on
  (`ParseResult.RecordedBy`).
* If the parse ends before the last lexeme is consumed, any list that begins with the same lexemes,
  up to the one that is refused, has the same result but for the steps. -/
theorem only_classes_matter (h : Analysis.run g settings = .ok analysis) (limit : Option Int)
    (start : Option String) :
    let a : Automaton := ⟨analysis.grammar, analysis.table, limit⟩
    let name := Parser.startOf g start
    (name ∉ g.nonterminals → ∀ tokens recording,
      Trace.parse a tokens start recording = .error (.grammar (.undeclaredSymbol none name))) ∧
    (name ∈ g.nonterminals →
      (∀ tokens tokens', g.classes (Trace.kept tokens) = g.classes (Trace.kept tokens') →
        ∃ r r', Trace.parse a tokens start true = .ok r ∧
          Trace.parse a tokens' start true = .ok r' ∧ r.Alike (Trace.kept tokens') r') ∧
      ∀ tokens, ∃ r, Trace.parse a tokens start true = .ok r ∧
        Trace.parse a tokens start false = .ok { r with steps := [] } ∧
        r.RecordedBy (.fresh a name true) (Trace.kept tokens) ∧
        (r.consumed < (Trace.kept tokens).length → ∀ tokens',
          (Trace.kept tokens').take (r.consumed + 1) = (Trace.kept tokens).take (r.consumed + 1) →
            ∃ steps, Trace.parse a tokens' start true = .ok { r with steps := steps })) := by
  obtain rfl : analysis.grammar = g := (Analysis.of_run h).1
  intro a name
  refine ⟨fun hname tokens recording => Trace.parse_of_undeclared hname tokens recording,
    fun hname => ?_⟩
  have hsound (recording : Bool) : (Parser.fresh a name recording).Sound :=
    ⟨Analysis.decides_grammar h, Stack.wellFormed_start name⟩
  have hparse (tokens : List String) (recording : Bool) :
      Trace.parse a tokens start recording = _ := Trace.parse_of_declared hname tokens recording
  refine ⟨fun tokens tokens' hclasses => ?_, fun tokens => ?_⟩
  · have hinput : (Trace.inputOf tokens).map (Parser.fresh a name true).classify =
        (Trace.inputOf tokens').map (Parser.fresh a name true).classify := by
      show (Trace.inputOf tokens).map analysis.grammar.classify =
        (Trace.inputOf tokens').map analysis.grammar.classify
      rw [Trace.map_classify_inputOf, hclasses, Trace.map_classify_inputOf]
    obtain ⟨r, r', hr, hr', haccepted, hsteps, k, hk, hk', hrejection⟩ :=
      Trace.feedAll_alike (hsound true) rfl hinput
        (.cons (⟨rfl, .inl rfl⟩ : TraceStep.Alike ⟨[name], Trace.remaining (Trace.inputOf tokens),
          "init"⟩ ⟨[name], Trace.remaining (Trace.inputOf tokens'), "init"⟩) .nil) 0
    rw [Nat.zero_add] at hk hk'
    rw [Trace.join_getElem?_inputOf, ← hk] at hrejection
    exact ⟨r, r', (hparse tokens true).trans hr, (hparse tokens' true).trans hr',
      haccepted, hk'.trans hk.symm, hrejection, hsteps⟩
  · obtain ⟨r, hr, -⟩ := Trace.exists_feedAll (hsound true) 0
      [⟨[name], Trace.remaining (Trace.inputOf tokens), "init"⟩] (Trace.inputOf tokens)
    refine ⟨r, (hparse tokens true).trans hr, ?_, Trace.recordedBy_of_feedAll (hsound true) hr,
      fun hlt tokens' hsame => ?_⟩
    · obtain ⟨steps, hsteps⟩ :=
        Trace.feedAll_agrees (hsound true) hr (Nat.zero_add _).symm rfl false []
      obtain rfl := Trace.steps_of_not_listening (hsound false) rfl hsteps
      exact (hparse tokens false).trans hsteps
    · obtain ⟨steps, hsteps⟩ := Trace.feedAll_agrees (hsound true) hr (Nat.zero_add _).symm
        (Trace.take_inputOf_congr hlt hsame) true
        [⟨[name], Trace.remaining (Trace.inputOf tokens'), "init"⟩]
      exact ⟨steps, (hparse tokens' true).trans hsteps⟩

/-- Two identifiers with a comma between them. -/
def Grammar.pair : Grammar :=
  .build "S" (.ofList [("S", [[.identifier, .terminal ",", .identifier, .endOfInput]])])
    (.ofList [","])

/-- Without the comma the second identifier is refused, whichever it is and whatever comes behind it,
and each time it is the lexeme that is shown. -/
theorem pair_alike :
    ∃ analysis r r' steps, Analysis.run .pair .defaults = .ok analysis ∧
      Trace.parse ⟨analysis.grammar, analysis.table, none⟩ ["x", "y"] none true = .ok r ∧
      r.rejection = some (.refused (.tokenMismatch "," "NAME" (some "y"))) ∧ r.consumed = 1 ∧
      Trace.parse ⟨analysis.grammar, analysis.table, none⟩ ["u", "", "v"] none true = .ok r' ∧
      r.Alike ["u", "v"] r' ∧
      r'.rejection = some (.refused (.tokenMismatch "," "NAME" (some "v"))) ∧
      Trace.parse ⟨analysis.grammar, analysis.table, none⟩ ["x", "y", ",", "z"] none true =
        .ok { r with steps := steps } := by
  obtain ⟨analysis, h, -⟩ := Analysis.exists_create (g := .pair) (s := .defaults)
    (by decide +kernel) none (by decide +kernel) none true
  have hcomputed : ((Analysis.run .pair .defaults).toOption.map fun a =>
      (Trace.parse ⟨a.grammar, a.table, none⟩ ["x", "y"] none true).toOption.map fun r =>
        (r.rejection, r.consumed)) =
      some (some (some (.refused (.tokenMismatch "," "NAME" (some "y"))), 1)) := by decide +kernel
  obtain ⟨halike, hrecorded⟩ := (only_classes_matter h none none).2 (by decide +kernel)
  obtain ⟨r, r', hr, hr', hrr'⟩ := halike ["x", "y"] ["u", "", "v"] (by decide +kernel)
  obtain ⟨again, hagain, -, -, hlonger⟩ := hrecorded ["x", "y"]
  cases hr.symm.trans hagain
  rw [h] at hcomputed
  simp only [Except.toOption, Option.map_some, hr, Option.some.injEq, Prod.mk.injEq] at hcomputed
  obtain ⟨hrejection, hconsumed⟩ := hcomputed
  have hkept : Trace.kept ["x", "y"] = ["x", "y"] := by decide +kernel
  obtain ⟨steps, hsteps⟩ := hlonger (by rw [hconsumed, hkept]; decide) ["x", "y", ",", "z"]
    (by rw [hconsumed]; decide +kernel)
  have hshown := hrr'.rejection_eq
  rw [hrejection, hconsumed] at hshown
  exact ⟨analysis, r, r', steps, h, hr, hrejection, hconsumed, hr', hrr', hshown, hsteps⟩

end Predictive
