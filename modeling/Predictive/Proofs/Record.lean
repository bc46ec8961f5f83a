import Predictive.Proofs.Feed
import Predictive.Proofs.Leftmost

/-!
# What a parser has done so far

The events of a parser tell which alternatives it has taken and which tokens it has matched
(`Event.chosen`, `Event.matched`). From its creation or its last reset on they account for its
stack: the alternatives make a leftmost derivation of the matched symbols with what is left behind
them. This is a matter of the moves alone, so that any table will do whose cells hold indexes of
alternatives, from either end.

* `Turn.account`, `Halt.account`: the account of one move.
* `Parser.Intact.account`: that of a feed, at each of its states (`Parser.Passes`).
* `Parser.Intact.account_record`: that of everything a parser has been asked.
* `derivation_sound`: the same for a parser that was made for some table.
-/

namespace Predictive

/-! ## Accounts of events -/

namespace Event

/-- The choice that an event tells of: the frame on top has just taken an alternative. -/
def choice? (e : Event) : Option Choice :=
  match e.action, e.stack with
  | .expand _, f :: _ => f.alternative.map (⟨f.nonterminal, ·⟩)
  | _, _ => none

/-- The symbol that an event has matched. The end of the stream behind everything is accepted and
not matched. -/
def matched? (g : Grammar) (e : Event) : Option Symbol :=
  match e.action with
  | .shift lexeme => some (g.classify lexeme)
  | _ => none

/-- The alternatives taken, in order. -/
def chosen (events : List Event) : List Choice := events.filterMap choice?

/-- The symbols matched, in order. -/
def matched (g : Grammar) (events : List Event) : List Symbol := events.filterMap (matched? g)

/-- The events account for the stack: from the form their choices derive what they have matched, and
behind it what the stack has left. -/
def Account (g : Grammar) (form : List Symbol) (events : List Event) (stack : Stack) : Prop :=
  g.LeftmostBy (chosen events) form (matched g events ++ stack.rest g)

variable {g : Grammar} {form : List Symbol} {events more : List Event} {stack next : Stack}

@[simp] theorem chosen_append : chosen (events ++ more) = chosen events ++ chosen more :=
  List.filterMap_append

@[simp] theorem matched_append : matched g (events ++ more) = matched g events ++ matched g more :=
  List.filterMap_append

theorem isNonterminal_of_mem_matched {s : Symbol} (hs : s ∈ matched g events) :
    s.isNonterminal = false := by
  obtain ⟨e, -, he⟩ := List.mem_filterMap.mp hs
  unfold matched? at he
  split at he
  · cases he
    exact (g.isToken_classify _).1
  · cases he

theorem Account.refl (stack : Stack) : Account g (stack.rest g) [] stack :=
  Grammar.LeftmostBy.refl _

/-- Later events go on from what is left. -/
theorem Account.append (h : Account g form events stack)
    (h' : Account g (stack.rest g) more next) : Account g form (events ++ more) next := by
  unfold Account at h h' ⊢
  rw [chosen_append, matched_append, List.append_assoc]
  exact h.trans (h'.append_left fun s hs => isNonterminal_of_mem_matched hs)

/-- Events that choose and match nothing leave the rest as it is. -/
theorem Account.of_silent (h : ∀ e ∈ events, choice? e = none ∧ matched? g e = none)
    (hrest : next.rest g = form) : Account g form events next := by
  have hchosen : chosen events = [] := List.filterMap_eq_nil_iff.mpr fun e he => (h e he).1
  have hmatched : matched g events = [] := List.filterMap_eq_nil_iff.mpr fun e he => (h e he).2
  unfold Account
  rw [hchosen, hmatched, List.nil_append, hrest]
  exact .refl _

end Event

namespace Outcome

/-- The work has come to the stack with just these events: after an event, or at its end. -/
def Passes (o : Outcome) (events : List Event) (stack : Stack) : Prop :=
  (∃ earlier e later, o.events = earlier ++ e :: later ∧ events = earlier ++ [e] ∧
    stack = e.stack) ∨ (events = o.events ∧ stack = o.stack)

theorem passes_after {o : Outcome} {first events : List Event} {stack : Stack}
    (h : (o.after first).Passes events stack) :
    (∃ earlier e later, first = earlier ++ e :: later ∧ events = earlier ++ [e] ∧
      stack = e.stack) ∨ ∃ more, events = first ++ more ∧ o.Passes more stack := by
  rcases h with ⟨earlier, e, later, heq, rfl, rfl⟩ | ⟨rfl, rfl⟩
  · rcases append_eq_append_cons heq with ⟨x, rfl, -⟩ | ⟨x, hx, rfl⟩
    · exact .inl ⟨earlier, e, x, rfl, rfl, rfl⟩
    · refine .inr ⟨x ++ [e], List.append_assoc .., .inl ⟨x, e, later, hx, rfl, rfl⟩⟩
  · exact .inr ⟨o.events, rfl, .inr ⟨rfl, rfl⟩⟩

/-- Work that chooses and matches nothing leaves the rest as it is all the time. -/
theorem Passes.account_of_silent {o : Outcome} {events : List Event} {stack : Stack}
    (h : o.Passes events stack) {g : Grammar} {form : List Symbol}
    (hsilent : ∀ e ∈ o.events, (e.choice? = none ∧ e.matched? g = none) ∧ e.stack.rest g = form)
    (hrest : o.stack.rest g = form) : Event.Account g form events stack := by
  rcases h with ⟨earlier, e, later, heq, rfl, rfl⟩ | ⟨rfl, rfl⟩
  · have hmem {e' : Event} (he : e' ∈ earlier ++ [e]) : e' ∈ o.events := by
      rw [heq, List.append_cons]
      exact List.mem_append_left later he
    exact .of_silent (fun e' he => (hsilent e' (hmem he)).1)
      (hsilent e (hmem (List.mem_append_right earlier List.mem_cons_self))).2
  · exact .of_silent (fun e he => (hsilent e he).1) hrest

end Outcome

/-! ## Accounts of moves -/

namespace Automaton

variable {a : Automaton} {token : Token} {stack next : Stack} {events : List Event}
  {outcome : Outcome}

theorem Turn.account (h : a.Turn token stack events next) :
    Event.Account a.grammar (stack.rest a.grammar) events next := by
  cases h with
  | @choose f below i p hf hl hp =>
    rw [Stack.rest_cons, Frame.todo_of_undecided hf]
    have hnext : Stack.rest a.grammar (.decided f.nonterminal i :: below) =
        p.rhs ++ Stack.behind a.grammar below := by
      rw [Stack.rest_cons, Frame.todo_of_production? (Frame.production?_decided hp)]
      rfl
    unfold Event.Account
    rw [hnext]
    exact .single (w := []) (by simp) hp _
  | close hf hs =>
    refine .of_silent (fun e he => ?_) ?_
    · rw [List.mem_singleton.mp he]
      exact ⟨rfl, rfl⟩
    · rw [Stack.rest_resume, Stack.rest_cons, Frame.todo_eq_nil hf hs, List.nil_append]
  | descend hf hs hb =>
    refine .of_silent (by simp) ?_
    rw [Stack.rest_cons, Stack.rest_cons, Stack.behind_cons, Frame.todo_eq_cons hf hs,
      Frame.todo_of_undecided rfl]
    rfl

theorem Moves.account (h : a.Moves token stack events next) :
    Event.Account a.grammar (stack.rest a.grammar) events next := by
  induction h with
  | refl stack => exact .refl stack
  | turn ht _ ih => exact ht.account.append ih

/-- Closing complete frames neither chooses nor matches, and all stacks on the way have the same
left. -/
theorem silent_of_mem_collapse {top : Frame} {below : List Frame} {p : Production}
    (hp : top.production? a.grammar = .ok (some p))
    (hs : Stack.WellFormed a.grammar (top :: below)) {e : Event}
    (he : e ∈ (a.collapse token top below).events) :
    (e.choice? = none ∧ e.matched? a.grammar = none) ∧
      e.stack.rest a.grammar = Stack.rest a.grammar (top :: below) := by
  induction below generalizing top p with
  | nil =>
    by_cases hc : p.rhs.length ≤ top.position
    · simp only [collapse, isComplete, hp, hc, decide_true, List.mem_singleton] at he
      rw [he, Stack.rest_cons, Frame.todo_eq_nil hp (List.getElem?_eq_none_iff.mpr hc)]
      exact ⟨⟨rfl, rfl⟩, rfl⟩
    · simp [collapse, isComplete, hp, hc] at he
  | cons f below ih =>
    by_cases hc : p.rhs.length ≤ top.position
    · obtain ⟨-, ⟨q, hq, hqs⟩, hbelow⟩ := hs
      have hq' : f.advance.production? a.grammar = .ok (some q) := hq
      simp only [collapse, isComplete, hp, hc, decide_true, Outcome.after, List.mem_append,
        List.mem_singleton] at he
      have hrest : Stack.rest a.grammar (top :: f :: below) =
          Stack.rest a.grammar (f.advance :: below) := by
        rw [Stack.rest_cons, Frame.todo_eq_nil hp (List.getElem?_eq_none_iff.mpr hc)]
        rfl
      rw [hrest]
      rcases he with rfl | he
      · exact ⟨⟨rfl, rfl⟩, rfl⟩
      · exact ih hq' ⟨Frame.atWork_advance hq hqs, hbelow⟩ he
    · simp [collapse, isComplete, hp, hc] at he

/-- A matched token was the first symbol left. -/
theorem account_shift {f : Frame} (below : Stack) {p : Production} {lexeme : Option String}
    (hf : f.production? a.grammar = .ok (some p))
    (hs : p.rhs[f.position]? = some (a.grammar.classify lexeme)) :
    Event.Account a.grammar (Stack.rest a.grammar (f :: below))
      [⟨.shift lexeme, f.advance :: below⟩] (f.advance :: below) := by
  rw [Stack.rest_cons, Frame.todo_eq_cons hf hs]
  exact Grammar.LeftmostBy.refl _

/-- The account of a last move, at each of its states. -/
theorem Halt.account (h : a.Halt token stack outcome) (hv : a.table.CellsValid a.grammar)
    (hs : stack.WellFormed a.grammar) (ht : token.symbol = a.grammar.classify token.lexeme)
    (hpass : outcome.Passes events next) :
    Event.Account a.grammar (stack.rest a.grammar) events next := by
  have hsettled := (h.settled hv hs).1
  cases h with
  | finish =>
    unfold Automaton.finish at hpass
    split at hpass
    · exact hpass.account_of_silent (by simp [Event.choice?, Event.matched?]) rfl
    · exact hpass.account_of_silent (by simp) rfl
  | unselected | mismatch | blocked => exact hpass.account_of_silent (by simp) rfl
  | @shift f below p hf hsym hn =>
    have hshift := account_shift below hf (ht ▸ hsym)
    rcases Outcome.passes_after hpass with ⟨earlier, e, later, he, rfl, rfl⟩ | ⟨more, rfl, hmore⟩
    · obtain ⟨rfl, rfl, -⟩ : earlier = [] ∧ e = _ ∧ later = [] := by
        simpa [List.singleton_eq_append_iff] using he
      exact hshift
    · have hf' : f.advance.production? a.grammar = .ok (some p) := hf
      have hs' : Stack.WellFormed a.grammar (f.advance :: below) :=
        ⟨Frame.atWork_advance hf hsym, hs.2⟩
      exact hshift.append (hmore.account_of_silent
        (fun e he => silent_of_mem_collapse hf' hs' he) (collapsed_collapse hf' hs').rest)
  | misled | lost => rcases hsettled with ⟨c, hc⟩ | ⟨e, hc⟩ <;> cases hc

theorem Turn.matched (h : a.Turn token stack events next) :
    Event.matched a.grammar events = [] := by
  cases h <;> rfl

theorem Moves.matched (h : a.Moves token stack events next) :
    Event.matched a.grammar events = [] := by
  induction h with
  | refl => rfl
  | turn ht _ ih => rw [Event.matched_append, ht.matched, ih, List.append_nil]

/-- A last move that consumes the token has matched it, or accepts the end of the stream behind
everything. -/
theorem Halt.matched_of_consumed (h : a.Halt token stack outcome)
    (hs : stack.WellFormed a.grammar) (ht : token.symbol = a.grammar.classify token.lexeme)
    {c : Consumed} (hc : outcome.verdict = .consumed c) :
    Event.matched a.grammar outcome.events = [token.symbol] ∨
      token.symbol = .endOfInput ∧ outcome.stack = [] ∧
        Event.matched a.grammar outcome.events = [] := by
  cases h with
  | finish =>
    unfold Automaton.finish at hc ⊢
    split at hc
    · rename_i hend
      rw [if_pos hend]
      exact .inr ⟨hend, rfl, rfl⟩
    · cases hc
  | @shift f below p hf hsym hn =>
    have hf' : f.advance.production? a.grammar = .ok (some p) := hf
    have hsilent : Event.matched a.grammar (a.collapse token f.advance below).events = [] :=
      List.filterMap_eq_nil_iff.mpr fun e he =>
        (silent_of_mem_collapse hf' ⟨Frame.atWork_advance hf hsym, hs.2⟩ he).1.2
    left
    rw [Outcome.after, Event.matched_append, hsilent, List.append_nil, ht]
    rfl
  | unselected | mismatch | blocked | misled | lost => cases hc

/-- A refusal has matched nothing. -/
theorem Halt.matched_of_refused (h : a.Halt token stack outcome)
    (hs : stack.WellFormed a.grammar) {e : ParseError} (he : outcome.verdict = .refused e) :
    Event.matched a.grammar outcome.events = [] := by
  rw [h.eq_of_refused hs he]
  rfl

end Automaton

/-! ## Accounts of parsers -/

namespace Parser

/-- What a parser does on a lexeme, whether or not somebody listens. -/
def work (p : Parser) (lexeme : Option String) : List Event :=
  ({ p with listening := true }.feed lexeme).events

/-- What a parser has done once it is asked something more: a reset begins anew. -/
def noted (p : Parser) (done : List Event) : Operation → List Event
  | .reset => []
  | .classify _ => done
  | .feed lexeme => done ++ p.work lexeme

/-- What a parser has done after some operations since its last reset, if `done` was before. -/
def recordFrom (p : Parser) (done : List Event) : List Operation → List Event
  | [] => done
  | op :: ops => (p.perform op).parser.recordFrom (p.noted done op) ops

/-- What a parser has done after some operations since its last reset. -/
def record (p : Parser) (ops : List Operation) : List Event := p.recordFrom [] ops

/-- A feed comes to the stack with just these events: at its beginning, between its moves, after one
of its events, or at its end. -/
def Passes (p : Parser) (lexeme : Option String) (events : List Event) (stack : Stack) : Prop :=
  (events = [] ∧ stack = p.stack) ∨ (p.halted = none ∧
    (p.automaton.Moves (p.tokenOf lexeme) p.stack events stack ∨
      (p.automaton.run (p.tokenOf lexeme) p.stack).Passes events stack))

variable {p : Parser} {lexeme : Option String} {events done : List Event} {stack : Stack}

theorem work_of_halted {e : ParseError} (h : p.halted = some e) : p.work lexeme = [] := by
  unfold work feed
  simp only [h]

theorem work_of_running (h : p.halted = none) :
    p.work lexeme = (p.automaton.run (p.tokenOf lexeme) p.stack).events := by
  unfold work feed
  simp only [h, if_true]
  rfl

/-- A listener hears all that is done. -/
theorem events_feed (h : p.listening = true) : (p.feed lexeme).events = p.work lexeme := by
  cases hh : p.halted with
  | some e => rw [work_of_halted hh, feed_of_halted hh]
  | none => rw [work_of_running hh, feed_of_running hh, if_pos h]

/-- A feed comes to its end with all its work. -/
theorem passes_work (p : Parser) (lexeme : Option String) :
    p.Passes lexeme (p.work lexeme) (p.feed lexeme).parser.stack := by
  cases hh : p.halted with
  | some e =>
    rw [work_of_halted hh, feed_of_halted hh]
    exact .inl ⟨rfl, rfl⟩
  | none =>
    rw [work_of_running hh, feed_of_running hh]
    exact .inr ⟨hh, .inr (.inr ⟨rfl, rfl⟩)⟩

theorem recordFrom_append (ops more : List Operation) :
    p.recordFrom done (ops ++ more) = (p.after ops).recordFrom (p.recordFrom done ops) more := by
  induction ops generalizing p done with
  | nil => rfl
  | cons op ops ih => exact ih

/-- A new parser is intact, and has done nothing yet. -/
theorem intact_of_create {automaton : Automaton} {start : Option String} {listening : Bool}
    (hv : automaton.table.CellsValid automaton.grammar)
    (hp : create automaton start listening = .ok p) :
    p.automaton = automaton ∧ p.Intact ∧
      Event.Account p.automaton.grammar [.nonterminal p.start] [] p.stack := by
  obtain ⟨-, rfl⟩ := create_eq_ok_iff.mp hp
  exact ⟨rfl, ⟨hv, Stack.wellFormed_start _⟩, .refl [.undecided _]⟩

namespace Intact

/-- **A feed accounts for its stacks**, all the time. -/
theorem account (h : p.Intact) (hp : p.Passes lexeme events stack) :
    Event.Account p.automaton.grammar (p.stack.rest p.automaton.grammar) events stack := by
  rcases hp with ⟨rfl, rfl⟩ | ⟨-, hm | hp⟩
  · exact .refl _
  · exact hm.account
  obtain ⟨earlier, last, outcome, hm, hrun, hlast⟩ := p.run_spec lexeme
  rw [hrun] at hp
  rcases Outcome.passes_after hp with ⟨before, e, later, rfl, rfl, rfl⟩ | ⟨more, rfl, hmore⟩
  · exact (hm.of_event rfl).account
  rcases hlast with hh | rfl
  · exact hm.account.append (hh.account h.valid (hm.wellFormed h.wellFormed) rfl hmore)
  · exact hm.account.append (hmore.account_of_silent (by simp) rfl)

/-- What a parser has done accounts for its stack after every operation. -/
theorem account_perform (h : p.Intact)
    (hd : Event.Account p.automaton.grammar [.nonterminal p.start] done p.stack)
    (op : Operation) :
    Event.Account p.automaton.grammar [.nonterminal p.start] (p.noted done op)
      (p.perform op).parser.stack := by
  cases op with
  | reset => exact .refl [.undecided p.start]
  | classify => exact hd
  | feed lexeme => exact hd.append (h.account (p.passes_work lexeme))

/-- **What a parser has done since its last reset accounts for its stack**, whatever it has been
asked. -/
theorem account_record (h : p.Intact)
    (hd : Event.Account p.automaton.grammar [.nonterminal p.start] done p.stack)
    (ops : List Operation) :
    Event.Account p.automaton.grammar [.nonterminal p.start] (p.recordFrom done ops)
      (p.after ops).stack := by
  induction ops generalizing p done with
  | nil => exact hd
  | cons op ops ih =>
    have hgrammar : (p.perform op).parser.automaton = p.automaton := automaton_after [op]
    have hstart : (p.perform op).parser.start = p.start := start_after [op]
    have hnext := h.account_perform hd op
    rw [← hgrammar, ← hstart] at hnext ⊢
    exact ih (h.perform op) hnext

/-- A consumed token is matched, or it is the end of the stream behind everything. -/
theorem matched_of_consumed (h : p.Intact) (hc : ∃ c, (p.feed lexeme).verdict = .consumed c) :
    Event.matched p.automaton.grammar (p.work lexeme) = [p.classify lexeme] ∨
      p.classify lexeme = .endOfInput ∧ (p.feed lexeme).parser.stack = [] ∧
        Event.matched p.automaton.grammar (p.work lexeme) = [] := by
  obtain ⟨c, hc⟩ := hc
  have hh := (running_of_consumed hc).1
  obtain ⟨events, last, outcome, hm, hrun, hlast⟩ := p.run_spec lexeme
  rw [feed_of_running hh, hrun] at hc ⊢
  rw [work_of_running hh, hrun]
  rcases hlast with hhalt | rfl
  · rw [Outcome.after, Event.matched_append, hm.matched, List.nil_append]
    exact hhalt.matched_of_consumed (hm.wellFormed h.wellFormed) rfl hc
  · cases hc

/-- A refused token is not matched. -/
theorem matched_of_refused (h : p.Intact) (he : ∃ e, (p.feed lexeme).verdict = .refused e) :
    Event.matched p.automaton.grammar (p.work lexeme) = [] := by
  obtain ⟨e, he⟩ := he
  cases hh : p.halted with
  | some e =>
    rw [work_of_halted hh]
    rfl
  | none =>
    obtain ⟨events, last, outcome, hm, hrun, hlast⟩ := p.run_spec lexeme
    rw [feed_of_running hh, hrun] at he
    rw [work_of_running hh, hrun]
    rcases hlast with hhalt | rfl
    · rw [Outcome.after, Event.matched_append, hm.matched, List.nil_append]
      exact hhalt.matched_of_refused (hm.wellFormed h.wellFormed) he
    · cases he

end Intact

end Parser

/-! ## Tables made by hand -/

/-- The cells of a table are checked one by one. -/
theorem ParsingTable.cellsValid_of_entries {table : ParsingTable} {g : Grammar}
    (h : ∀ row ∈ table.rows.entries, ∀ cell ∈ row.2.entries,
      (g.production? row.1 cell.2).isOk = true) : table.CellsValid g := by
  intro name s i hl
  unfold lookup ParsingTable.row at hl
  cases hrow : table.rows.find? name with
  | none =>
    rw [hrow] at hl
    cases hl
  | some row =>
    rw [hrow] at hl
    have hcell := h (name, row) (OrderedMap.find?_eq_some_iff.mp hrow) (s, i)
      (OrderedMap.find?_eq_some_iff.mp hl)
    cases hp : g.production? name i with
    | error e =>
      rw [hp] at hcell
      cases hcell
    | ok p =>
      refine ⟨p.rhs, ?_⟩
      rw [← Grammar.lhs_of_production? hp]

variable {automaton : Automaton} {start : Option String} {listening : Bool} {p : Parser}

/-- **What a parser does is a leftmost derivation**, whatever its table, if the cells of that hold
indexes of alternatives. Whatever it has been asked, and at every state of the next feed, the
alternatives that it has taken since its creation or its last reset derive, from the left and in
that order, the symbols that it has matched and behind them what its stack has left; if nothing is
left, they derive the matched symbols. A feed ends in one of those states. It matches its token if
it consumes it, unless it accepts the end of the stream behind everything, and nothing if it refuses
it. -/
theorem derivation_sound (hv : automaton.table.CellsValid automaton.grammar)
    (hp : Parser.create automaton start listening = .ok p) (ops : List Operation)
    (lexeme : Option String) :
    (∀ events stack, (p.after ops).Passes lexeme events stack →
      automaton.grammar.LeftmostBy (Event.chosen (p.record ops ++ events)) [.nonterminal p.start]
        (Event.matched automaton.grammar (p.record ops ++ events) ++
          stack.rest automaton.grammar) ∧
      (stack = [] → automaton.grammar.Derives [.nonterminal p.start]
        (Event.matched automaton.grammar (p.record ops ++ events)))) ∧
    (p.after ops).Passes lexeme ((p.after ops).work lexeme)
      ((p.after ops).feed lexeme).parser.stack ∧
    p.record (ops ++ [.feed lexeme]) = p.record ops ++ (p.after ops).work lexeme ∧
    ((∃ c, ((p.after ops).feed lexeme).verdict = .consumed c) →
      Event.matched automaton.grammar ((p.after ops).work lexeme) =
          [automaton.grammar.classify lexeme] ∨
        automaton.grammar.classify lexeme = .endOfInput ∧
          ((p.after ops).feed lexeme).parser.stack = [] ∧
          Event.matched automaton.grammar ((p.after ops).work lexeme) = []) ∧
    ((∃ e, ((p.after ops).feed lexeme).verdict = .refused e) →
      Event.matched automaton.grammar (p.record (ops ++ [.feed lexeme])) =
        Event.matched automaton.grammar (p.record ops)) := by
  obtain ⟨rfl, hintact, hnew⟩ := Parser.intact_of_create hv hp
  have hafter : (p.after ops).Intact := hintact.after ops
  have hgrammar : (p.after ops).automaton = p.automaton := Parser.automaton_after ops
  have hrecord : p.record (ops ++ [.feed lexeme]) =
      p.record ops ++ (p.after ops).work lexeme := p.recordFrom_append ops [.feed lexeme]
  refine ⟨fun events stack hpass => ?_, (p.after ops).passes_work lexeme, hrecord, fun hc => ?_,
    fun he => ?_⟩
  · have hfeed := hafter.account hpass
    rw [hgrammar] at hfeed
    have haccount := (hintact.account_record hnew ops).append hfeed
    refine ⟨haccount, fun hnil => ?_⟩
    have hderives := haccount.derives
    rwa [hnil, Stack.rest_nil, List.append_nil] at hderives
  · have := hafter.matched_of_consumed hc
    unfold Parser.classify at this
    rwa [hgrammar] at this
  · have hnone := hafter.matched_of_refused he
    rw [hgrammar] at hnone
    rw [hrecord, Event.matched_append, hnone, List.append_nil]

/-- A table for two runs whose cells count from the last alternative. -/
def ParsingTable.twoRunsFromLast : ParsingTable :=
  .ofCells [("S", [(.terminal "a", -1), (.endOfInput, -1)]),
    ("A", [(.terminal "a", -2), (.terminal "b", -1)]), ("B", [(.terminal "b", -2)])]

/-- After an `a`, two alternatives are taken, by their indexes from the last one. -/
theorem twoRunsFromLast_derives :
    ∃ p, Parser.create ⟨.twoRuns, .twoRunsFromLast, some 2⟩ none false = .ok p ∧
      Grammar.twoRuns.LeftmostBy [⟨"S", -1⟩, ⟨"A", -2⟩] [.nonterminal "S"]
        [.terminal "a", .nonterminal "A", .nonterminal "B", .endOfInput] := by
  have hv : ParsingTable.twoRunsFromLast.CellsValid .twoRuns :=
    ParsingTable.cellsValid_of_entries (by decide +kernel)
  let p := Parser.fresh ⟨.twoRuns, .twoRunsFromLast, some 2⟩ "S" false
  have hp : Parser.create ⟨.twoRuns, .twoRunsFromLast, some 2⟩ none false = .ok p :=
    Parser.create_eq_ok_iff.mpr ⟨by decide +kernel, rfl⟩
  have hderives := ((derivation_sound hv hp [.feed (some "a")] none).1 [] _ (.inl ⟨rfl, rfl⟩)).1
  have hchosen : Event.chosen (p.record [.feed (some "a")] ++ []) = [⟨"S", -1⟩, ⟨"A", -2⟩] := by
    decide +kernel
  have hleft : Event.matched .twoRuns (p.record [.feed (some "a")] ++ []) ++
      (p.after [.feed (some "a")]).stack.rest .twoRuns =
        [.terminal "a", .nonterminal "A", .nonterminal "B", .endOfInput] := by decide +kernel
  rw [hchosen, hleft] at hderives
  exact ⟨p, hp, hderives⟩

end Predictive
