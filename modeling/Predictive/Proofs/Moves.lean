import Predictive.Automaton.Run
import Predictive.Proofs.Stack
import Predictive.Proofs.Table

/-!
# The moves on a token

What one move does is said once, by cases: `Turn` for the moves after which the work goes on, `Halt`
for those that end it. The work on a token is then some turns and one last move (`Moves`,
`exists_moves`), as long as no stack on the way exceeds the ceiling.

* `Turn.wellFormed`: a turn keeps the shape of the stack.
* `collapsed_collapse`: frames that are complete are closed without a change to what is left to
  derive.
* `moves_collapse`: they are closed one by one, by turns.
* `Halt.settled`: by a table whose cells are valid the token is consumed or refused, and the shape
  is kept.
* `Halt.eq_of_refused`: a refusal leaves the stack as it is.
-/

namespace Predictive

namespace Outcome

/-- The outcome tells of the stack: as the last one, or with an event. -/
def Shows (o : Outcome) (stack : Stack) : Prop := stack = o.stack ∨ ∃ e ∈ o.events, e.stack = stack

theorem after_after (o : Outcome) (events later : List Event) :
    (o.after later).after events = o.after (events ++ later) := by
  simp only [after, List.append_assoc]

theorem shows_after {o : Outcome} {events : List Event} {stack : Stack} :
    (o.after events).Shows stack ↔ (∃ e ∈ events, e.stack = stack) ∨ o.Shows stack := by
  simp only [Shows, after, List.mem_append, or_and_right, exists_or]
  exact or_left_comm

end Outcome

namespace Automaton

/-- A move after which the work on the token goes on, with its events. -/
inductive Turn (a : Automaton) (token : Token) : Stack → List Event → Stack → Prop
  | choose {f : Frame} {below : Stack} {i : Int} {p : Production} (hf : f.alternative = none)
      (hl : a.table.lookup f.nonterminal token.symbol = some i)
      (hp : a.grammar.production? f.nonterminal i = .ok p) :
      Turn a token (f :: below) [⟨.expand p, .decided f.nonterminal i :: below⟩]
        (.decided f.nonterminal i :: below)
  | close {f : Frame} {below : Stack} {p : Production}
      (hf : f.production? a.grammar = .ok (some p)) (hs : p.rhs[f.position]? = none) :
      Turn a token (f :: below) [⟨.close f.nonterminal, below.resume⟩] below.resume
  | descend {f : Frame} {below : Stack} {p : Production} {name : String}
      (hf : f.production? a.grammar = .ok (some p))
      (hs : p.rhs[f.position]? = some (.nonterminal name)) (hb : a.blocked? (f :: below) = none) :
      Turn a token (f :: below) [] (.undecided name :: f :: below)

/-- A move that ends the work on the token. -/
inductive Halt (a : Automaton) (token : Token) : Stack → Outcome → Prop
  | finish : Halt a token [] (finish token)
  | unselected {f : Frame} {below : Stack} (hf : f.alternative = none)
      (hl : a.table.lookup f.nonterminal token.symbol = none) :
      Halt a token (f :: below) ⟨f :: below, [],
        .refused (.unexpectedToken (some f.nonterminal) token.symbol.name token.lexeme)⟩
  | mismatch {f : Frame} {below : Stack} {p : Production} {s : Symbol}
      (hf : f.production? a.grammar = .ok (some p)) (hs : p.rhs[f.position]? = some s)
      (hn : s.isNonterminal = false) (ht : s ≠ token.symbol) :
      Halt a token (f :: below) ⟨f :: below, [],
        .refused (.tokenMismatch s.name token.symbol.name token.lexeme)⟩
  | blocked {f : Frame} {below : Stack} {p : Production} {name : String} {limit : Int}
      (hf : f.production? a.grammar = .ok (some p))
      (hs : p.rhs[f.position]? = some (.nonterminal name))
      (hb : a.blocked? (f :: below) = some limit) :
      Halt a token (f :: below) ⟨f :: below, [], .refused (.nestingTooDeep limit)⟩
  | shift {f : Frame} {below : Stack} {p : Production}
      (hf : f.production? a.grammar = .ok (some p))
      (hs : p.rhs[f.position]? = some token.symbol) (hn : token.symbol.isNonterminal = false) :
      Halt a token (f :: below) ((a.collapse token f.advance below).after
        [⟨.shift token.lexeme, f.advance :: below⟩])
  | misled {f : Frame} {below : Stack} {i : Int} {e : LookupFault} (hf : f.alternative = none)
      (hl : a.table.lookup f.nonterminal token.symbol = some i)
      (hp : a.grammar.production? f.nonterminal i = .error e) :
      Halt a token (f :: below) ⟨.decided f.nonterminal i :: below, [], .faulty e⟩
  | lost {f : Frame} {below : Stack} {e : LookupFault}
      (hf : f.production? a.grammar = .error e) :
      Halt a token (f :: below) ⟨f :: below, [], .faulty e⟩

/-- Any number of turns, with all their events. -/
inductive Moves (a : Automaton) (token : Token) : Stack → List Event → Stack → Prop
  | refl (stack : Stack) : Moves a token stack [] stack
  | turn {stack next last : Stack} {events later : List Event} (h : Turn a token stack events next)
      (hm : Moves a token next later last) : Moves a token stack (events ++ later) last

variable {a : Automaton} {token : Token} {stack next : Stack} {events : List Event}
  {outcome : Outcome}

theorem blocked?_eq_some_iff {limit : Int} :
    a.blocked? stack = some limit ↔ a.depthLimit = some limit ∧ limit ≤ stack.length := by
  unfold blocked?
  cases a.depthLimit with
  | none => simp
  | some limit' => simp; grind

theorem blocked?_eq_none_iff :
    a.blocked? stack = none ↔ ∀ limit, a.depthLimit = some limit → (stack.length : Int) < limit := by
  unfold blocked?
  cases a.depthLimit with
  | none => simp
  | some limit => simp

/-! ## Turns and last moves are the moves of the automaton -/

theorem Turn.step_eq (h : a.Turn token stack events next) :
    a.step token stack = .next next events := by
  cases h with
  | choose hf hl hp =>
    simp only [step, Frame.production?_eq_none_iff.mpr hf, Automaton.choose, hl, hp]
  | close hf hs => simp only [step, hf, proceed, hs]
  | descend hf hs hb =>
    simp only [step, hf, proceed, hs, Symbol.isNonterminal_nonterminal, if_true, hb]
    rfl

theorem Halt.step_eq (h : a.Halt token stack outcome) : a.step token stack = .done outcome := by
  cases h with
  | finish => rfl
  | unselected hf hl =>
    simp only [step, Frame.production?_eq_none_iff.mpr hf, choose, hl]
  | mismatch hf hs hn ht =>
    simp only [step, hf, proceed, hs, hn, Bool.false_eq_true, if_false, ht]
  | blocked hf hs hb =>
    simp only [step, hf, proceed, hs, Symbol.isNonterminal_nonterminal, if_true, hb]
  | shift hf hs hn =>
    simp only [step, hf, proceed, hs, hn, Bool.false_eq_true, if_false, if_true]
  | misled hf hl hp =>
    simp only [step, Frame.production?_eq_none_iff.mpr hf, choose, hl, hp]
  | lost hf => simp only [step, hf]

/-- Every stack is turned or is the last one. -/
theorem turn_or_halt (a : Automaton) (token : Token) (stack : Stack) :
    (∃ next events, a.Turn token stack events next) ∨ ∃ outcome, a.Halt token stack outcome := by
  cases stack with
  | nil => exact .inr ⟨_, .finish⟩
  | cons f below =>
    cases hf : f.production? a.grammar with
    | error e => exact .inr ⟨_, .lost hf⟩
    | ok p? =>
      cases p? with
      | none =>
        have hf' := Frame.production?_eq_none_iff.mp hf
        cases hl : a.table.lookup f.nonterminal token.symbol with
        | none => exact .inr ⟨_, .unselected hf' hl⟩
        | some i =>
          cases hp : a.grammar.production? f.nonterminal i with
          | error e => exact .inr ⟨_, .misled hf' hl hp⟩
          | ok p => exact .inl ⟨_, _, .choose hf' hl hp⟩
      | some p =>
        cases hs : p.rhs[f.position]? with
        | none => exact .inl ⟨_, _, .close hf hs⟩
        | some s =>
          cases hn : s.isNonterminal with
          | true =>
            rw [Symbol.eq_nonterminal hn] at hs
            cases hb : a.blocked? (f :: below) with
            | none => exact .inl ⟨_, _, .descend hf hs hb⟩
            | some limit => exact .inr ⟨_, .blocked hf hs hb⟩
          | false =>
            by_cases ht : s = token.symbol
            · subst ht
              exact .inr ⟨_, .shift hf hs hn⟩
            · exact .inr ⟨_, .mismatch hf hs hn ht⟩

/-! ## The work on a token -/

/-- A turn has one event at most, with the stack after it. -/
theorem Turn.of_event (h : a.Turn token stack events next) {earlier later : List Event} {e : Event}
    (he : events = earlier ++ e :: later) : earlier = [] ∧ events = [e] ∧ e.stack = next := by
  cases h with
  | choose | close =>
    cases earlier with
    | nil =>
      obtain ⟨rfl, -⟩ := List.cons.inj he
      exact ⟨rfl, rfl, rfl⟩
    | cons _ earlier => simp at he
  | descend => simp at he

namespace Moves

theorem single (h : a.Turn token stack events next) : a.Moves token stack events next := by
  have := Moves.turn h (.refl next)
  rwa [List.append_nil] at this

/-- What every turn keeps is kept. -/
theorem invariant {P : Stack → Prop} (h : a.Moves token stack events next)
    (hturn : ∀ {s es s'}, a.Turn token s es s' → P s → P s') (hs : P stack) : P next := by
  induction h with
  | refl => exact hs
  | turn ht _ ih => exact ih (hturn ht hs)

theorem trans {last : Stack} {later : List Event} (h : a.Moves token stack events next)
    (h' : a.Moves token next later last) : a.Moves token stack (events ++ later) last := by
  induction h with
  | refl => exact h'
  | turn ht _ ih =>
    rw [List.append_assoc]
    exact .turn ht (ih h')

/-- Every event comes with the stack after it, once all events before it have come. -/
theorem of_event (h : a.Moves token stack events next) {earlier later : List Event} {e : Event}
    (he : events = earlier ++ e :: later) : a.Moves token stack (earlier ++ [e]) e.stack := by
  induction h generalizing earlier with
  | refl => simp at he
  | @turn stack next last events more ht hm ih =>
    rcases append_eq_append_cons he with ⟨x, hx, -⟩ | ⟨x, hx, rfl⟩
    · obtain ⟨rfl, rfl, rfl⟩ := ht.of_event hx
      exact single ht
    · rw [List.append_assoc]
      exact .turn ht (ih hx)

theorem exists_of_mem (h : a.Moves token stack events next) {e : Event} (he : e ∈ events) :
    ∃ earlier, a.Moves token stack earlier e.stack := by
  obtain ⟨earlier, later, heq⟩ := List.append_of_mem he
  exact ⟨_, h.of_event heq⟩

end Moves

/-- The work below a ceiling is some turns, and then a last move or a turn that would exceed the
ceiling. -/
theorem runBelow_spec (a : Automaton) (token : Token) (ceiling : Nat) (stack : Stack) :
    ∃ events last outcome, a.Moves token stack events last ∧
      a.runBelow ceiling token stack = outcome.after events ∧
      (a.Halt token last outcome ∨ outcome = ⟨last, [], .endless⟩ ∧
        ∃ next more, a.Turn token last more next ∧ ceiling < next.length) := by
  -- Every turn below the ceiling lowers the worth of the stack.
  induction hn : a.work ceiling stack using Nat.strong_induction_on generalizing stack with
  | _ n ih =>
    rw [runBelow_eq]
    rcases turn_or_halt a token stack with ⟨next, events, ht⟩ | ⟨outcome, hh⟩
    · rcases Nat.lt_or_ge ceiling next.length with habove | hbelow
      · refine ⟨[], stack, _, .refl stack, ?_, .inr ⟨rfl, next, events, ht, habove⟩⟩
        simp only [ht.step_eq, if_neg (Nat.not_le.mpr habove)]
        rfl
      · have hlt : a.work ceiling next < n := hn ▸ a.work_next ht.step_eq hbelow
        obtain ⟨later, last, outcome, hm, hrun, hlast⟩ := ih _ hlt next rfl
        refine ⟨events ++ later, last, outcome, .turn ht hm, ?_, hlast⟩
        simp only [ht.step_eq, if_pos hbelow, hrun]
        exact Outcome.after_after outcome events later
    · refine ⟨[], stack, outcome, .refl stack, ?_, .inl hh⟩
      simp only [hh.step_eq]
      rfl

/-- **The work on a token is some turns and a last move**, if the ceiling is never exceeded. -/
theorem exists_moves {ceiling : Nat}
    (hc : ∀ {later last}, a.Moves token stack later last → last.length ≤ ceiling) :
    ∃ events last outcome, a.Moves token stack events last ∧ a.Halt token last outcome ∧
      a.runBelow ceiling token stack = outcome.after events := by
  obtain ⟨events, last, outcome, hm, hrun, hh | ⟨-, next, more, ht, habove⟩⟩ :=
    runBelow_spec a token ceiling stack
  · exact ⟨events, last, outcome, hm, hh, hrun⟩
  · have := hc (hm.trans (.single ht))
    omega

/-! ## The shape of the stack -/

theorem Turn.wellFormed (h : a.Turn token stack events next)
    (hs : stack.WellFormed a.grammar) : next.WellFormed a.grammar := by
  cases h with
  | choose hf hl hp => exact ⟨Frame.atWork_decided hp, hs.2⟩
  | close hf hs' => exact hs.2.resume
  | descend hf hs' hb => exact ⟨Frame.atWork_undecided _, ⟨_, hf, hs'⟩, hs.2⟩

theorem Moves.wellFormed (h : a.Moves token stack events next)
    (hs : stack.WellFormed a.grammar) : next.WellFormed a.grammar :=
  h.invariant (fun ht => ht.wellFormed) hs

/-- What comes of closing the frames that are complete once a token is consumed. -/
structure Collapsed (g : Grammar) (token : Token) (stack : Stack) (outcome : Outcome) : Prop where
  verdict : outcome.verdict = .consumed ⟨token.symbol, token.lexeme, outcome.stack.length⟩
  rest : outcome.stack.rest g = stack.rest g
  /-- A stack that has nothing left to derive is gone. -/
  eq_nil : outcome.stack.rest g = [] → outcome.stack = []
  kept : ∀ s, outcome.Shows s → s.WellFormed g ∧ s.length ≤ stack.length

/-- A frame that is not complete stays, and so do those below it. -/
theorem collapsed_of_lt {top : Frame} {below : List Frame} {p : Production}
    (hp : top.production? a.grammar = .ok (some p)) (hlt : top.position < p.rhs.length)
    (hs : Stack.WellFormed a.grammar (top :: below)) :
    Collapsed a.grammar token (top :: below) (a.collapse token top below) := by
  have hcollapse : a.collapse token top below =
      ⟨top :: below, [], .consumed ⟨token.symbol, token.lexeme, below.length + 1⟩⟩ := by
    cases below <;> simp only [collapse, isComplete, hp, Nat.not_le.mpr hlt, decide_false] <;> rfl
  rw [hcollapse]
  refine ⟨rfl, rfl, fun hrest => ?_, ?_⟩
  · obtain ⟨htodo, -⟩ := List.append_eq_nil_iff.mp hrest
    rw [Frame.todo_of_production? hp, List.drop_eq_nil_iff] at htodo
    omega
  · rintro s (rfl | ⟨e, he, -⟩)
    · exact ⟨hs, Nat.le_refl _⟩
    · exact absurd he List.not_mem_nil

/-- Complete frames are closed, and nothing else is changed. -/
theorem collapsed_collapse {top : Frame} {below : List Frame} {p : Production}
    (hp : top.production? a.grammar = .ok (some p))
    (hs : Stack.WellFormed a.grammar (top :: below)) :
    Collapsed a.grammar token (top :: below) (a.collapse token top below) := by
  induction below generalizing top p with
  | nil =>
    rcases Nat.lt_or_ge top.position p.rhs.length with hlt | hc
    · exact collapsed_of_lt hp hlt hs
    have hnil : top.todo a.grammar = [] :=
      Frame.todo_eq_nil hp (List.getElem?_eq_none_iff.mpr hc)
    simp only [collapse, isComplete, hp, ge_iff_le.mp hc, decide_true]
    refine ⟨rfl, by simp [hnil, Stack.behind], fun _ => rfl, ?_⟩
    rintro s (rfl | ⟨e, he, rfl⟩)
    · exact ⟨trivial, Nat.zero_le _⟩
    · rw [List.mem_singleton.mp he]
      exact ⟨trivial, Nat.zero_le _⟩
  | cons f below ih =>
    rcases Nat.lt_or_ge top.position p.rhs.length with hlt | hc
    · exact collapsed_of_lt hp hlt hs
    have hnil : top.todo a.grammar = [] :=
      Frame.todo_eq_nil hp (List.getElem?_eq_none_iff.mpr hc)
    obtain ⟨-, ⟨q, hq, hqs⟩, hbelow⟩ := hs
    have hq' : f.advance.production? a.grammar = .ok (some q) := hq
    have hs' : Stack.WellFormed a.grammar (f.advance :: below) :=
      ⟨Frame.atWork_advance hq hqs, hbelow⟩
    obtain ⟨hv, hrest, heq, hkept⟩ := ih hq' hs'
    simp only [collapse, isComplete, hp, ge_iff_le.mp hc, decide_true]
    refine ⟨hv, ?_, heq, fun s hshow => ?_⟩
    · simp only [Outcome.after, hrest, Stack.rest_cons, Stack.behind_cons, hnil, List.nil_append]
    · rcases Outcome.shows_after.mp hshow with ⟨e, he, rfl⟩ | hshow
      · rw [List.mem_singleton.mp he]
        exact ⟨hs', Nat.le_succ _⟩
      · obtain ⟨hw, hlen⟩ := hkept s hshow
        exact ⟨hw, Nat.le_succ_of_le hlen⟩

/-- **Complete frames are closed by turns**, until the frame on top has something left to do. -/
theorem moves_collapse (token : Token) {top : Frame} {below : List Frame} {p : Production}
    (hp : top.production? a.grammar = .ok (some p)) (hpos : 0 < top.position)
    (hs : Stack.WellFormed a.grammar (top :: below)) :
    a.Moves token (top :: below) (a.collapse token top below).events
        (a.collapse token top below).stack ∧
      ∀ f ∈ (a.collapse token top below).stack.head?, f.Midway a.grammar := by
  have stays (hlt : top.position < p.rhs.length) :
      ∀ f ∈ (top :: below).head?, f.Midway a.grammar := by
    intro f hf
    cases hf
    exact ⟨p, hp, hpos, hlt⟩
  induction below generalizing top p with
  | nil =>
    by_cases hc : p.rhs.length ≤ top.position
    · simp only [collapse, isComplete, hp, hc, decide_true]
      exact ⟨.single (.close hp (List.getElem?_eq_none_iff.mpr hc)), by simp⟩
    · simp only [collapse, isComplete, hp, hc, decide_false]
      exact ⟨.refl _, stays (Nat.lt_of_not_le hc)⟩
  | cons f below ih =>
    by_cases hc : p.rhs.length ≤ top.position
    · obtain ⟨-, ⟨q, hq, hqs⟩, hbelow⟩ := hs
      have hq' : f.advance.production? a.grammar = .ok (some q) := hq
      have hpos' : 0 < f.advance.position := Nat.succ_pos _
      obtain ⟨hmoves, hlast⟩ := ih hq' hpos' ⟨Frame.atWork_advance hq hqs, hbelow⟩
        fun hlt f' hf' => by cases hf'; exact ⟨q, hq', hpos', hlt⟩
      simp only [collapse, isComplete, hp, hc, decide_true]
      exact ⟨.turn (.close hp (List.getElem?_eq_none_iff.mpr hc)) hmoves, hlast⟩
    · simp only [collapse, isComplete, hp, hc, decide_false]
      exact ⟨.refl _, stays (Nat.lt_of_not_le hc)⟩

/-- What comes of closing frames once the next symbol of the frame on top is done. -/
theorem collapsed_advance (token : Token) {f : Frame} {below : List Frame} {p : Production}
    {s : Symbol} (hf : f.production? a.grammar = .ok (some p)) (hsym : p.rhs[f.position]? = some s)
    (hs : Stack.WellFormed a.grammar (f :: below)) :
    Collapsed a.grammar token (f.advance :: below) (a.collapse token f.advance below) := by
  have hf' : f.advance.production? a.grammar = .ok (some p) := hf
  exact collapsed_collapse hf' ⟨Frame.atWork_advance hf hsym, hs.2⟩

/-- Those frames are closed by turns. -/
theorem moves_advance (token : Token) {f : Frame} {below : List Frame} {p : Production}
    {s : Symbol} (hf : f.production? a.grammar = .ok (some p)) (hsym : p.rhs[f.position]? = some s)
    (hs : Stack.WellFormed a.grammar (f :: below)) :
    a.Moves token (f.advance :: below) (a.collapse token f.advance below).events
        (a.collapse token f.advance below).stack ∧
      ∀ f' ∈ (a.collapse token f.advance below).stack.head?, f'.Midway a.grammar := by
  have hf' : f.advance.production? a.grammar = .ok (some p) := hf
  exact moves_collapse token hf' (Nat.succ_pos _) ⟨Frame.atWork_advance hf hsym, hs.2⟩

/-- Of what was left, only the symbol is gone then. -/
theorem rest_eq_cons (token : Token) {f : Frame} {below : List Frame} {p : Production}
    {s : Symbol} (hf : f.production? a.grammar = .ok (some p)) (hsym : p.rhs[f.position]? = some s)
    (hs : Stack.WellFormed a.grammar (f :: below)) :
    Stack.rest a.grammar (f :: below) =
      s :: (a.collapse token f.advance below).stack.rest a.grammar := by
  rw [(collapsed_advance token hf hsym hs).rest, Stack.rest_cons, Frame.todo_eq_cons hf hsym]
  rfl

/-- **The work on a token ends in its consumption or its refusal**, and every stack it shows at the
end is well formed and no higher than before the last move. -/
theorem Halt.settled (h : a.Halt token stack outcome) (hv : a.table.CellsValid a.grammar)
    (hs : stack.WellFormed a.grammar) :
    ((∃ c, outcome.verdict = .consumed c) ∨ ∃ e, outcome.verdict = .refused e) ∧
      ∀ s, outcome.Shows s → s.WellFormed a.grammar ∧ s.length ≤ stack.length := by
  -- A refusal shows the stack as it is.
  have refused (e : ParseError) {s : Stack} (hshow : (⟨stack, [], .refused e⟩ : Outcome).Shows s) :
      s.WellFormed a.grammar ∧ s.length ≤ stack.length := by
    rcases hshow with rfl | ⟨e, he, -⟩
    · exact ⟨hs, Nat.le_refl _⟩
    · exact absurd he List.not_mem_nil
  cases h with
  | finish =>
    unfold Automaton.finish
    split
    · refine ⟨.inl ⟨_, rfl⟩, ?_⟩
      rintro s (rfl | ⟨e, he, rfl⟩)
      · exact ⟨hs, Nat.le_refl _⟩
      · rw [List.mem_singleton.mp he]
        exact ⟨hs, Nat.le_refl _⟩
    · exact ⟨.inr ⟨_, rfl⟩, fun s => refused _⟩
  | unselected | mismatch | blocked => exact ⟨.inr ⟨_, rfl⟩, fun s => refused _⟩
  | @shift f below p hf hsym hn =>
    obtain ⟨hverdict, -, -, hkept⟩ := collapsed_advance token hf hsym hs
    refine ⟨.inl ⟨_, hverdict⟩, fun s hshow => ?_⟩
    rcases Outcome.shows_after.mp hshow with ⟨e, he, rfl⟩ | hshow
    · rw [List.mem_singleton.mp he]
      exact ⟨⟨Frame.atWork_advance hf hsym, hs.2⟩, Nat.le_refl _⟩
    · exact hkept s hshow
  | misled hf hl hp =>
    obtain ⟨rhs, hp'⟩ := hv hl
    rw [hp] at hp'
    cases hp'
  | lost hf =>
    rcases hs.1 with ⟨hn, -⟩ | ⟨p, hp, -⟩
    · rw [Frame.production?_eq_none_iff.mpr hn] at hf
      cases hf
    · rw [hp] at hf
      cases hf

/-- A refusal leaves the stack as it is, without an event. -/
theorem Halt.eq_of_refused (h : a.Halt token stack outcome) (hs : stack.WellFormed a.grammar)
    {e : ParseError} (he : outcome.verdict = .refused e) : outcome = ⟨stack, [], .refused e⟩ := by
  cases h with
  | finish =>
    unfold Automaton.finish at he ⊢
    split at he
    · cases he
    · rename_i hend
      cases he
      rw [if_neg hend]
  | unselected | mismatch | blocked =>
    cases he
    rfl
  | shift hf hsym hn =>
    have hverdict : _ = Verdict.refused e := he
    rw [Outcome.after, (collapsed_advance token hf hsym hs).verdict] at hverdict
    cases hverdict
  | misled | lost => cases he

end Automaton

end Predictive
