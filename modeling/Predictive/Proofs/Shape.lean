import Predictive.Proofs.Record

/-!
# The stack between two feeds, and what a refusal says about it

Whatever a parser is asked, and whatever its table, if the cells of that hold indexes of alternatives:
its stack grows from a frame of the start, each frame waits for the one above it, and there are no
more frames than the depth limit allows (`Stack.Shape`). A token that is consumed leaves a frame on
top that is done in part, or no frame at all. A token that is refused leaves the stack as it was when
nothing could go on, and the refusal tells which of the four ways that is (`Automaton.Refusal`,
`ParseError.Diagnoses`).

* `Turn.rooted`, `Turn.within`: the bottom frame and the depth limit, turn by turn.
* `Halt.leaves`: what the last move on a token leaves behind.
* `Refusal.diagnoses`: what a refusal says.
* `Parser.Orderly.after`: all of it is kept by everything that can be asked.
* `stack_shape_and_refusals`: the main result.
-/

namespace Predictive

/-! ## The bottom frame and the number of frames -/

namespace Stack

/-- The bottom frame, if there is one, is of the nonterminal. -/
def Rooted (name : String) (stack : Stack) : Prop := ∀ f ∈ stack.getLast?, f.nonterminal = name

variable {name : String} {f f' : Frame} {below : Stack}

theorem rooted_start (name : String) : Rooted name [.undecided name] := by
  intro f hf
  cases hf
  rfl

theorem rooted_nil (name : String) : Rooted name [] := by
  intro f hf
  cases hf

theorem rooted_cons_cons : Rooted name (f :: f' :: below) ↔ Rooted name (f' :: below) := by
  unfold Rooted
  rw [List.getLast?_cons_cons]

/-- The frame on top may be changed if it stays one of its nonterminal. -/
theorem Rooted.replace (h : Rooted name (f :: below)) (hf : f'.nonterminal = f.nonterminal) :
    Rooted name (f' :: below) := by
  cases below with
  | nil =>
    intro e he
    cases he
    show f'.nonterminal = name
    rw [hf]
    exact h f rfl
  | cons e below => exact rooted_cons_cons.mpr (rooted_cons_cons.mp h)

theorem Rooted.resume (h : Rooted name (f :: below)) : Rooted name below.resume := by
  cases below with
  | nil => exact rooted_nil name
  | cons e below => exact (rooted_cons_cons.mp h).replace rfl

/-- The shape of a stack between two feeds, of an automaton that derives a nonterminal. -/
structure Shape (a : Automaton) (start : String) (stack : Stack) : Prop where
  bottom : ∀ f, stack.getLast? = some f → f.nonterminal = start
  /-- Every frame below another one is decided, and the nonterminal of that one is its next symbol.
  -/
  waits : ∀ i upper lower, stack[i]? = some upper → stack[i + 1]? = some lower →
    lower.Waits a.grammar upper.nonterminal
  /-- Only the frame on top may be undecided, and nothing of it is done then. -/
  undecided : ∀ i f, stack[i]? = some f → f.alternative = none → i = 0 ∧ f.position = 0
  height : ∀ limit, a.depthLimit = some limit → (stack.length : Int) ≤ limit

theorem WaitsFor.waits {g : Grammar} (h : WaitsFor g name below) {i : Nat} {upper lower : Frame}
    (hu : below[i]? = some upper) (hl : below[i + 1]? = some lower) :
    lower.Waits g upper.nonterminal := by
  induction below generalizing name i with
  | nil => cases hu
  | cons e below ih =>
    cases i with
    | zero =>
      cases hu
      cases below with
      | nil => cases hl
      | cons e' below =>
        cases hl
        exact h.2.1
    | succ i => exact ih h.2 hu hl

theorem WellFormed.waits {g : Grammar} {stack : Stack} (h : stack.WellFormed g) {i : Nat}
    {upper lower : Frame} (hu : stack[i]? = some upper) (hl : stack[i + 1]? = some lower) :
    lower.Waits g upper.nonterminal := by
  cases stack with
  | nil => cases hu
  | cons top below =>
    cases i with
    | zero =>
      cases hu
      cases below with
      | nil => cases hl
      | cons e below =>
        cases hl
        exact h.2.1
    | succ i => exact h.2.waits hu hl

theorem WellFormed.undecided {g : Grammar} {stack : Stack} (h : stack.WellFormed g) {i : Nat}
    {f : Frame} (hf : stack[i]? = some f) (hn : f.alternative = none) : i = 0 ∧ f.position = 0 := by
  cases stack with
  | nil => cases hf
  | cons top below =>
    cases i with
    | zero =>
      cases hf
      rcases h.1 with ⟨-, hposition⟩ | ⟨p, hp, -⟩
      · exact ⟨rfl, hposition⟩
      · exact absurd hn (Frame.alternative_ne_none hp)
    | succ i =>
      obtain ⟨name, p, hp, -⟩ := h.2.mem (List.mem_of_getElem? hf)
      exact absurd hn (Frame.alternative_ne_none hp)

end Stack

namespace Automaton

/-- The stack holds no more frames than the depth limit allows. -/
def Within (a : Automaton) (stack : Stack) : Prop :=
  ∀ limit, a.depthLimit = some limit → (stack.length : Int) ≤ limit

variable {a : Automaton} {token : Token} {stack next : Stack} {events : List Event}
  {outcome : Outcome} {start : String}

theorem Within.mono (h : a.Within stack) (hle : next.length ≤ stack.length) : a.Within next := by
  intro limit hlimit
  have := h limit hlimit
  omega

theorem Turn.rooted (h : a.Turn token stack events next) (hr : stack.Rooted start) :
    next.Rooted start := by
  cases h with
  | choose => exact hr.replace rfl
  | close => exact hr.resume
  | descend => exact Stack.rooted_cons_cons.mpr hr

theorem Moves.rooted (h : a.Moves token stack events next) (hr : stack.Rooted start) :
    next.Rooted start := h.invariant (fun ht => ht.rooted) hr

theorem Turn.within (h : a.Turn token stack events next) (hw : a.Within stack) :
    a.Within next := by
  cases h with
  | choose => exact hw
  | close => exact hw.mono (by simp)
  | @descend f below p name hf hs hb =>
    intro limit hlimit
    have hroom := blocked?_eq_none_iff.mp hb limit hlimit
    rw [List.length_cons]
    omega

theorem Moves.within (h : a.Moves token stack events next) (hw : a.Within stack) :
    a.Within next := h.invariant (fun ht => ht.within) hw

/-! ## What the last move leaves behind -/

/-- The ways in which a token is refused, with the stack as it is then. -/
inductive Refusal (a : Automaton) (token : Token) : ParseError → Stack → Prop
  /-- The frame on top is undecided, and no alternative is selected. -/
  | unselected {f : Frame} {below : Stack} (hf : f.alternative = none) :
      Refusal a token (.unexpectedToken (some f.nonterminal) token.symbol.name token.lexeme)
        (f :: below)
  /-- Nothing is left to derive. -/
  | complete : Refusal a token (.unexpectedToken none token.symbol.name token.lexeme) []
  /-- The frame on top demands another token. -/
  | mismatch {f : Frame} {below : Stack} {p : Production} {s : Symbol}
      (hf : f.production? a.grammar = .ok (some p)) (hs : p.rhs[f.position]? = some s)
      (hn : s.isNonterminal = false) (ht : s ≠ token.symbol) :
      Refusal a token (.tokenMismatch s.name token.symbol.name token.lexeme) (f :: below)
  /-- The frame on top demands another frame, and there is no room for it. -/
  | full {f : Frame} {below : Stack} {name : String} {limit : Int} (hf : f.Waits a.grammar name)
      (hb : a.blocked? (f :: below) = some limit) :
      Refusal a token (.nestingTooDeep limit) (f :: below)

/-- What is left of a stack that grew from a nonterminal, once the work on a token is over. -/
structure Leaves (a : Automaton) (token : Token) (start : String) (outcome : Outcome) : Prop where
  rooted : outcome.stack.Rooted start
  within : ∀ s, outcome.Shows s → a.Within s
  refusal : ∀ e, outcome.verdict = .refused e → a.Refusal token e outcome.stack
  consumed : ∀ c, outcome.verdict = .consumed c →
    c = ⟨token.symbol, token.lexeme, outcome.stack.length⟩ ∧
      ∀ f ∈ outcome.stack.head?, f.Midway a.grammar
  found : ∀ fault, outcome.verdict ≠ .faulty fault

/-- A token that is refused leaves the stack as it is. -/
theorem leaves_of_refusal {e : ParseError} (h : a.Refusal token e stack) (hr : stack.Rooted start)
    (hw : a.Within stack) : a.Leaves token start ⟨stack, [], .refused e⟩ where
  rooted := hr
  within := by
    rintro s (rfl | ⟨e, he, -⟩)
    · exact hw
    · exact absurd he List.not_mem_nil
  refusal := by
    intro e he
    cases he
    exact h
  consumed := by simp
  found := by simp

theorem Halt.leaves (h : a.Halt token stack outcome) (hv : a.table.CellsValid a.grammar)
    (hs : stack.WellFormed a.grammar) (hr : stack.Rooted start) (hw : a.Within stack) :
    a.Leaves token start outcome := by
  have hshown : ∀ s, outcome.Shows s → a.Within s := fun s hshow =>
    hw.mono ((h.settled hv hs).2 s hshow).2
  have hsettled := (h.settled hv hs).1
  cases h with
  | finish =>
    unfold Automaton.finish at hshown ⊢
    split at hshown
    · rename_i hend
      rw [if_pos hend]
      refine ⟨hr, hshown, by simp, fun c hc => ?_, by simp⟩
      cases hc
      exact ⟨rfl, by simp⟩
    · rename_i hend
      rw [if_neg hend]
      exact leaves_of_refusal .complete hr hw
  | unselected hf => exact leaves_of_refusal (.unselected hf) hr hw
  | mismatch hf hsym hn ht => exact leaves_of_refusal (.mismatch hf hsym hn ht) hr hw
  | blocked hf hsym hb => exact leaves_of_refusal (.full ⟨_, hf, hsym⟩ hb) hr hw
  | shift hf hsym hn =>
    obtain ⟨hmoves, hmidway⟩ := moves_advance token hf hsym hs
    have hverdict := (collapsed_advance token hf hsym hs).verdict
    refine ⟨hmoves.rooted (hr.replace rfl), hshown, fun e he => ?_, fun c hc => ?_, fun e he => ?_⟩
    · rw [Outcome.after, hverdict] at he
      cases he
    · rw [Outcome.after, hverdict] at hc
      cases hc
      exact ⟨rfl, hmidway⟩
    · rw [Outcome.after, hverdict] at he
      cases he
  | misled | lost => rcases hsettled with ⟨c, hc⟩ | ⟨e, hc⟩ <;> cases hc

theorem Moves.leaves (h : a.Moves token stack events next) (hw : a.Within stack)
    (hl : a.Leaves token start outcome) : a.Leaves token start (outcome.after events) where
  rooted := hl.rooted
  within := by
    intro s hshow
    rcases Outcome.shows_after.mp hshow with ⟨e, he, rfl⟩ | hshow
    · obtain ⟨earlier, hm⟩ := h.exists_of_mem he
      exact hm.within hw
    · exact hl.within s hshow
  refusal := hl.refusal
  consumed := hl.consumed
  found := hl.found

end Automaton

/-! ## Parsers -/

namespace Parser

/-- The parser is intact, its stack has grown from its start without exceeding the depth limit, and
what has halted it, if anything has, is a refusal that its stack explains. -/
structure Orderly (p : Parser) : Prop extends p.Intact where
  rooted : p.stack.Rooted p.start
  within : p.automaton.Within p.stack
  refusal : ∀ e, p.halted = some e →
    ∃ lexeme, p.automaton.Refusal (p.tokenOf lexeme) e p.stack

variable {p : Parser}

theorem eq_refused_of_refusal? {v : Verdict} {e : ParseError} (h : refusal? v = some e) :
    v = .refused e := by
  cases v with
  | refused e' => rw [Option.some.inj h]
  | consumed | faulty | endless => cases h

/-- A parser before the first token is orderly, if there is room for one frame. -/
theorem orderly_fresh {automaton : Automaton} (hv : automaton.table.CellsValid automaton.grammar)
    (hlimit : ∀ limit, automaton.depthLimit = some limit → 1 ≤ limit) (name : String)
    (listening : Bool) : (fresh automaton name listening).Orderly :=
  { valid := hv
    wellFormed := Stack.wellFormed_start name
    rooted := Stack.rooted_start name
    within := hlimit
    refusal := fun e he => by cases he }

namespace Orderly

/-- What the work on a token leaves, whether or not it comes to its end. -/
theorem leaves (h : p.Orderly) (lexeme : Option String) :
    p.automaton.Leaves (p.tokenOf lexeme) p.start
      (p.automaton.run (p.tokenOf lexeme) p.stack) := by
  obtain ⟨events, last, outcome, hm, hrun, hlast⟩ := p.run_spec lexeme
  rw [hrun]
  refine hm.leaves h.within ?_
  rcases hlast with hhalt | rfl
  · exact hhalt.leaves h.valid (hm.wellFormed h.wellFormed) (hm.rooted h.rooted)
      (hm.within h.within)
  · refine ⟨hm.rooted h.rooted, ?_, by simp, by simp, by simp⟩
    rintro s (rfl | ⟨e, he, -⟩)
    · exact hm.within h.within
    · exact absurd he List.not_mem_nil

theorem feed (h : p.Orderly) (lexeme : Option String) : (p.feed lexeme).parser.Orderly := by
  have hintact := h.toIntact.feed lexeme
  cases hh : p.halted with
  | some e =>
    rw [feed_of_halted hh]
    exact h
  | none =>
    rw [feed_of_running hh] at hintact ⊢
    have hleaves := h.leaves lexeme
    refine { hintact with
      rooted := hleaves.rooted
      within := hleaves.within _ (.inl rfl)
      refusal := fun e he => ⟨lexeme, hleaves.refusal e ?_⟩ }
    exact eq_refused_of_refusal? he

theorem perform (h : p.Orderly) (hlimit : ∀ limit, p.automaton.depthLimit = some limit → 1 ≤ limit)
    (op : Operation) : (p.perform op).parser.Orderly := by
  cases op with
  | reset => exact orderly_fresh h.valid hlimit p.start p.listening
  | classify => exact h
  | feed lexeme => exact h.feed lexeme

/-- **An orderly parser stays orderly.** -/
theorem after (h : p.Orderly) (hlimit : ∀ limit, p.automaton.depthLimit = some limit → 1 ≤ limit)
    (ops : List Operation) : (p.after ops).Orderly := by
  induction ops generalizing p with
  | nil => exact h
  | cons op ops ih =>
    have hautomaton : (p.perform op).parser.automaton = p.automaton := automaton_after [op]
    exact ih (h.perform hlimit op) (hautomaton ▸ hlimit)

theorem shape (h : p.Orderly) : p.stack.Shape p.automaton p.start where
  bottom := h.rooted
  waits := fun _ _ _ => h.wellFormed.waits
  undecided := fun _ _ => h.wellFormed.undecided
  height := h.within

/-- No stack on the way of a feed exceeds the depth limit. -/
theorem within_of_holds (h : p.Orderly) {lexeme : Option String} {stack : Stack}
    (hs : p.Holds lexeme stack) : p.automaton.Within stack := by
  rcases hs with rfl | ⟨-, ⟨events, hm⟩ | hshow⟩
  · exact h.within
  · exact hm.within h.within
  · exact (h.leaves lexeme).within stack hshow

end Orderly

end Parser

/-! ## What a refusal says -/

/-- What a refusal says about the stack that it leaves, for the lexeme that was refused. -/
structure ParseError.Diagnoses (a : Automaton) (lexeme : Option String) (stack : Stack)
    (e : ParseError) : Prop where
  undecided : ∀ name,
    e = .unexpectedToken (some name) (a.grammar.classify lexeme).name lexeme ↔
      ∃ f below, stack = f :: below ∧ f.alternative = none ∧ f.nonterminal = name
  complete : e = .unexpectedToken none (a.grammar.classify lexeme).name lexeme ↔ stack = []
  mismatch : ∀ name, e = .tokenMismatch name (a.grammar.classify lexeme).name lexeme ↔
    ∃ f below p s, stack = f :: below ∧ f.production? a.grammar = .ok (some p) ∧
      p.rhs[f.position]? = some s ∧ s.isNonterminal = false ∧ s.name = name ∧
      s ≠ a.grammar.classify lexeme
  tooDeep : (∃ limit, e = .nestingTooDeep limit) ↔
    ∃ f below name, stack = f :: below ∧ f.Waits a.grammar name
  /-- The limit that is named is the one of the automaton, and the stack is as high as that. -/
  limit : ∀ limit, e = .nestingTooDeep limit →
    a.depthLimit = some limit ∧ (stack.length : Int) = limit

namespace Automaton

variable {a : Automaton} {stack : Stack} {lexeme : Option String} {e : ParseError}

/-- **A refusal tells in which way nothing could go on.** -/
theorem Refusal.diagnoses (h : a.Refusal ⟨a.grammar.classify lexeme, lexeme⟩ e stack)
    (hw : a.Within stack) : e.Diagnoses a lexeme stack := by
  cases h with
  | @unselected f below hf =>
    have hproduction : f.production? a.grammar = .ok none := Frame.production?_eq_none_iff.mpr hf
    refine ⟨fun name => ?_, by simp, fun name => ?_, ?_, by simp⟩
    · simp [hf]
    · simp [hproduction]
    · simp [Frame.Waits, hproduction]
  | complete => exact ⟨by simp, by simp, by simp, by simp, by simp⟩
  | @mismatch f below p s hf hs hn ht =>
    have hdecided := Frame.alternative_ne_none hf
    refine ⟨by simp [hdecided], by simp, fun name => ⟨fun he => ?_, ?_⟩, ⟨by simp, ?_⟩, by simp⟩
    · cases he
      exact ⟨f, below, p, s, rfl, hf, hs, hn, rfl, ht⟩
    · rintro ⟨f', below', p', s', hstack, hf', hs', -, rfl, -⟩
      cases hstack
      cases hf.symm.trans hf'
      cases hs.symm.trans hs'
      rfl
    · rintro ⟨f', below', name, hstack, p', hf', hs'⟩
      cases hstack
      cases hf.symm.trans hf'
      cases hs.symm.trans hs'
      cases hn
  | @full f below name limit hf hb =>
    obtain ⟨hlimit, hle⟩ := blocked?_eq_some_iff.mp hb
    obtain ⟨p, hp, hs⟩ := hf
    have hdecided := Frame.alternative_ne_none hp
    refine ⟨by simp [hdecided], by simp, fun name' => ⟨by simp, ?_⟩,
      ⟨fun _ => ⟨f, below, name, rfl, p, hp, hs⟩, fun _ => ⟨limit, rfl⟩⟩, fun limit' he => ?_⟩
    · rintro ⟨f', below', p', s', hstack, hf', hs', hn, -⟩
      cases hstack
      cases hp.symm.trans hf'
      cases hs.symm.trans hs'
      cases hn
    · cases he
      exact ⟨hlimit, Int.le_antisymm (hw limit hlimit) hle⟩

end Automaton

/-! ## Parsers for any table -/

variable {automaton : Automaton} {start : Option String} {listening : Bool} {p : Parser}

/-- **The stack has its shape between any two feeds, and a refusal tells what is on it.** By a
table whose cells hold indexes of alternatives, and under a depth limit that leaves room for one
frame, if there is one, whatever a parser has been asked: its stack has the shape (`Stack.Shape`),
and no stack on the way of the next feed exceeds the limit. No feed misses an alternative. One that
consumes its token tells the number of frames that are left, and the one on top of them, if there is
one, has something done and something left to do. One that refuses it, now or at an earlier feed,
stores a refusal that tells what is on the stack (`ParseError.Diagnoses`). -/
theorem stack_shape_and_refusals (hv : automaton.table.CellsValid automaton.grammar)
    (hlimit : ∀ limit, automaton.depthLimit = some limit → 1 ≤ limit)
    (hp : Parser.create automaton start listening = .ok p) (ops : List Operation) :
    (p.after ops).stack.Shape automaton (Parser.startOf automaton.grammar start) ∧
    ∀ lexeme,
      let fed := (p.after ops).feed lexeme
      (∀ stack, (p.after ops).Holds lexeme stack → automaton.Within stack) ∧
      (∀ fault, fed.verdict ≠ .faulty fault) ∧
      (∀ c, fed.verdict = .consumed c →
        c = ⟨automaton.grammar.classify lexeme, lexeme, fed.parser.stack.length⟩ ∧
        (fed.parser.stack = [] ∨
          ∃ f below, fed.parser.stack = f :: below ∧ f.Midway automaton.grammar)) ∧
      ∀ e, fed.verdict = .refused e → fed.parser.halted = some e ∧
        ∃ refused, ((p.after ops).halted = none → refused = lexeme) ∧
          e.Diagnoses automaton refused fed.parser.stack := by
  obtain ⟨-, rfl⟩ := Parser.create_eq_ok_iff.mp hp
  have hq := (Parser.orderly_fresh hv hlimit (Parser.startOf automaton.grammar start)
    listening).after hlimit ops
  have hautomaton := Parser.automaton_after ops
    (p := .fresh automaton (Parser.startOf automaton.grammar start) listening)
  have hstart := Parser.start_after ops
    (p := .fresh automaton (Parser.startOf automaton.grammar start) listening)
  generalize Parser.after _ ops = q at hq hautomaton hstart ⊢
  obtain rfl : q.automaton = automaton := hautomaton
  obtain hstart : q.start = Parser.startOf q.automaton.grammar start := hstart
  refine ⟨hstart ▸ hq.shape, fun lexeme => ⟨fun stack => hq.within_of_holds, ?_⟩⟩
  cases hh : q.halted with
  | some e =>
    rw [Parser.feed_of_halted hh]
    refine ⟨by simp, by simp, fun e' he => ?_⟩
    cases he
    obtain ⟨refused, hrefusal⟩ := hq.refusal e hh
    exact ⟨hh, refused, by simp, hrefusal.diagnoses hq.within⟩
  | none =>
    have hleaves := hq.leaves lexeme
    rw [Parser.feed_of_running hh]
    refine ⟨hleaves.found, fun c hc => ?_, fun e he => ?_⟩
    · obtain ⟨hcount, hmidway⟩ := hleaves.consumed c hc
      refine ⟨hcount, ?_⟩
      cases hstack : (q.automaton.run (q.tokenOf lexeme) q.stack).stack with
      | nil => exact .inl rfl
      | cons f below => exact .inr ⟨f, below, rfl, hmidway f (by rw [hstack]; rfl)⟩
    · exact ⟨congrArg Parser.refusal? he, lexeme, fun _ => rfl,
        (hleaves.refusal e he).diagnoses (hleaves.within _ (.inl rfl))⟩

/-- With room for two frames an `a` leaves both of them waiting, and a `b` is refused for that. -/
theorem twoRunsFromLast_full :
    ∃ p, Parser.create ⟨.twoRuns, .twoRunsFromLast, some 2⟩ none false = .ok p ∧
      (p.after [.feed (some "a")]).stack.Shape ⟨.twoRuns, .twoRunsFromLast, some 2⟩ "S" ∧
      ((p.after [.feed (some "a")]).feed (some "b")).verdict = .refused (.nestingTooDeep 2) ∧
      (ParseError.nestingTooDeep 2).Diagnoses ⟨.twoRuns, .twoRunsFromLast, some 2⟩ (some "b")
        ((p.after [.feed (some "a")]).feed (some "b")).parser.stack := by
  have hv : ParsingTable.twoRunsFromLast.CellsValid .twoRuns :=
    ParsingTable.cellsValid_of_entries (by decide +kernel)
  have hlimit : ∀ limit : Int, some 2 = some limit → 1 ≤ limit := by
    intro limit h
    cases h
    decide
  let p := Parser.fresh ⟨.twoRuns, .twoRunsFromLast, some 2⟩ "S" false
  have hp : Parser.create ⟨.twoRuns, .twoRunsFromLast, some 2⟩ none false = .ok p :=
    Parser.create_eq_ok_iff.mpr ⟨by decide +kernel, rfl⟩
  have hrefused : ((p.after [.feed (some "a")]).feed (some "b")).verdict =
      .refused (.nestingTooDeep 2) := by decide +kernel
  have hrunning : (p.after [.feed (some "a")]).halted = none := by decide +kernel
  obtain ⟨hshape, hfeed⟩ := stack_shape_and_refusals hv hlimit hp [.feed (some "a")]
  obtain ⟨-, refused, hsame, hdiagnoses⟩ := (hfeed (some "b")).2.2.2 _ hrefused
  rw [hsame hrunning] at hdiagnoses
  exact ⟨p, hp, hshape, hrefused, hdiagnoses⟩

end Predictive
