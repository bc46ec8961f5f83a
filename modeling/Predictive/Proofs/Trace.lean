import Predictive.Proofs.Feed
import Predictive.Trace

/-!
# Parses of token lists

A parse feeds token after token until one is refused, and records what it does. By a sound parser it
always has a result, which tells how much of the list is consumed.

* `Trace.exists_parsed`: the result of a parse, by the feeds alone.
-/

namespace Predictive

namespace Parser

/-- Every token of the list is consumed, one after the other. -/
def Consumes (p : Parser) : List (Option String) → Prop
  | [] => True
  | lexeme :: rest =>
    (∃ c, (p.feed lexeme).verdict = .consumed c) ∧ (p.feed lexeme).parser.Consumes rest

/-- The parser after some tokens. -/
def fedAll (p : Parser) (input : List (Option String)) : Parser :=
  input.foldl (fun p lexeme => (p.feed lexeme).parser) p

theorem consumes_append {p : Parser} {input more : List (Option String)} :
    p.Consumes (input ++ more) ↔ p.Consumes input ∧ (p.fedAll input).Consumes more := by
  induction input generalizing p with
  | nil => exact ⟨fun h => ⟨trivial, h⟩, fun h => h.2⟩
  | cons lexeme input ih =>
    show _ ∧ (p.feed lexeme).parser.Consumes (input ++ more) ↔ (_ ∧ _) ∧ _
    rw [ih, and_assoc]
    rfl

end Parser

namespace Trace

/-- The result tells what the feeds of a list come to, after `done` tokens before it. -/
structure Parsed (p : Parser) (done : Nat) (input : List (Option String)) (result : ParseResult) :
    Prop where
  /-- A number of tokens is counted iff that many are consumed. -/
  consumed : ∀ k ≤ input.length, done + k ≤ result.consumed ↔ p.Consumes (input.take k)
  consumed_le : result.consumed ≤ done + input.length
  accepted : result.accepted = true ↔ p.Consumes input ∧ (p.fedAll input).accepted = true
  rejection : result.rejection = none ↔ result.accepted = true

theorem exists_step {g : Grammar} {stack : Stack} (h : stack.WellFormed g)
    (input : List (Option String)) (action : String) :
    ∃ record, step g input stack action = .ok record := by
  obtain ⟨texts, ht⟩ := h.exists_render
  unfold step
  rw [ht]
  exact ⟨_, rfl⟩

theorem exists_steps {g : Grammar} {events : List Event}
    (h : ∀ e ∈ events, e.stack.WellFormed g) (input : List (Option String)) :
    ∃ records, steps g input events = .ok records := by
  induction events with
  | nil => exact ⟨[], rfl⟩
  | cons e events ih =>
    obtain ⟨first, hf⟩ := exists_step (h e List.mem_cons_self) input e.action.text
    obtain ⟨records, hr⟩ := ih fun e' he => h e' (List.mem_cons_of_mem e he)
    refine ⟨first :: records, ?_⟩
    simp only [steps, hf, hr, bind, Except.bind, pure, Except.pure]

section Parsed

variable {p : Parser} {done : Nat} {lexeme : Option String} {rest : List (Option String)}
  {result : ParseResult}

/-- A parse ends with the list. -/
theorem parsed_nil (sofar : List TraceStep) :
    Parsed p done [] ⟨p.accepted, if p.accepted then none else some .unfinished, sofar, done⟩ := by
  refine ⟨fun k hk => ?_, Nat.le_refl _, ?_, ?_⟩
  · obtain rfl := Nat.le_zero.mp hk
    exact ⟨fun _ => trivial, fun _ => Nat.le_refl _⟩
  · exact ⟨fun ha => ⟨trivial, ha⟩, fun ha => ha.2⟩
  · show (if p.accepted = true then none else some _) = none ↔ p.accepted = true
    split <;> simp_all

/-- A parse goes on behind a consumed token. -/
theorem Parsed.cons (hc : ∃ c, (p.feed lexeme).verdict = .consumed c)
    (h : Parsed (p.feed lexeme).parser (done + 1) rest result) :
    Parsed p done (lexeme :: rest) result := by
  refine ⟨fun k hk => ?_, ?_, ?_, h.rejection⟩
  · cases k with
    | zero =>
      have hle : done + 1 + 0 ≤ result.consumed := (h.consumed 0 (Nat.zero_le _)).mpr trivial
      exact ⟨fun _ => trivial, fun _ => by omega⟩
    | succ k =>
      have hk' := h.consumed k (Nat.le_of_succ_le_succ hk)
      rw [show done + (k + 1) = done + 1 + k by omega, hk']
      exact ⟨fun hr => ⟨hc, hr⟩, fun hr => hr.2⟩
  · have hle := h.consumed_le
    rw [List.length_cons]
    omega
  · rw [h.accepted]
    exact ⟨fun hr => ⟨⟨hc, hr.1⟩, hr.2⟩, fun hr => ⟨hr.1.2, hr.2⟩⟩

/-- A parse ends with a refused token. -/
theorem parsed_refused {e : ParseError} (he : (p.feed lexeme).verdict = .refused e)
    (sofar : List TraceStep) :
    Parsed p done (lexeme :: rest) ⟨false, some (.refused e), sofar, done⟩ := by
  have refused {input : List (Option String)} : ¬ p.Consumes (lexeme :: input) := by
    rintro ⟨⟨c, hc⟩, -⟩
    rw [he] at hc
    cases hc
  refine ⟨fun k hk => ?_, Nat.le_add_right _ _, ?_, by simp⟩
  · cases k with
    | zero => exact ⟨fun _ => trivial, fun _ => Nat.le_refl _⟩
    | succ k =>
      refine ⟨fun hlt => ?_, fun hr => absurd hr refused⟩
      simp only at hlt
      omega
  · exact ⟨fun ha => (by cases ha), fun hr => absurd hr.1 refused⟩

end Parsed

section Fed

variable {p : Parser} (h : p.Sound) {lexeme : Option String}

include h

theorem exists_steps_feed (lexeme : Option String) (rest : List (Option String)) :
    ∃ new, steps p.automaton.grammar (lexeme :: rest) (p.feed lexeme).events = .ok new :=
  exists_steps (fun _ he => h.events_wellFormed he) (lexeme :: rest)

/-- A parse goes on behind a consumed token, with the feed recorded. -/
theorem exists_feedAll_of_consumed {c : Consumed} (hc : (p.feed lexeme).verdict = .consumed c)
    (rest : List (Option String)) :
    ∃ new, steps p.automaton.grammar (lexeme :: rest) (p.feed lexeme).events = .ok new ∧
      ∀ done sofar, feedAll p done sofar (lexeme :: rest) =
        feedAll (p.feed lexeme).parser (done + 1) (sofar ++ new) rest := by
  obtain ⟨new, hnew⟩ := exists_steps_feed h lexeme rest
  exact ⟨new, hnew, fun done sofar => by simp only [feedAll, hnew, hc, bind, Except.bind]⟩

/-- A parse ends at a refused token, with the feed recorded. -/
theorem exists_feedAll_of_refused {e : ParseError} (he : (p.feed lexeme).verdict = .refused e)
    (rest : List (Option String)) :
    ∃ new, steps p.automaton.grammar (lexeme :: rest) (p.feed lexeme).events = .ok new ∧
      ∀ done sofar, feedAll p done sofar (lexeme :: rest) =
        .ok ⟨false, some (.refused e), sofar ++ new, done⟩ := by
  obtain ⟨new, hnew⟩ := exists_steps_feed h lexeme rest
  exact ⟨new, hnew, fun done sofar => by simp only [feedAll, hnew, he, bind, Except.bind]⟩

theorem exists_feedAll (done : Nat) (sofar : List TraceStep) (input : List (Option String)) :
    ∃ result, feedAll p done sofar input = .ok result ∧ Parsed p done input result := by
  induction input generalizing p done sofar with
  | nil => exact ⟨_, rfl, parsed_nil sofar⟩
  | cons lexeme rest ih =>
    rcases h.settled lexeme with ⟨c, hc⟩ | ⟨e, he⟩
    · obtain ⟨new, -, hrun⟩ := exists_feedAll_of_consumed h hc rest
      obtain ⟨result, hresult, hparsed⟩ := ih (h.feed lexeme) (done + 1) (sofar ++ new)
      exact ⟨result, (hrun done sofar).trans hresult, hparsed.cons ⟨c, hc⟩⟩
    · obtain ⟨new, -, hrun⟩ := exists_feedAll_of_refused h he rest
      exact ⟨_, hrun done sofar, parsed_refused he _⟩

end Fed

/-- A parse from a declared start feeds the input to a new parser, behind the record of its stack. -/
theorem parse_of_declared {automaton : Automaton} {start : Option String}
    (hstart : Parser.startOf automaton.grammar start ∈ automaton.grammar.nonterminals)
    (lexemes : List String) (recording : Bool) :
    parse automaton lexemes start recording =
      feedAll (.fresh automaton (Parser.startOf automaton.grammar start) recording) 0
        (if recording then [⟨[Parser.startOf automaton.grammar start],
          remaining (inputOf lexemes), "init"⟩] else []) (inputOf lexemes) := by
  rw [parse, Parser.create_eq_ok_iff.mpr ⟨hstart, rfl⟩]
  cases recording <;> rfl

/-- A parse from an undeclared start is refused at once. -/
theorem parse_of_undeclared {automaton : Automaton} {start : Option String}
    (hstart : Parser.startOf automaton.grammar start ∉ automaton.grammar.nonterminals)
    (lexemes : List String) (recording : Bool) :
    parse automaton lexemes start recording =
      .error (.grammar (.undeclaredSymbol none (Parser.startOf automaton.grammar start))) := by
  rw [parse, Parser.create_eq, if_neg (by rwa [OrderedMap.contains_iff])]
  rfl

/-- **A parse by a sound parser has a result**, and the result tells what the feeds come to. -/
theorem exists_parsed {automaton : Automaton} {start : Option String} {recording : Bool}
    {p : Parser} (hp : Parser.create automaton start recording = .ok p) (h : p.Sound)
    (lexemes : List String) :
    ∃ result, parse automaton lexemes start recording = .ok result ∧
      Parsed p 0 (inputOf lexemes) result := by
  obtain ⟨hstart, rfl⟩ := Parser.create_eq_ok_iff.mp hp
  rw [parse_of_declared hstart]
  exact exists_feedAll h 0 _ _

end Trace

end Predictive
