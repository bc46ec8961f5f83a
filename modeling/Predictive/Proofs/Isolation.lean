import Mathlib.Data.List.Induction
import Predictive.Proofs.Feed

/-!
# Parsers do not affect each other, and a reset forgets

The parsers of a session share a grammar and a table, and each has a stack of its own. What one of
them replies to depends on what it has been asked itself, and of that only on what came after its
last reset: it replies as a new parser would that is asked the same. This holds for any table, so
also after a feed that found no alternative at the index of a cell and left a half-decided frame
behind.

* `Parser.after_sinceReset`: a new parser forgets what comes before a reset.
* `Session.parser?_after`: after any steps of a session, each parser is as its own share of them
  leaves it.
* `Parser.after_of_halted`: a refusal stays until the next reset.
* `parsers_isolated`: the replies in a session.
-/

namespace Predictive

/-! ## One parser -/

namespace Parser

variable {p : Parser}

theorem after_append (ops more : List Operation) :
    p.after (ops ++ more) = (p.after ops).after more := List.foldl_append

theorem after_concat (ops : List Operation) (op : Operation) :
    p.after (ops ++ [op]) = ((p.after ops).perform op).parser := after_append ops [op]

/-- A new parser is as after a reset. -/
theorem reset_of_create {automaton : Automaton} {start : Option String} {listening : Bool}
    (hp : create automaton start listening = .ok p) : p.reset = p := by
  obtain ⟨-, rfl⟩ := create_eq_ok_iff.mp hp
  rfl

end Parser

/-- What comes after the last reset. -/
def Operation.sinceReset (ops : List Operation) : List Operation :=
  (ops.reverse.takeWhile (· ≠ reset)).reverse

theorem Operation.sinceReset_concat (ops : List Operation) (op : Operation) :
    sinceReset (ops ++ [op]) = if op = reset then [] else sinceReset ops ++ [op] := by
  rw [sinceReset, List.reverse_append, List.reverse_singleton, List.singleton_append,
    List.takeWhile_cons]
  by_cases hop : op = reset
  · simp [hop]
  · simp [hop, sinceReset]

namespace Parser

variable {p : Parser}

/-- **A new parser forgets what comes before a reset.** -/
theorem after_sinceReset (h : p.reset = p) (ops : List Operation) :
    p.after (Operation.sinceReset ops) = p.after ops := by
  induction ops using List.reverseRecOn with
  | nil => rfl
  | append_singleton ops op ih =>
    rw [Operation.sinceReset_concat, after_concat]
    by_cases hop : op = .reset
    · rw [if_pos hop, hop]
      exact h.symm.trans (reset_after ops).symm
    · rw [if_neg hop, after_concat, ih]

/-- **A refusal stays until the next reset.** -/
theorem after_of_halted {e : ParseError} (h : p.halted = some e) {ops : List Operation}
    (hops : .reset ∉ ops) : p.after ops = p := by
  induction ops with
  | nil => rfl
  | cons op ops ih =>
    have hop : op ≠ .reset := fun he => hops (he ▸ List.mem_cons_self)
    have hp : (p.perform op).parser = p := by
      cases op with
      | reset => exact absurd rfl hop
      | classify lexeme => rfl
      | feed lexeme => exact congrArg Fed.parser (feed_of_halted h)
    show (p.perform op).parser.after ops = p
    rw [hp, ih fun hm => hops (List.mem_cons_of_mem op hm)]

end Parser

/-! ## Many parsers -/

/-- What can happen in a session. -/
inductive Session.Step where
  /-- A parser joins. -/
  | join (p : Parser)
  /-- Something is asked of the parser of a number. -/
  | ask (number : Nat) (op : Operation)

namespace Session

/-- What a step asks of the parser of a number. -/
def Step.askedOf (number : Nat) : Step → List Operation
  | .join _ => []
  | .ask n op => if n = number then [op] else []

/-- What some steps ask of the parser of a number, in order. -/
def askedOf (number : Nat) (steps : List Step) : List Operation :=
  steps.flatMap (Step.askedOf number)

/-- The session after a step. A number that no parser has is not answered. -/
def take (s : Session) : Step → Session
  | .join p => s.add p
  | .ask number op =>
    match s.perform number op with
    | some (s', _) => s'
    | none => s

/-- The session after some steps. -/
def after (s : Session) (steps : List Step) : Session := steps.foldl take s

variable {s : Session} {number : Nat} {p : Parser}

theorem parser?_add (s : Session) (p : Parser) :
    (s.add p).parser? s.parsers.length = some p := by
  simp [add, parser?]

theorem perform_eq (h : s.parser? number = some p) (op : Operation) :
    s.perform number op = some (⟨s.parsers.set number (p.perform op).parser⟩, p.perform op) := by
  rw [perform, h]
  rfl

/-- An operation changes the parser that it is addressed to and no other. -/
theorem parser?_of_perform {s' : Session} {reply : Reply} {other : Nat} {op : Operation}
    (h : s.perform other op = some (s', reply)) :
    s'.parser? number = if other = number then some reply.parser else s.parser? number := by
  obtain ⟨q, hq, hreply⟩ := Option.map_eq_some_iff.mp h
  obtain ⟨rfl, rfl⟩ := Prod.mk.inj hreply
  have hlt : other < s.parsers.length := (List.getElem?_eq_some_iff.mp hq).1
  rw [parser?, List.getElem?_set]
  by_cases hother : other = number
  · rw [if_pos hother, if_pos hother, if_pos (hother ▸ hlt)]
  · rw [if_neg hother, if_neg hother, parser?]

/-- A step changes a parser as what it asks of it does. -/
theorem parser?_take (h : s.parser? number = some p) (step : Step) :
    (s.take step).parser? number = some (p.after (step.askedOf number)) := by
  cases step with
  | join q =>
    have hlt : number < s.parsers.length := (List.getElem?_eq_some_iff.mp h).1
    exact (List.getElem?_append_left hlt).trans h
  | ask other op =>
    rw [take, Step.askedOf]
    cases hs : s.perform other op with
    | some result =>
      obtain ⟨s', reply⟩ := result
      show s'.parser? number = _
      rw [parser?_of_perform hs]
      by_cases hother : other = number
      · subst hother
        rw [perform_eq h] at hs
        cases hs
        rw [if_pos rfl, if_pos rfl]
        rfl
      · rw [if_neg hother, if_neg hother, h]
        rfl
    | none =>
      have hother : other ≠ number := by
        rintro rfl
        rw [perform_eq h] at hs
        cases hs
      rw [if_neg hother]
      exact h

/-- **Each parser is as its own share of the steps leaves it.** -/
theorem parser?_after (h : s.parser? number = some p) (steps : List Step) :
    (s.after steps).parser? number = some (p.after (askedOf number steps)) := by
  induction steps generalizing s p with
  | nil => exact h
  | cons step steps ih =>
    have hshare : p.after (askedOf number (step :: steps)) =
        (p.after (step.askedOf number)).after (askedOf number steps) := by
      rw [askedOf, List.flatMap_cons, Parser.after_append]
      rfl
    rw [hshare]
    exact ih (parser?_take h step)

end Session

/-- **Parsers are isolated, and a reset is as good as a new parser.** Let a parser join a session
that goes on in whatever way: other parsers join, and anything is asked of any of them. What it is
asked next is answered as by the same new parser that has only been asked what this one was since
its last reset: with the same answer, the same events and the same parser after it, which is what
the session holds then; the other parsers stay as they are. And once it has refused a token, it
refuses whatever it is fed up to the next reset in the same way, without an event, and stays as it
is. -/
theorem parsers_isolated (automaton : Automaton) (start : Option String) (listening : Bool)
    {p : Parser} (hp : Parser.create automaton start listening = .ok p) (s : Session)
    (steps : List Session.Step) :
    let number := s.parsers.length
    let later := (s.add p).after steps
    let asked := Session.askedOf number steps
    (∀ op, ∃ s' reply, later.perform number op = some (s', reply) ∧
      reply = (p.after (Operation.sinceReset asked)).perform op ∧
      reply.parser = p.after (Operation.sinceReset (asked ++ [op])) ∧
      s'.parser? number = some reply.parser ∧
      ∀ other, other ≠ number → s'.parser? other = later.parser? other) ∧
    ∀ s' reply lexeme e, later.perform number (.feed lexeme) = some (s', reply) →
      reply.answer = .verdict (.refused e) →
      ∀ more, .reset ∉ Session.askedOf number more → ∀ lexeme', ∃ s'',
        (s'.after more).perform number (.feed lexeme') =
          some (s'', ⟨reply.parser, .verdict (.refused e), []⟩) := by
  intro number later asked
  have hlater : later.parser? number = some (p.after asked) :=
    Session.parser?_after (Session.parser?_add s p) steps
  have hsince (ops : List Operation) : p.after (Operation.sinceReset ops) = p.after ops :=
    Parser.after_sinceReset (Parser.reset_of_create hp) ops
  constructor
  · intro op
    have hperform := Session.perform_eq hlater op
    refine ⟨_, _, hperform, ?_, ?_, ?_, ?_⟩
    · rw [hsince]
    · rw [hsince, Parser.after_concat]
    · rw [Session.parser?_of_perform hperform, if_pos rfl]
    · intro other hother
      rw [Session.parser?_of_perform hperform, if_neg (Ne.symm hother)]
  · intro s' reply lexeme e hperform hrefused more hmore lexeme'
    have hnow : s'.parser? number = some reply.parser := by
      rw [Session.parser?_of_perform hperform, if_pos rfl]
    have hhalted : reply.parser.halted = some e := by
      rw [Session.perform_eq hlater] at hperform
      cases hperform
      exact Parser.halted_of_refused (Answer.verdict.inj hrefused)
    have hstays : (s'.after more).parser? number = some reply.parser := by
      rw [Session.parser?_after hnow, Parser.after_of_halted hhalted hmore]
    have hagain : reply.parser.perform (.feed lexeme') =
        ⟨reply.parser, .verdict (.refused e), []⟩ := by
      rw [Parser.perform, Parser.feed_of_halted hhalted]
    have hperform' := Session.perform_eq hstays (.feed lexeme')
    rw [hagain] at hperform'
    exact ⟨_, hperform'⟩

/-- A table with an index behind the last alternative. -/
def ParsingTable.beyondAlternatives : ParsingTable :=
  .ofCells [("S", [(.terminal "a", 1), (.terminal "b", 0)]), ("A", [(.terminal "b", 1)]),
    ("B", [(.terminal "b", 0)])]

/-- The bad index leaves a half-decided frame behind. After a reset the parser is as good as new,
whatever its neighbour does, until it refuses a token. -/
theorem halfDecided_forgotten :
    ∃ p, Parser.create ⟨.twoRuns, .beyondAlternatives, none⟩ none true = .ok p ∧
      (p.after [.feed (some "a")]).stack = [.decided "S" 1] ∧
      (∃ s' reply, ((Session.empty.add p).after [.join p, .ask 0 (.feed (some "a")),
          .ask 1 (.feed (some "b")), .ask 0 .reset]).perform 0 (.feed (some "b")) =
            some (s', reply) ∧
        reply = p.perform (.feed (some "b"))) ∧
      ∃ s' reply e s'', ((Session.empty.add p).after [.join p]).perform 0 (.feed (some "c")) =
          some (s', reply) ∧
        (s'.after [.ask 1 .reset, .ask 0 (.classify none)]).perform 0 (.feed (some "b")) =
          some (s'', ⟨reply.parser, .verdict (.refused e), []⟩) := by
  let p := Parser.fresh ⟨.twoRuns, .beyondAlternatives, none⟩ "S" true
  have hp : Parser.create ⟨.twoRuns, .beyondAlternatives, none⟩ none true = .ok p :=
    Parser.create_eq_ok_iff.mpr ⟨by decide +kernel, rfl⟩
  refine ⟨p, hp, by decide +kernel, ?_, ?_⟩
  · obtain ⟨s', reply, hperform, hreply, -⟩ := (parsers_isolated _ none true hp .empty [.join p,
      .ask 0 (.feed (some "a")), .ask 1 (.feed (some "b")), .ask 0 .reset]).1 (.feed (some "b"))
    exact ⟨s', reply, hperform, hreply⟩
  · have hrefused : (p.perform (.feed (some "c"))).answer =
        .verdict (.refused (.unexpectedToken (some "S") "NAME" (some "c"))) := by decide +kernel
    obtain ⟨s'', hagain⟩ := (parsers_isolated _ none true hp .empty [.join p]).2 _ _ (some "c") _
      rfl hrefused [.ask 1 .reset, .ask 0 (.classify none)] (by decide) (some "b")
    exact ⟨_, _, _, s'', rfl, hagain⟩

end Predictive
