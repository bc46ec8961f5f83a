import Predictive.Parser

/-!
# Parsing a whole token list

A parser is fed the lexemes of a list and then the end of the stream, until a token is refused. On
request every action is recorded with the stack and the input that remains, the token at work
included.
-/

namespace Predictive

/-- A recorded action. -/
structure TraceStep where
  stack : List String
  remaining : List String
  action : String
  deriving DecidableEq

/-- Why an input is not accepted. -/
inductive Rejection where
  /-- A token was refused. -/
  | refused (e : ParseError)
  /-- No token was refused, but something was left to derive. -/
  | unfinished
  deriving DecidableEq

/-- The rejection in words. -/
def Rejection.message : Rejection → String
  | refused e => e.message
  | unfinished => "Input ended before the parse completed"

/-- How the parse of a token list ended. -/
structure ParseResult where
  accepted : Bool
  rejection : Option Rejection
  steps : List TraceStep
  /-- The number of tokens consumed, the end of the stream among them. -/
  consumed : Nat
  deriving DecidableEq

namespace Trace

/-- The input that remains, in written form. -/
def remaining (input : List (Option String)) : List String := input.map (·.getD Symbol.endMark)

/-- One recorded action. -/
def step (g : Grammar) (input : List (Option String)) (stack : Stack) (action : String) :
    Except Failure TraceStep :=
  match stack.render g with
  | .ok rendered => .ok ⟨rendered, remaining input, action⟩
  | .error e => .error (.lookup e)

/-- The records of some events. -/
def steps (g : Grammar) (input : List (Option String)) : List Event →
    Except Failure (List TraceStep)
  | [] => .ok []
  | e :: es => do
    let first ← step g input e.stack e.action.text
    let rest ← steps g input es
    return first :: rest

/-- Feeds some tokens after others; `done` counts those and `sofar` records their actions. -/
def feedAll (p : Parser) (done : Nat) (sofar : List TraceStep) :
    (input : List (Option String)) → Except Failure ParseResult
  | [] => .ok {
      accepted := p.accepted
      rejection := if p.accepted then none else some .unfinished
      steps := sofar
      consumed := done }
  | lexeme :: rest => do
    let fed := p.feed lexeme
    let new ← steps p.automaton.grammar (lexeme :: rest) fed.events
    match fed.verdict with
    | .consumed _ => feedAll fed.parser (done + 1) (sofar ++ new) rest
    | .refused e => .ok {
        accepted := false
        rejection := some (.refused e)
        steps := sofar ++ new
        consumed := done }
    | .faulty e => .error (.lookup e)
    | .endless => .error .endless

/-- The input of a parse: the lexemes that are not empty, and the end of the stream. -/
def inputOf (lexemes : List String) : List (Option String) :=
  (lexemes.filter (!·.isEmpty)).map some ++ [none]

/-- Parses a list of lexemes, recording every action on request. -/
def parse (automaton : Automaton) (lexemes : List String) (start : Option String)
    (recording : Bool) : Except Failure ParseResult := do
  let p ← Failure.lift .grammar (Parser.create automaton start recording)
  let input := inputOf lexemes
  let first ← if recording then (step automaton.grammar input p.stack "init").map ([·])
    else .ok []
  feedAll p 0 first input

end Trace

/-- Parses a list of lexemes by an analysed grammar, under the depth limit of some settings. -/
def Analysis.parse (a : Analysis) (settings : Settings) (lexemes : List String)
    (recording : Bool) : Except Failure ParseResult :=
  Trace.parse ⟨a.grammar, a.table, settings.maxStackDepth⟩ lexemes none recording

end Predictive
