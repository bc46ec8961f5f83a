import Predictive.Automaton.Stack
import Predictive.Table

/-!
# The moves of a predictive parse

One move on a token looks at the frame on top. An undecided frame takes the alternative that the
table selects. A decided one is closed if all its symbols are done; else its next symbol is
descended into if it is a nonterminal, and has to be the token otherwise. Once the token is
consumed, the frames that have become complete are closed at once.
-/

namespace Predictive

/-- A token with the lexeme it was made from; the end of the stream has none. -/
structure Token where
  symbol : Symbol
  lexeme : Option String
  deriving DecidableEq

/-- A consumed token, and the number of frames after it. -/
structure Consumed where
  symbol : Symbol
  lexeme : Option String
  depth : Nat
  deriving DecidableEq

/-- How the work on a token ends. -/
inductive Verdict where
  /-- The token is consumed. -/
  | consumed (c : Consumed)
  /-- The token is refused. -/
  | refused (e : ParseError)
  /-- The table names an alternative that the grammar does not have. -/
  | faulty (f : LookupFault)
  /-- The automaton would descend for ever without looking at another token. -/
  | endless
  deriving DecidableEq

/-- The stack, the events and the verdict after the work on a token. -/
structure Outcome where
  stack : Stack
  events : List Event
  verdict : Verdict
  deriving DecidableEq

/-- Puts earlier events in front. -/
def Outcome.after (o : Outcome) (events : List Event) : Outcome :=
  { o with events := events ++ o.events }

/-- What a move leads to. -/
inductive Move where
  /-- The work on the token goes on. -/
  | next (stack : Stack) (events : List Event)
  /-- The work on the token is over. -/
  | done (outcome : Outcome)
  deriving DecidableEq

/-- A grammar with a parsing table and a limit on the number of frames. -/
structure Automaton where
  grammar : Grammar
  table : ParsingTable
  depthLimit : Option Int

namespace Automaton

variable (a : Automaton)

/-- The frame has nothing left to do. -/
def isComplete (f : Frame) : Except LookupFault Bool :=
  match f.production? a.grammar with
  | .error e => .error e
  | .ok none => .ok false
  | .ok (some p) => .ok (decide (p.rhs.length ≤ f.position))

/-- Closes complete frames from the top down after a token was consumed. -/
def collapse (token : Token) (top : Frame) : (below : List Frame) → Outcome
  | [] =>
    match a.isComplete top with
    | .error e => ⟨[top], [], .faulty e⟩
    | .ok false => ⟨[top], [], .consumed ⟨token.symbol, token.lexeme, 1⟩⟩
    | .ok true =>
      ⟨[], [⟨.close top.nonterminal, []⟩], .consumed ⟨token.symbol, token.lexeme, 0⟩⟩
  | f :: below =>
    match a.isComplete top with
    | .error e => ⟨top :: f :: below, [], .faulty e⟩
    | .ok false =>
      ⟨top :: f :: below, [], .consumed ⟨token.symbol, token.lexeme, below.length + 2⟩⟩
    | .ok true =>
      (collapse token f.advance below).after [⟨.close top.nonterminal, f.advance :: below⟩]

/-- The work on a token when nothing is left to derive: only the end of the stream fits. -/
def finish (token : Token) : Outcome :=
  if token.symbol = .endOfInput then
    ⟨[], [⟨.accept, []⟩], .consumed ⟨token.symbol, token.lexeme, 0⟩⟩
  else ⟨[], [], .refused (.unexpectedToken none token.symbol.name token.lexeme)⟩

/-- The limit that forbids another frame on a stack, if one does. -/
def blocked? (stack : Stack) : Option Int :=
  match a.depthLimit with
  | some limit => if limit ≤ stack.length then some limit else none
  | none => none

/-- Chooses the alternative of an undecided frame by the token. -/
def choose (token : Token) (f : Frame) (below : Stack) : Move :=
  match a.table.lookup f.nonterminal token.symbol with
  | none =>
    .done ⟨f :: below, [],
      .refused (.unexpectedToken (some f.nonterminal) token.symbol.name token.lexeme)⟩
  | some index =>
    let stack := Frame.decided f.nonterminal index :: below
    match a.grammar.production? f.nonterminal index with
    | .error e => .done ⟨stack, [], .faulty e⟩
    | .ok p => .next stack [⟨.expand p, stack⟩]

/-- Goes on with the production of a decided frame. -/
def proceed (token : Token) (p : Production) (f : Frame) (below : Stack) : Move :=
  match p.rhs[f.position]? with
  | none => .next below.resume [⟨.close f.nonterminal, below.resume⟩]
  | some s =>
    if s.isNonterminal then
      match a.blocked? (f :: below) with
      | some limit => .done ⟨f :: below, [], .refused (.nestingTooDeep limit)⟩
      | none => .next (.undecided s.name :: f :: below) []
    else if s = token.symbol then
      .done ((a.collapse token f.advance below).after
        [⟨.shift token.lexeme, f.advance :: below⟩])
    else
      .done ⟨f :: below, [],
        .refused (.tokenMismatch s.name token.symbol.name token.lexeme)⟩

/-- One move on a token. -/
def step (token : Token) : Stack → Move
  | [] => .done (finish token)
  | f :: below =>
    match f.production? a.grammar with
    | .error e => .done ⟨f :: below, [], .faulty e⟩
    | .ok none => a.choose token f below
    | .ok (some p) => a.proceed token p f below

end Automaton

end Predictive
