import Predictive.Parser

/-!
# Sessions of several parsers

Any number of parsers over one grammar and one table, each addressed by its number. An operation
changes the parser that it is addressed to and no other.
-/

namespace Predictive

/-- What can be asked of a parser. -/
inductive Operation where
  | reset
  | classify (lexeme : Option String)
  | feed (lexeme : Option String)
  deriving DecidableEq

/-- The answer of a parser. -/
inductive Answer where
  | isReset
  | symbol (s : Symbol)
  | verdict (v : Verdict)
  deriving DecidableEq

/-- The answer of a parser, the events on the way to it, and the parser after it. -/
structure Reply where
  parser : Parser
  answer : Answer
  events : List Event

/-- Performs an operation. -/
def Parser.perform (p : Parser) : Operation → Reply
  | .reset => ⟨p.reset, .isReset, []⟩
  | .classify lexeme => ⟨p, .symbol (p.classify lexeme), []⟩
  | .feed lexeme =>
    let fed := p.feed lexeme
    ⟨fed.parser, .verdict fed.verdict, fed.events⟩

/-- Some parsers, in the order of their creation. -/
structure Session where
  parsers : List Parser

namespace Session

/-- No parsers yet. -/
def empty : Session := ⟨[]⟩

/-- Adds a parser. -/
def add (s : Session) (p : Parser) : Session := ⟨s.parsers ++ [p]⟩

/-- The parser of a number. -/
def parser? (s : Session) (number : Nat) : Option Parser := s.parsers[number]?

/-- Performs an operation on the parser of a number. -/
def perform (s : Session) (number : Nat) (op : Operation) : Option (Session × Reply) :=
  (s.parser? number).map fun p =>
    let reply := p.perform op
    (⟨s.parsers.set number reply.parser⟩, reply)

end Session

end Predictive
