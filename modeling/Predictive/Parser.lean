import Predictive.Analysis
import Predictive.Automaton.Run

/-!
# Parsers

A parser is an automaton with a stack of its own. It is fed one lexeme at a time; a refused token
halts it until it is reset, and whatever it has expanded or closed before the refusal stays on its
stack. Parsers that share a grammar and a table do not affect each other.

* `Parser.create`, `Parser.ofAnalysis`: a parser before the first token.
* `Parser.feed`: the work on one token.
-/

namespace Predictive

/-- An automaton at work. -/
structure Parser where
  automaton : Automaton
  /-- The nonterminal that the parse derives. -/
  start : String
  /-- Somebody listens to the events. -/
  listening : Bool
  stack : Stack
  /-- The refusal that has halted the parser. -/
  halted : Option ParseError

/-- What a parser says about a lexeme, and the parser after it. -/
structure Fed where
  parser : Parser
  verdict : Verdict
  events : List Event

namespace Parser

/-- The refusal that a verdict stores. -/
def refusal? : Verdict → Option ParseError
  | .refused e => some e
  | _ => none

/-- A parser before the first token. Without a start, or with an empty one, it derives the start
symbol of the grammar. -/
def create (automaton : Automaton) (start : Option String) (listening : Bool) :
    Except GrammarError Parser :=
  let name := match start with
    | none => automaton.grammar.start
    | some name => if name.isEmpty then automaton.grammar.start else name
  if automaton.grammar.rules.contains name then
    .ok { automaton, start := name, listening, stack := [.undecided name], halted := none }
  else .error (.undeclaredSymbol none name)

/-- A parser for an analysed grammar. A depth limit that is given, even as no limit, comes before
the one of the settings. -/
def ofAnalysis (analysis : Analysis) (settings : Settings) (depthLimit : Option (Option Int))
    (start : Option String) (listening : Bool) : Except GrammarError Parser :=
  create ⟨analysis.grammar, analysis.table, depthLimit.getD settings.maxStackDepth⟩ start listening

/-- The parser before the first token again. -/
def reset (p : Parser) : Parser := { p with stack := [.undecided p.start], halted := none }

/-- Everything is derived and no token was refused. -/
def accepted (p : Parser) : Bool := p.stack.isEmpty && p.halted.isNone

/-- The symbol of a lexeme. -/
def classify (p : Parser) (lexeme : Option String) : Symbol := p.automaton.grammar.classify lexeme

/-- The token of a lexeme. -/
def tokenOf (p : Parser) (lexeme : Option String) : Token := ⟨p.classify lexeme, lexeme⟩

/-- Feeds one lexeme, or the end of the stream. A halted parser repeats its refusal. -/
def feed (p : Parser) (lexeme : Option String) : Fed :=
  match p.halted with
  | some e => { parser := p, verdict := .refused e, events := [] }
  | none =>
    let outcome := p.automaton.run (p.tokenOf lexeme) p.stack
    { parser := { p with stack := outcome.stack, halted := refusal? outcome.verdict }
      verdict := outcome.verdict
      events := if p.listening then outcome.events else [] }

/-- The stack in written form, from the bottom up. -/
def render (p : Parser) : Except LookupFault (List String) := p.stack.render p.automaton.grammar

end Parser

end Predictive
