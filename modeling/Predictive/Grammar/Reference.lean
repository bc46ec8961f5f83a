import Predictive.Grammar

/-!
# Grammars defined by references

A definition gives each nonterminal its alternatives as lists of references. A reference is read
against the token list: the two marks first, then the reserved words, then a nonterminal if it
carries the sigil in front, and otherwise a terminal. So a keyword stays a terminal even when it
begins with the sigil.
-/

namespace Predictive

/-- The symbol that a reference means. A nonterminal is written as its name behind the sigil; an
empty sigil, or nothing behind the sigil, makes no nonterminal. -/
def Symbol.ofReference (words : SortedSet String) (sigil : String) (reference : String) : Symbol :=
  if reference = identifierMark then identifier
  else if reference = endMark then endOfInput
  else if reference ∈ words then terminal reference
  else if sigil.isEmpty then terminal reference
  else match sigil.toList.isPrefixOf? reference.toList with
    | some (c :: cs) => nonterminal (String.ofList (c :: cs))
    | _ => terminal reference

/-- The sigil of a nonterminal where none is chosen. -/
def Grammar.defaultSigil : String := "e"

/-- Reads a definition with its token list. -/
def Grammar.ofDefinition (start : String) (definition : OrderedMap String (List (List String)))
    (tokens : List String) (sigil : String) : Grammar :=
  let words := SortedSet.ofList tokens
  build start (definition.mapValues fun _ alts => alts.map (·.map (.ofReference words sigil))) words

end Predictive
