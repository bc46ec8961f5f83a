import Predictive.Grammar
import Predictive.Text.Blank

/-!
# Grammars written as lines

A line `X -> a b | c` gives the nonterminal left of its first arrow the alternatives right of it.
Lines with the same left-hand side are joined. Blank lines and comments, which begin with `#` or
`//`, say nothing; a spelling of the empty string inside an alternative stands for nothing. The
nonterminals are the left-hand sides; every other name is a mark or a terminal.
-/

namespace Predictive

/-- Why a line is no production. -/
inductive LineError where
  /-- There is no arrow in the line. -/
  | missingArrow (line : String)
  /-- There is nothing but blanks left of the arrow. -/
  | emptyLhs (line : String)
  deriving DecidableEq

/-- The error in words, with the line as it was given. -/
def LineError.message : LineError → String
  | missingArrow line => "Invalid production (missing '->'): " ++ line
  | emptyLhs line => "Invalid production (empty LHS): " ++ line

/-- What a line says: a nonterminal and alternatives of it, as names. -/
structure RuleLine where
  lhs : String
  alternatives : List (List String)
  deriving DecidableEq

namespace RuleLine

/-- Splits at the first arrow. -/
def splitArrow? : List Char → Option (List Char × List Char)
  | [] => none
  | '-' :: '>' :: rest => some ([], rest)
  | c :: rest => (splitArrow? rest).map fun (before, after) => (c :: before, after)

/-- The small letter of a capital that occurs in a spelling of the empty string. -/
def lower (c : Char) : Char := if c = 'Ε' then 'ε' else c.toLower

/-- The name is a spelling of the empty string, in capital or small letters. -/
def isEmptySpelling (name : List Char) : Bool :=
  name.map lower ∈ ["ε".toList, "eps".toList, "epsilon".toList]

/-- The names of one alternative, without the spellings of the empty string. -/
def namesOf (cs : List Char) : List String :=
  ((Text.words cs).filter (!isEmptySpelling ·)).map String.ofList

/-- The alternatives on the right of the arrow. -/
def alternativesOf (cs : List Char) : List (List String) := (cs.splitOn '|').map namesOf

/-- The line is a comment. -/
def isComment : List Char → Bool
  | '#' :: _ => true
  | '/' :: '/' :: _ => true
  | _ => false

/-- What a line says, or nothing if it is absent, blank or a comment. -/
def read? (line : Option String) : Except LineError (Option RuleLine) :=
  let whole := line.getD ""
  let cs := Text.strip whole.toList
  if cs.isEmpty || isComment cs then .ok none
  else match splitArrow? cs with
    | none => .error (.missingArrow whole)
    | some (before, after) =>
      let lhs := Text.strip before
      if lhs.isEmpty then .error (.emptyLhs whole)
      else .ok (some ⟨String.ofList lhs, alternativesOf after⟩)

/-- What some lines say, or what is wrong with the first bad one. -/
def readAll : List (Option String) → Except LineError (List RuleLine)
  | [] => .ok []
  | line :: lines => do
    let first ← read? line
    let rest ← readAll lines
    return first.toList ++ rest

end RuleLine

namespace Grammar

/-- The spellings of the end of the token stream. -/
def isEndSpelling (name : String) : Bool := name = "$" || name = Symbol.endMark

/-- The symbol of a name, given the names that have alternatives. -/
def symbolOf (isNonterminal : String → Bool) (name : String) : Symbol :=
  if isNonterminal name then .nonterminal name
  else if name = Symbol.identifierMark then .identifier
  else if isEndSpelling name then .endOfInput
  else .terminal name

/-- The names in some alternatives that are neither nonterminals nor marks. -/
def inferredWords (rules : OrderedMap String (List (List String))) : SortedSet String :=
  .ofList <| rules.values.flatten.flatten.filter fun name =>
    !rules.contains name && name ≠ Symbol.identifierMark && !isEndSpelling name

/-- The grammar of some rule lines. Without a token list, every name that is neither a nonterminal
nor a mark is a reserved word. -/
def ofRuleLines (start : String) (ruleLines : List RuleLine) (tokens : Option (List String)) :
    Grammar :=
  let rules := OrderedMap.gather (ruleLines.map fun r => (r.lhs, r.alternatives))
  build start
    (rules.mapValues fun _ alts => alts.map (·.map (symbolOf rules.contains)))
    (match tokens with
      | some words => .ofList words
      | none => inferredWords rules)

/-- Reads a grammar from lines. -/
def ofLines (start : String) (lines : List (Option String)) (tokens : Option (List String)) :
    Except LineError Grammar :=
  return ofRuleLines start (← RuleLine.readAll lines) tokens

end Grammar

end Predictive
