/-!
# Why a grammar or an input is refused

Three families of failures, each a type of causes with one function for its wording:

* `GrammarError`: the grammar is rejected and no table is made.
* `ParseError`: the parse in progress ends; the parser can be used again after a reset.
* `LookupFault`: a name or an index leads nowhere, because nothing has checked it before.
-/

namespace Predictive

/-- Why a grammar is rejected. -/
inductive GrammarError where
  /-- A symbol is not declared: the start symbol, or one in an alternative of a nonterminal. -/
  | undeclaredSymbol (nonterminal : Option String) (symbol : String)
  /-- Some alternatives of a nonterminal always lead back to a leading nonterminal. -/
  | nonTerminating (nonterminal : String)
  /-- Two alternatives of a nonterminal belong into one cell of the parsing table. -/
  | tableConflict (nonterminal terminal : String) (existing incoming : Int)
  /-- The FOLLOW sets were still growing after the allowed number of passes. -/
  | fixpointDivergence (passes : Int)
  deriving DecidableEq

namespace GrammarError

/-- The name of the kind of rejection. -/
def code : GrammarError → String
  | undeclaredSymbol _ _ => "UndeclaredSymbol"
  | nonTerminating _ => "NonTerminatingGrammar"
  | tableConflict _ _ _ _ => "TableConflict"
  | fixpointDivergence _ => "FixpointDivergence"

/-- The rejection in words. -/
def message : GrammarError → String
  | undeclaredSymbol none symbol => "Start nonterminal '" ++ symbol ++ "' is not declared"
  | undeclaredSymbol (some nonterminal) symbol =>
    "Undeclared symbol '" ++ symbol ++ "' referenced in '" ++ nonterminal ++ "'"
  | nonTerminating nonterminal => "Nonterminal '" ++ nonterminal ++ "' is not terminating"
  | tableConflict nonterminal terminal existing incoming =>
    "Conflict at M[" ++ nonterminal ++ ", " ++ terminal ++ "]: alternative " ++
      toString existing ++ " vs alternative " ++ toString incoming
  | fixpointDivergence passes =>
    "FOLLOW set computation did not converge after " ++ toString passes ++ " passes"

end GrammarError

/-- Why an input is refused. -/
inductive ParseError where
  /-- No alternative of the nonterminal is selected by the token, or, without a nonterminal, the
  parse was complete before the token. -/
  | unexpectedToken (nonterminal : Option String) (token : String) (lexeme : Option String)
  /-- The alternative in progress demands another token. -/
  | tokenMismatch (expected actual : String) (lexeme : Option String)
  /-- The stack may not hold another frame. -/
  | nestingTooDeep (depth : Int)
  deriving DecidableEq

namespace ParseError

/-- The name of the kind of refusal. -/
def code : ParseError → String
  | unexpectedToken _ _ _ => "UnexpectedToken"
  | tokenMismatch _ _ _ => "TokenMismatch"
  | nestingTooDeep _ => "NestingTooDeep"

/-- A token in words; its lexeme is shown when it says more than the token's name. -/
def shown (token : String) : Option String → String
  | none => "'" ++ token ++ "'"
  | some lexeme =>
    if lexeme = token then "'" ++ token ++ "'" else token ++ " '" ++ lexeme ++ "'"

/-- The refusal in words. -/
def message : ParseError → String
  | unexpectedToken none token lexeme =>
    "Unexpected token " ++ shown token lexeme ++ " after the parse completed"
  | unexpectedToken (some nonterminal) token none =>
    "No rule for M[" ++ nonterminal ++ ", " ++ token ++ "]"
  | unexpectedToken (some nonterminal) token (some lexeme) =>
    "No rule for M[" ++ nonterminal ++ ", " ++ token ++ "]" ++
      if lexeme = token then "" else " (input '" ++ lexeme ++ "')"
  | tokenMismatch expected actual lexeme =>
    "Mismatch: expected '" ++ expected ++ "' but found " ++ shown actual lexeme
  | nestingTooDeep depth => "Parse stack exceeded " ++ toString depth ++ " frames"

end ParseError

/-- A look-up that finds nothing. -/
inductive LookupFault where
  /-- Nothing is known under the name. -/
  | unknownName (name : String)
  /-- The list has no element at the index. -/
  | noSuchIndex
  deriving DecidableEq

/-- Any way in which an analysis or a parse can fail to give an answer. -/
inductive Failure where
  | grammar (error : GrammarError)
  | lookup (fault : LookupFault)
  /-- The parse would never look at another token. -/
  | endless
  deriving DecidableEq

/-- Widens the errors of a computation. -/
def Failure.lift {ε α : Type} (wide : ε → Failure) : Except ε α → Except Failure α
  | .ok a => .ok a
  | .error e => .error (wide e)

end Predictive
