import Predictive.Grammar

/-!
# Which grammars are worth analysing

A grammar passes if its start symbol and all symbols of its alternatives are declared, and if every
nonterminal is productive. Productive is meant narrowly: only the leading symbol of an alternative
counts, and every alternative has to be empty, or begin with a symbol that is no nonterminal, or
begin with a productive nonterminal.
-/

namespace Predictive.Grammar

/-- The first undeclared symbol of an alternative, with the nonterminal that uses it. -/
def firstUndeclared? (g : Grammar) : Option (String × String) :=
  g.productions.findSome? fun p =>
    (p.rhs.find? (!g.isDeclared ·)).map fun s => (p.lhs, s.name)

/-- Checks that the start symbol and then every symbol in use is declared. -/
def checkDeclared (g : Grammar) : Except GrammarError Unit :=
  if g.rules.contains g.start then
    match g.firstUndeclared? with
    | some (lhs, name) => .error (.undeclaredSymbol (some lhs) name)
    | none => .ok ()
  else .error (.undeclaredSymbol none g.start)

/-- Which nonterminals are known to be productive. -/
abbrev ProductiveFlags := OrderedMap String Bool

namespace ProductiveFlags

/-- The alternative is empty, or its leading symbol is productive. -/
def alternative (flags : ProductiveFlags) : List Symbol → Except LookupFault Bool
  | [] => .ok true
  | s :: _ =>
    if s.isNonterminal then
      match flags.find? s.name with
      | some flag => .ok flag
      | none => .error (.unknownName s.name)
    else .ok true

/-- Every alternative is productive; the first that is not decides. -/
def every (flags : ProductiveFlags) : List (List Symbol) → Except LookupFault Bool
  | [] => .ok true
  | a :: alts =>
    match flags.alternative a with
    | .ok true => flags.every alts
    | .ok false => .ok false
    | .error e => .error e

/-- Looks at one nonterminal again, unless it is settled or has no alternatives. -/
def visit (flags : ProductiveFlags) (name : String) (alts : List (List Symbol)) :
    Except LookupFault ProductiveFlags :=
  if flags.find? name = some true || alts.isEmpty then .ok flags
  else match flags.every alts with
    | .ok true => .ok (flags.insert name true)
    | .ok false => .ok flags
    | .error e => .error e

/-- Visits some nonterminals in order. -/
def sweep : List (String × List (List Symbol)) → ProductiveFlags →
    Except LookupFault ProductiveFlags
  | [], flags => .ok flags
  | (name, alts) :: rest, flags =>
    match flags.visit name alts with
    | .ok flags => sweep rest flags
    | .error e => .error e

/-- Sweeps until nothing changes, at most `bound` times. -/
def settle (rules : List (String × List (List Symbol))) : (bound : Nat) → ProductiveFlags →
    Except LookupFault ProductiveFlags
  | 0, flags => .ok flags
  | bound + 1, flags =>
    match sweep rules flags with
    | .ok flags' => if flags' = flags then .ok flags else settle rules bound flags'
    | .error e => .error e

end ProductiveFlags

/-- Which nonterminals are productive. Each sweep but the last settles one more nonterminal, so one
sweep more than there are nonterminals is enough. -/
def productive (g : Grammar) : Except LookupFault ProductiveFlags :=
  ProductiveFlags.settle g.rules.entries (g.nonterminals.length + 1) (g.rules.withKeysOf false)

/-- Checks a grammar: the declarations first, then that every nonterminal is productive. -/
def validate (g : Grammar) : Except Failure ProductiveFlags := do
  Failure.lift .grammar g.checkDeclared
  let flags ← Failure.lift .lookup g.productive
  match flags.entries.find? (!·.2) with
  | some (name, _) => .error (.grammar (.nonTerminating name))
  | none => .ok flags

end Predictive.Grammar
