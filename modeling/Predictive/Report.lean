import Predictive.Analysis
import Predictive.Text.Csv

/-!
# Reports on an analysis

What an analysis found, by names alone: a report value for each stage, and tables as
comma-separated text.
-/

namespace Predictive

/-- A grammar by names. -/
structure GrammarReport where
  start : String
  nonterminals : List String
  terminals : List String
  productions : List String
  deriving DecidableEq

/-- The report on a grammar. -/
def Grammar.report (g : Grammar) : GrammarReport where
  start := g.start
  nonterminals := g.nonterminals
  terminals := g.terminals.names
  productions := g.productions.map Production.text

/-- A set for every nonterminal, by names. -/
abbrev NamedSets := OrderedMap String (List String)

/-- The names in every set. -/
def SymbolSets.named (sets : SymbolSets) : NamedSets := sets.mapValues fun _ s => s.names

/-- The names in the FIRST set of every alternative. -/
def FirstSets.namedByAlternative (first : FirstSets) : OrderedMap String (List (List String)) :=
  first.alternatives.mapValues fun _ sets => sets.map SortedSet.names

/-- The table by names. -/
def ParsingTable.named (table : ParsingTable) : OrderedMap String (OrderedMap String Int) :=
  table.rows.mapValues fun _ row => TableRow.byName row

/-- An analysis by names. -/
structure AnalysisReport where
  grammar : GrammarReport
  first : NamedSets
  firstByAlternative : OrderedMap String (List (List String))
  follow : NamedSets
  followPasses : Nat
  table : OrderedMap String (OrderedMap String Int)
  diagnostics : List Diagnostic

namespace Analysis

/-- The report on an analysis. -/
def report (a : Analysis) : AnalysisReport where
  grammar := a.grammar.report
  first := a.first.merged.named
  firstByAlternative := a.first.namedByAlternative
  follow := a.follow.sets.named
  followPasses := a.follow.passes
  table := a.table.named
  diagnostics := a.diagnostics.items

/-- The text in the table's cell for a nonterminal and a token: the selected production, or nothing
if the cell is empty. -/
def cellText (a : Analysis) (name : String) (token : Symbol) : Except LookupFault String :=
  match a.table.lookup name token with
  | none => .ok ""
  | some index => (a.grammar.production? name index).map Production.text

/-- The texts of all cells of some tokens for a nonterminal. -/
def cellTexts (a : Analysis) (name : String) : List Symbol → Except LookupFault (List String)
  | [] => .ok []
  | token :: tokens => do
    let first ← a.cellText name token
    let rest ← a.cellTexts name tokens
    return first :: rest

/-- The rows of some nonterminals, each behind its name. -/
def matrixRows (a : Analysis) (tokens : List Symbol) :
    List String → Except LookupFault (List (List String))
  | [] => .ok []
  | name :: names => do
    let cells ← a.cellTexts name tokens
    let rest ← a.matrixRows tokens names
    return (name :: cells) :: rest

/-- The table with a header: a row for every nonterminal, a column for every token. -/
def matrix (a : Analysis) : Except LookupFault (List (List String)) := do
  let tokens := a.grammar.terminals.toList
  let rows ← a.matrixRows tokens a.grammar.nonterminals
  return ("NonTerminal" :: tokens.map Symbol.name) :: rows

/-- The table as comma-separated text. -/
def tableCsv (a : Analysis) : Except LookupFault String := a.matrix.map Text.Csv.write

end Analysis

/-- The records of some sets under a title. -/
def NamedSets.records (title : String) (sets : NamedSets) : List (List String) :=
  [title, "Symbols (sorted)"] :: sets.entries.map fun e => [e.1, " ".intercalate e.2]

/-- Some sets as comma-separated text. -/
def NamedSets.csv (title : String) (sets : NamedSets) : String :=
  Text.Csv.write (sets.records title)

end Predictive
