import Predictive.Follow

/-!
# Parsing tables

A cell of the table tells which alternative of a nonterminal to take when a token comes next. A
token selects an alternative if it can begin it, or if the alternative can vanish and the token can
follow the nonterminal. A table exists if no token selects two alternatives of one nonterminal.

Cells hold signed indexes, so that a hand-made table may count from the last alternative.
-/

namespace Predictive

/-- The cells of one nonterminal. -/
abbrev TableRow := OrderedMap Symbol Int

namespace TableRow

/-- The cells in the order of their symbols. -/
def cells (row : TableRow) : List (Symbol × Int) :=
  (SortedSet.ofList row.keys).toList.filterMap fun s => (row.find? s).map (s, ·)

/-- The cells by the names of their symbols; of two symbols with one name the later one in the
order of symbols decides. -/
def byName (row : TableRow) : OrderedMap String Int :=
  .ofList (row.cells.map fun c => (c.1.name, c.2))

end TableRow

/-- The alternative to take, for a nonterminal and the next token. -/
structure ParsingTable where
  rows : OrderedMap String TableRow
  deriving DecidableEq

namespace ParsingTable

/-- The row of a nonterminal, empty for a name without one. -/
def row (table : ParsingTable) (name : String) : TableRow := (table.rows.find? name).getD ∅

/-- The alternative that a token selects. -/
def lookup (table : ParsingTable) (name : String) (token : Symbol) : Option Int :=
  (table.row name).find? token

/-- All cells, row by row. -/
def entries (table : ParsingTable) : List (String × Symbol × Int) :=
  table.rows.entries.flatMap fun e => (TableRow.cells e.2).map (e.1, ·)

/-- The tokens that select a production. -/
def selectors (first : FirstSets) (follow : FollowSets) (p : Production) :
    Except LookupFault SymbolSet :=
  let next := first.ofSequence p.rhs
  if Symbol.empty ∈ next then
    match follow.of? p.lhs with
    | .ok after => .ok (next.erase .empty ∪ after)
    | .error e => .error e
  else .ok next

/-- Lets an alternative occupy some cells of a row, in order. -/
def occupy (name : String) (index : Nat) : List Symbol → TableRow → Except GrammarError TableRow
  | [], row => .ok row
  | s :: symbols, row =>
    match row.find? s with
    | none => occupy name index symbols (row.insert s index)
    | some existing =>
      if existing = index then occupy name index symbols row
      else .error (.tableConflict name s.name existing index)

/-- Fills the row of a nonterminal by its alternatives, which are counted from `index`. -/
def fillRow (first : FirstSets) (follow : FollowSets) (name : String) :
    (index : Nat) → List (List Symbol) → TableRow → Except Failure TableRow
  | _, [], row => .ok row
  | index, rhs :: alts, row =>
    match selectors first follow ⟨name, rhs⟩ with
    | .error e => .error (.lookup e)
    | .ok tokens =>
      match occupy name index tokens.toList row with
      | .error e => .error (.grammar e)
      | .ok row => fillRow first follow name (index + 1) alts row

/-- Builds the table of a grammar, row by row. -/
def build (g : Grammar) (first : FirstSets) (follow : FollowSets) : Except Failure ParsingTable :=
  match g.rules.traverse fun name alts => fillRow first follow name 0 alts ∅ with
  | .ok rows => .ok ⟨rows⟩
  | .error e => .error e

/-- A hand-made table. -/
def ofCells (cells : List (String × List (Symbol × Int))) : ParsingTable :=
  ⟨.ofList (cells.map fun c => (c.1, .ofList c.2))⟩

end ParsingTable

end Predictive
