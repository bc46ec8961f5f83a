import Predictive.Settings
import Predictive.Table
import Predictive.Validation

/-!
# The analysis of a grammar

From a grammar to its parsing table: validation, FIRST sets with their warnings, FOLLOW sets, and
the table. The first stage that fails decides.
-/

namespace Predictive

/-- All that is known about a grammar that has a parsing table. -/
structure Analysis where
  grammar : Grammar
  first : FirstSets
  follow : FollowSets
  table : ParsingTable
  diagnostics : DiagnosticLog

namespace Analysis

/-- Analyses a grammar. -/
def run (g : Grammar) (settings : Settings) : Except Failure Analysis := do
  let _ ← g.validate
  let first := FirstSets.ofGrammar g
  let follow ← FollowSets.compute g first settings.maxFollowPasses
  let table ← ParsingTable.build g first follow
  return { grammar := g, first, follow, table,
           diagnostics := ⟨first.diagnostics ++ [follow.diagnostic]⟩ }

/-- The warnings among the remarks. -/
def warnings (a : Analysis) : List Diagnostic := a.diagnostics.warnings

end Analysis

end Predictive
