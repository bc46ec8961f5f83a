import Predictive.Text.Quoted

/-!
# Diagnostics

Remarks that an analysis leaves beside its result, collected in the order in which they are made.
-/

namespace Predictive

/-- How much a remark matters. -/
inductive Severity where
  | info
  | warning
  | error
  deriving DecidableEq

namespace Severity

/-- The name of a severity. -/
def name : Severity → String
  | info => "INFO"
  | warning => "WARNING"
  | error => "ERROR"

/-- The severity of a name. -/
def ofName? (name : String) : Option Severity :=
  [info, warning, error].find? (·.name = name)

end Severity

/-- What a remark is about. -/
inductive DiagnosticCode where
  | ambiguousFirstSet
  | followPasses
  deriving DecidableEq

namespace DiagnosticCode

/-- The name of a code. -/
def name : DiagnosticCode → String
  | ambiguousFirstSet => "AmbiguousFirstSet"
  | followPasses => "FollowPasses"

/-- The code of a name. -/
def ofName? (name : String) : Option DiagnosticCode :=
  [ambiguousFirstSet, followPasses].find? (·.name = name)

/-- The refusal of a name that is no code. -/
def refusal (name : String) : String := Text.quoted name ++ " is not a valid DiagnosticCode"

end DiagnosticCode

/-- A remark, with the nonterminal and the symbol that it concerns. -/
structure Diagnostic where
  severity : Severity
  code : DiagnosticCode
  message : String
  nonterminal : Option String := none
  symbol : Option String := none
  hint : Option String := none
  deriving DecidableEq

/-- The remarks made so far, oldest first. -/
structure DiagnosticLog where
  items : List Diagnostic := []
  deriving DecidableEq

namespace DiagnosticLog

/-- Adds a remark at the end. -/
def report (log : DiagnosticLog) (d : Diagnostic) : DiagnosticLog := ⟨log.items ++ [d]⟩

/-- The remarks of one code, in order. -/
def withCode (log : DiagnosticLog) (code : DiagnosticCode) : List Diagnostic :=
  log.items.filter (·.code = code)

/-- The warnings, in order. -/
def warnings (log : DiagnosticLog) : List Diagnostic :=
  log.items.filter (·.severity = .warning)

end DiagnosticLog

end Predictive
