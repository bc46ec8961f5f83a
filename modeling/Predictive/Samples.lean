import Predictive.Grammar.Lines
import Predictive.Grammar.Reference

/-!
# Sample grammars

Three grammars that a caller can name: a language of keyword statements, assignments of arithmetic
expressions, and a repetition.
-/

namespace Predictive.Samples

/-- The reserved words of the statement language. Those that make up a longer operator are listed
with each of them. -/
def statementWords : List String :=
  ["Function", "End", "Equal", "Of", "Return", "Add", "Subtract", "Multiply", "Divide",
   "Is", "Equal", "To", "Is", "Less", "Than", "If", "Then", "EndIf", "Else", "While"]

/-- The alternatives of the statement language, as references. -/
def statementRules : List (String × List (List String)) :=
  [("Program", [["eGStatements", "END_OF_FILE"]]),
   ("GStatements", [["eFunction", "eGStatements"], ["eStatement", "eGStatements"], []]),
   ("Function", [["Function", "NAME", "eParameters", "eFuncStates"]]),
   ("Parameters", [["NAME", "eParameters"], ["End"]]),
   ("Statements", [["eStatement", "eStatements"], ["End"]]),
   ("EndIfOrElse", [["Else", "eStatements"], ["EndIf"]]),
   ("Statement",
    [["If", "eStatement", "Then", "eStatements", "eEndIfOrElse"],
     ["While", "eStatement", "eStatements"],
     ["eTempStatement"]]),
   ("TempStates", [["eTempStatement", "eTempStates"], ["End"]]),
   ("TempStatement", [["NAME", "eStatementX"]]),
   ("StatementX", [["eAssignment"], ["eFunctionCall"], ["eOperation"], []]),
   ("FuncStates", [["eFuncState", "eFuncStates"], ["End"]]),
   ("FuncState", [["eStatement"], ["eReturn"]]),
   ("Assignment", [["Equal", "eStatement"]]),
   ("FunctionCall", [["Of", "eTempStates"]]),
   ("Operation", [["eOperator", "eTempStatement"]]),
   ("Return", [["Return", "eTempStatement"]]),
   ("Operator", [["Add"], ["Subtract"], ["Multiply"], ["Divide"], ["Is", "eCmpOp"]]),
   ("CmpOp", [["Less", "Than"], ["Equal", "To"]])]

/-- A language of functions, conditions and loops over keyword statements. -/
def statements : Grammar :=
  .ofDefinition "Program" (.ofList statementRules) statementWords Grammar.defaultSigil

/-- The grammar of some lines, none of which is refused. -/
def ofLines (start : String) (lines : List String)
    (h : (Grammar.ofLines start (lines.map some) none).isOk = true) : Grammar :=
  match read : Grammar.ofLines start (lines.map some) none with
  | .ok g => g
  | .error _ => absurd h (by rw [read]; exact Bool.false_ne_true)

/-- Assignments of arithmetic expressions, each ended by a semicolon. -/
def assignment : Grammar :=
  ofLines "S"
    ["S  -> NAME = E ; $",
     "E  -> T E'",
     "E' -> + T E' | ε",
     "T  -> F T'",
     "T' -> * F T' | ε",
     "F  -> ( E ) | NAME"]
    (by decide +kernel)

/-- Any number of one word, closed by another, or nothing. -/
def repetition : Grammar := ofLines "S" ["S -> A end | ε", "A -> a A | ε"] (by decide +kernel)

/-- The samples under their names. -/
def all : List (String × Grammar) :=
  [("statements", statements), ("assignment", assignment), ("repeat", repetition)]

/-- The sample of a name. -/
def find? (name : String) : Option Grammar := all.lookup name

end Predictive.Samples
