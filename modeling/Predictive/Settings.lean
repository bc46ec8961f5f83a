import Predictive.Grammar.Reference
import Predictive.Schema
import Predictive.Text.Blank
import Predictive.Text.Capital

/-!
# Settings

The limits and conventions of a service, read from loosely typed data or from the variables of an
environment by a validator. A variable that is unset or empty leaves the default.

* `Settings.fields`: the fields with their types, defaults and checks.
* `Settings.read`: settings from named data.
* `Settings.ofEnvironment`: every value is text, and a list is separated by commas.
-/

namespace Predictive

/-- The limits and conventions of a service. -/
structure Settings where
  /-- The limit on FOLLOW passes; without one it is computed from the grammar. -/
  maxFollowPasses : Option Int
  /-- The limit on the frames of a parse stack. -/
  maxStackDepth : Option Int
  /-- The sigil of the nonterminals of a definition. -/
  sigil : String
  /-- How much is logged. -/
  logLevel : String
  /-- The origins that may call the service. -/
  origins : List String
  deriving DecidableEq

namespace Settings

/-- No limits, the usual sigil, warnings only, and callers from everywhere. -/
def defaults : Settings where
  maxFollowPasses := none
  maxStackDepth := none
  sigil := Grammar.defaultSigil
  logLevel := "WARNING"
  origins := ["*"]

instance : Inhabited Settings := ⟨defaults⟩

/-- The names of the log levels. -/
def levelNames : List String := ["DEBUG", "INFO", "WARNING", "ERROR", "CRITICAL"]

/-- The name of a log level in capitals, whichever letters it is given in. -/
def checkLevel (text : String) : Except String String :=
  let level := Text.capitalized text
  if level ∈ levelNames then .ok level else .error ("Unknown log level '" ++ text ++ "'")

/-- The field of a limit. -/
def limitField (name : String) (absent : Option Int) : Field String :=
  .plain name (.optional (.integer 1)) absent

/-- The field of the sigil. -/
def sigilField : Field String := .plain "nonterminal_prefix" .text defaults.sigil

/-- The field of the log level. -/
def levelField : Field String := ⟨"log_level", .text, defaults.logLevel, checkLevel⟩

/-- The field of the origins. -/
def originsField : Field String := .plain "cors_origins" (.list .text) defaults.origins

/-- The fields of settings, in order. -/
def fields : List (Field String) :=
  [limitField "max_follow_passes" defaults.maxFollowPasses,
   limitField "max_stack_depth" defaults.maxStackDepth,
   sigilField, levelField, originsField]

/-- The settings of a record. -/
def ofRecord : Record String fields → Settings
  | (passes, depth, sigil, level, origins, ()) => ⟨passes, depth, sigil, level, origins⟩

/-- Reads settings from named data. -/
def read (v : Validator String) (data : List (String × Datum String)) : Checked Settings :=
  (v.record fields data).map ofRecord

/-- The names of the fields, in order. -/
def fieldNames : List String := fields.map Field.name

/-- What the names of the environment's variables begin with. -/
def environmentMark : String := "LL1KIT_"

/-- The name of the variable of a field. -/
def variableName (field : String) : String :=
  environmentMark ++ String.ofList (field.toList.map Char.toUpper)

/-- The entries of a list that is separated by commas, trimmed and without the blank ones. -/
def listEntries (text : String) : List String :=
  (((text.toList.splitOn ',').map Text.strip).filter (!·.isEmpty)).map String.ofList

/-- The datum of a field whose variable has a value. -/
def variableDatum (field text : String) : Datum String :=
  if field = "cors_origins" then .list ((listEntries text).map .text) else .text text

/-- The data that the variables of an environment give. -/
def environmentData (environment : List (String × String)) : List (String × Datum String) :=
  fieldNames.filterMap fun field =>
    match environment.lookup (variableName field) with
    | none => none
    | some text => if text.isEmpty then none else some (field, variableDatum field text)

/-- Reads settings from the variables of an environment. -/
def ofEnvironment (v : Validator String) (environment : List (String × String)) :
    Checked Settings :=
  read v (environmentData environment)

end Settings

end Predictive
