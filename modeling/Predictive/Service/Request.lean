import Predictive.Samples
import Predictive.Schema
import Predictive.Text.Wide

/-!
# Requests to the service

A request names a grammar in one of three ways: by a definition, by lines, or as a sample. The
first of the three that is there decides. A request to parse has an input besides.

The texts of a request come from outside and may hold lone surrogates. The name of a sample is only
looked up and told back, so it may be any such text. A request of which another text is no string is
not described here.

* `GrammarRequest.fields`, `ParseRequest.fields`: the fields of requests.
* `GrammarRequest.ofRecord`, `ParseRequest.ofRecord`: requests with strings for their other texts.
* `GrammarRequest.grammar`: the grammar that a request names.
-/

namespace Predictive

/-! ## Values without surrogates -/

namespace FieldType

/-- The value with strings for its texts, or the first text that is no string. -/
def narrow : (type : FieldType) → type.Value WideText → Except WideText (type.Value String)
  | integer _, n => .ok n
  | text, t =>
    match WideText.narrow? t with
    | some s => .ok s
    | none => .error t
  | flag, b => .ok b
  | list item, values => List.mapM item.narrow values
  | table item, values => OrderedMap.traverse (fun _ a => item.narrow a) values
  | optional _, none => .ok none
  | optional type, some a => (type.narrow a).map some

/-- The value with wide texts for its strings. -/
def widen : (type : FieldType) → type.Value String → type.Value WideText
  | integer _, n => n
  | text, s => WideText.ofString s
  | flag, b => b
  | list item, values => List.map item.widen values
  | table item, values => OrderedMap.mapValues (fun _ a => item.widen a) values
  | optional _, none => none
  | optional type, some a => some (type.widen a)

end FieldType

/-! ## Requests -/

/-- Why a well-formed request is refused. -/
inductive RequestError where
  /-- There is no sample of the name. -/
  | unknownSample (name : WideText)
  /-- A grammar is supplied without its start symbol. -/
  | startRequired (supplied : String)
  /-- A line is no production. -/
  | badLine (e : LineError)
  /-- The analysis rejects the grammar. -/
  | rejected (e : GrammarError)
  /-- The analysis or the parse fails in a way that no request should cause. -/
  | broken (f : Failure)
  deriving DecidableEq

/-- How a request names a grammar. -/
structure GrammarRequest where
  sample : Option WideText
  start : Option String
  lines : Option (List String)
  definition : Option (OrderedMap String (List (List String)))
  tokens : Option (List String)
  deriving DecidableEq

namespace GrammarRequest

/-- The type of a definition. -/
def definitionType : FieldType := .table (.list (.list .text))

/-- The fields of a request, in order. All of them may be absent or null. -/
def fields : List (Field WideText) :=
  [.plain "sample" (.optional .text) none,
   .plain "grammar_start" (.optional .text) none,
   .plain "grammar_lines" (.optional (.list .text)) none,
   .plain "definition" (.optional definitionType) none,
   .plain "tokens" (.optional (.list .text)) none]

/-- The request of a record, or a text in it that is no string. -/
def ofRecord : Record WideText fields → Except WideText GrammarRequest
  | (sample, start, lines, definition, tokens, ()) => do
    let start ← (FieldType.optional .text).narrow start
    let lines ← (FieldType.optional (.list .text)).narrow lines
    let definition ← (FieldType.optional definitionType).narrow definition
    let tokens ← (FieldType.optional (.list .text)).narrow tokens
    return ⟨sample, start, lines, definition, tokens⟩

/-- The record of a request. -/
def record (r : GrammarRequest) : Record WideText fields :=
  (r.sample, (FieldType.optional .text).widen r.start,
    (FieldType.optional (.list .text)).widen r.lines,
    (FieldType.optional definitionType).widen r.definition,
    (FieldType.optional (.list .text)).widen r.tokens, ())

/-- The sample of a request that names none. -/
def defaultSample : String := "statements"

/-- The start symbol of a request that supplies a grammar; an empty one counts as none. -/
def start? (r : GrammarRequest) (supplied : String) : Except RequestError String :=
  match r.start with
  | none => .error (.startRequired supplied)
  | some name => if name.isEmpty then .error (.startRequired supplied) else .ok name

/-- The grammar of a definition. -/
def ofDefinition (r : GrammarRequest) (sigil : String)
    (definition : OrderedMap String (List (List String))) : Except RequestError Grammar :=
  match r.start? "a definition" with
  | .error e => .error e
  | .ok start => .ok (.ofDefinition start definition (r.tokens.getD []) sigil)

/-- The grammar of some lines. -/
def ofLines (r : GrammarRequest) (lines : List String) : Except RequestError Grammar :=
  match r.start? "grammar_lines" with
  | .error e => .error e
  | .ok start =>
    match Grammar.ofLines start (lines.map some) r.tokens with
    | .ok g => .ok g
    | .error e => .error (.badLine e)

/-- The sample of a name. Samples are named by strings. -/
def sample? (name : WideText) : Option Grammar := name.narrow?.bind Samples.find?

/-- The sample that a request names; an empty name counts as none. -/
def ofSample (r : GrammarRequest) : Except RequestError Grammar :=
  let given := r.sample.getD []
  let name := if given.isEmpty then .ofString defaultSample else given
  match sample? name with
  | some g => .ok g
  | none => .error (.unknownSample name)

/-- The grammar that a request names: its definition, else its lines if there are any, else its
sample. -/
def grammar (r : GrammarRequest) (sigil : String) : Except RequestError Grammar :=
  match r.definition with
  | some definition => r.ofDefinition sigil definition
  | none =>
    match r.lines with
    | some (line :: lines) => r.ofLines (line :: lines)
    | _ => r.ofSample

end GrammarRequest

/-- A request to parse an input. -/
structure ParseRequest where
  grammar : GrammarRequest
  input : String
  trace : Bool
  deriving DecidableEq

namespace ParseRequest

/-- The fields of a request to parse: those of the grammar, the input, and whether the steps are
recorded. -/
def fields : List (Field WideText) :=
  GrammarRequest.fields ++ [.plain "input" .text (.ofString ""), .plain "trace" .flag true]

/-- The request of a record, or a text in it that is no string. -/
def ofRecord : Record WideText fields → Except WideText ParseRequest
  | (sample, start, lines, definition, tokens, input, trace, ()) => do
    let grammar ← GrammarRequest.ofRecord (sample, start, lines, definition, tokens, ())
    let input ← FieldType.text.narrow input
    return ⟨grammar, input, trace⟩

/-- The record of a request. -/
def record (r : ParseRequest) : Record WideText fields :=
  match r.grammar.record with
  | (sample, start, lines, definition, tokens, ()) =>
    (sample, start, lines, definition, tokens, FieldType.text.widen r.input, r.trace, ())

end ParseRequest

end Predictive
