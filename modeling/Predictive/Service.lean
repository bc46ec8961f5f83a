import Predictive.Report
import Predictive.Service.Request
import Predictive.Trace

/-!
# The service

Six routes: a page, a sign of life, the sample grammars, and three analyses of a grammar that a
request names. What a route makes of a well-formed request is an `Ending`; how requests reach the
routes and endings become responses is up to the framework that serves them.

* `Service.analysis`, `Service.tableText`, `Service.parseReply`: what the three analyses find, or why
  the request is refused.
* `Service.answer`: the ending with what was found, or with the refusal.
* `Service.endpoint`: what the routes take and do.
-/

namespace Predictive.Service

/-- What can be asked for. -/
inductive Route where
  | index
  | health
  | samples
  | analyze
  | tableCsv
  | parse
  deriving DecidableEq

namespace Route

/-- All routes. -/
def all : List Route := [index, health, samples, analyze, tableCsv, parse]

/-- The path of a route. -/
def path : Route → String
  | index => "/"
  | health => "/health"
  | samples => "/api/samples"
  | analyze => "/api/analyze"
  | tableCsv => "/api/table.csv"
  | parse => "/api/parse"

/-- The method that a route is asked by. -/
def method : Route → String
  | index | health | samples => "GET"
  | analyze | tableCsv | parse => "POST"

end Route

/-- The outcome of a parse, with the tokens that the input was split into. -/
structure ParseReply where
  tokens : List String
  result : ParseResult
  deriving DecidableEq

/-- What a route gives back. -/
inductive Payload where
  /-- A page of hypertext. -/
  | page (html : String)
  /-- Comma-separated records. -/
  | csv (text : String)
  /-- How the service is. -/
  | health (status : String)
  /-- The productions of every sample. -/
  | samples (productions : List (String × List String))
  /-- The report on an analysis. -/
  | report (r : AnalysisReport)
  /-- The outcome of a parse. -/
  | parsed (r : ParseReply)
  /-- Why there is no answer. -/
  | detail (text : WideText)
  /-- Why a grammar is rejected. -/
  | rejected (code message : String)

namespace Payload

/-- The content type of a payload. -/
def contentType : Payload → String
  | page _ => "text/html; charset=utf-8"
  | csv _ => "text/csv; charset=utf-8"
  | _ => "application/json"

/-- There is no surrogate in the payload. -/
def isUnicode : Payload → Bool
  | detail text => text.isUnicode
  | _ => true

end Payload

/-- How a route ends. -/
inductive Ending where
  /-- A payload is given back. -/
  | returned (payload : Payload)
  /-- The request is refused with a status. -/
  | refused (status : Nat) (payload : Payload)
  /-- Something fails that no request should cause. -/
  | failed (f : Failure)
  /-- The request has a text that is no string, where only strings are described. -/
  | beyond (text : WideText)

/-- What a route takes and does. -/
inductive Endpoint where
  /-- It takes nothing. -/
  | plain (ending : Ending)
  /-- It takes a record of some fields. -/
  | posted (fields : List (Field WideText)) (handle : Record WideText fields → Ending)

/-- The page of the root. -/
def indexPage : String :=
  "<h2>LL(1) Grammar Toolkit API</h2>" ++
    "<p>POST <code>/api/analyze</code> or <code>/api/parse</code> with a grammar.</p>"

/-- The productions of every sample, in written form. -/
def sampleProductions : List (String × List String) :=
  Samples.all.map fun s => (s.1, s.2.productions.map Production.text)

/-- The refusal of a sample that is not there. -/
def unknownSampleText (name : WideText) : WideText :=
  .ofString "Unknown sample grammar '" ++ name ++ .ofString "'"

/-- The ending for a request that is refused. -/
def refusal : RequestError → Ending
  | .unknownSample name => .refused 404 (.detail (unknownSampleText name))
  | .startRequired supplied =>
    .refused 422 (.detail (.ofString ("grammar_start is required with " ++ supplied)))
  | .badLine e => .refused 422 (.detail (.ofString e.message))
  | .rejected e => .refused 422 (.rejected e.code e.message)
  | .broken f => .failed f

/-- The analysis of the grammar that a request names. -/
def analysis (settings : Settings) (r : GrammarRequest) : Except RequestError Analysis :=
  match r.grammar settings.sigil with
  | .error e => .error e
  | .ok g =>
    match Analysis.run g settings with
    | .ok a => .ok a
    | .error (.grammar e) => .error (.rejected e)
    | .error f => .error (.broken f)

/-- The table of the grammar that a request names, as comma-separated text. -/
def tableText (settings : Settings) (r : GrammarRequest) : Except RequestError String :=
  match analysis settings r with
  | .error e => .error e
  | .ok a =>
    match a.tableCsv with
    | .ok text => .ok text
    | .error f => .error (.broken (.lookup f))

/-- The outcome of parsing the words of a request's input. -/
def parseReply (settings : Settings) (r : ParseRequest) : Except RequestError ParseReply :=
  match analysis settings r.grammar with
  | .error e => .error e
  | .ok a =>
    let tokens := Text.stringWords r.input
    match a.parse settings tokens r.trace with
    | .ok result => .ok ⟨tokens, result⟩
    | .error f => .error (.broken f)

/-- The ending with what was asked for, or with the refusal. -/
def answer {α : Type} (payload : α → Payload) : Except RequestError α → Ending
  | .ok a => .returned (payload a)
  | .error e => refusal e

/-- The ending for a request whose texts are strings where they have to be. -/
def described {α : Type} (handle : α → Ending) : Except WideText α → Ending
  | .ok r => handle r
  | .error text => .beyond text

/-- What the routes take and do under some settings. -/
def endpoint (settings : Settings) : Route → Endpoint
  | .index => .plain (.returned (.page indexPage))
  | .health => .plain (.returned (.health "ok"))
  | .samples => .plain (.returned (.samples sampleProductions))
  | .analyze => .posted GrammarRequest.fields fun record =>
    described (fun r => answer (fun a => .report a.report) (analysis settings r))
      (GrammarRequest.ofRecord record)
  | .tableCsv => .posted GrammarRequest.fields fun record =>
    described (fun r => answer .csv (tableText settings r)) (GrammarRequest.ofRecord record)
  | .parse => .posted ParseRequest.fields fun record =>
    described (fun r => answer .parsed (parseReply settings r)) (ParseRequest.ofRecord record)

end Predictive.Service
