import Predictive.Lenient
import Predictive.Service.Framework
import Predictive.Text.Capital
import Predictive.Web.Target

/-!
# A framework for the service

A framework that reads bodies leniently, finds a route by the path of a request's target and writes
payloads as JSON in UTF-8. It is one instance of `Framework`, with which the service can be run. What
is proved of the service is proved of every framework that keeps the contract.

* `Web.EncodingFault`: where a payload holds surrogates, which UTF-8 cannot write.
* `Web.framework`: the instance.
-/

namespace Predictive.Web

open Service

/-! ## Finding a route -/

/-- A path without the slashes at its end, but for the one of the root. -/
def withoutSlashes (path : String) : String :=
  let kept := (path.toList.reverse.dropWhile (· = '/')).reverse
  if kept.isEmpty then path else String.ofList kept

/-- A path leads to a route if it is the path of the route; a line feed at its end is forgiven. -/
def reaches (path : String) (route : Route) : Bool :=
  path = route.path || path = route.path ++ "\n"

/-- The route of a path; slashes at its end do not matter. -/
def route? (path : String) : Option Route :=
  match Route.all.find? (reaches path) with
  | some route => some route
  | none => Route.all.find? (reaches (withoutSlashes path))

/-! ## Writing -/

/-- Surrogates that stand in a row in a text to be written. -/
structure EncodingFault where
  /-- The place of the first of them. -/
  position : Nat
  surrogates : List CodePoint

namespace EncodingFault

/-- The fault in words. -/
def message (fault : EncodingFault) : String :=
  let place := toString fault.position
  let which := match fault.surrogates with
    | [p] => "character '\\u" ++ String.ofList (Nat.toDigits 16 p.toNat) ++ "' in position " ++ place
    | run => "characters in position " ++ place ++ "-" ++
      toString (fault.position + run.length - 1)
  "'utf-8' codec can't encode " ++ which ++ ": surrogates not allowed"

/-- How many characters stand for a code point in a JSON string. -/
def writtenLength : CodePoint → Nat
  | .scalar c =>
    if c ∈ ['\x22', '\\', '\x08', '\x0c', '\n', '\r', '\t'] then 2
    else if c.toNat < 0x20 then 6
    else 1
  | .surrogate _ => 1

/-- What stands in front of the text of a detail. -/
def opening : String := "\x7b\"detail\":\""

/-- The first surrogates in a written detail. -/
def ofDetail (text : WideText) : EncodingFault :=
  let before := text.takeWhile (!·.isSurrogate)
  { position := before.foldl (fun place p => place + writtenLength p) opening.length
    surrogates := (text.drop before.length).takeWhile CodePoint.isSurrogate }

end EncodingFault

/-- What a response holds. -/
inductive Content where
  | payload (p : Payload)
  /-- What is wrong with the request. -/
  | invalid (errors : List FieldError)

/-- The content type of a response. -/
def Content.contentType : Content → String
  | payload p => p.contentType
  | invalid _ => "application/json"

/-- Writes a payload. -/
def write (p : Payload) : Except EncodingFault Content :=
  match p with
  | .detail text => if text.isUnicode then .ok (.payload p) else .error (.ofDetail text)
  | _ => .ok (.payload p)

/-! ## Serving -/

/-- The response to an ending. A text that is not described is taken for one that cannot be
written. -/
def finish : Ending → Response Content EncodingFault
  | .returned payload => .ofPayload write 200 payload
  | .refused status payload => .ofPayload write status payload
  | .failed f => .failed f
  | .beyond text => .unwritten (.ofDetail text)

/-- Reads the body of a request as a record of some fields. -/
def readBody (fields : List (Field WideText)) (body : Option (Datum WideText)) :
    Checked (Record WideText fields) :=
  let reading : Checked (Record WideText fields) := match body with
    | none | some .null => .fault .missing
    | some (.object data) => Lenient.record WideText.narrow? data fields
    | some _ => .fault .requestType
  reading.inside (.field "body")

/-- The response of a route to a request with a body or without. -/
def handle (endpoint : Endpoint) (body : Option (Datum WideText)) :
    Response Content EncodingFault :=
  match endpoint with
  | .plain ending => finish ending
  | .posted fields handle =>
    match readBody fields body with
    | .ok r => finish (handle r)
    | .error es => .written 422 (.invalid es)

/-- A refusal in front of the routes. -/
def refuse (status : Nat) (text : String) : Response Content EncodingFault :=
  .written status (.payload (.detail (.ofString text)))

/-- The response to a request that leads to a route, or to none. The method may be written in small
letters. -/
def dispatch (endpoint : Route → Endpoint) (method : String) (body : Option (Datum WideText)) :
    Option Route → Response Content EncodingFault
  | none => refuse 404 "Not Found"
  | some route =>
    if Text.capitalized method = route.method then handle (endpoint route) body
    else refuse 405 "Method Not Allowed"

/-- The response to a request. -/
def serve (endpoint : Route → Endpoint) (method target : String)
    (body : Option (Datum WideText)) : Response Content EncodingFault :=
  dispatch endpoint method body (route? (Target.path target))

/-- The framework. -/
def framework : Framework Content EncodingFault where
  validator := Lenient.validator WideText.narrow?
  write := write
  serve := serve

end Predictive.Web
