import Predictive.Service

/-!
# What serves the routes

A framework takes a request to a route, reads the body, lets the route handle it and writes what
comes out. The service takes one as a parameter, and `Framework.Contract` says what it relies on.

* `Response`: what comes back, if it can be written and nothing fails.
* `Response.ofEnding?`: the response of a route by how it ends.
* `Framework.Contract`: bodies are read by a validator that keeps its own contract; a payload can be
  written if there is no surrogate in it, and only then; a body that reads is handled by the route.
-/

namespace Predictive.Service

/-- What comes back, or a failure that nothing handles. What is written is of type `β`, and a fault
of the writer of type `ε`. -/
inductive Response (β ε : Type) where
  /-- A status with some content. -/
  | written (status : Nat) (content : β)
  /-- The content cannot be written. -/
  | unwritten (fault : ε)
  /-- The route fails. -/
  | failed (f : Failure)

namespace Response

variable {β ε : Type}

/-- The response with a payload, unless it cannot be written. -/
def ofPayload (write : Payload → Except ε β) (status : Nat) (payload : Payload) : Response β ε :=
  match write payload with
  | .ok content => .written status content
  | .error fault => .unwritten fault

/-- The response to an ending. Nothing is said of requests that are not described. -/
def ofEnding? (write : Payload → Except ε β) : Ending → Option (Response β ε)
  | .returned payload => some (ofPayload write 200 payload)
  | .refused status payload => some (ofPayload write status payload)
  | .failed f => some (.failed f)
  | .beyond _ => none

end Response

/-- What serves the routes. -/
structure Framework (β ε : Type) where
  /-- Reads the bodies of requests. -/
  validator : Validator WideText
  /-- Writes a payload. -/
  write : Payload → Except ε β
  /-- The response to a request with a method, a path and perhaps a body, when the routes take and do
  what is given. -/
  serve : (Route → Endpoint) → (method path : String) → Option (Datum WideText) → Response β ε

/-- What the service relies on. -/
structure Framework.Contract {β ε : Type} (w : Framework β ε) : Prop where
  validator : w.validator.Contract
  /-- What is not Unicode cannot be written, and all else can. -/
  write_isOk : ∀ payload, (w.write payload).isOk = payload.isUnicode
  /-- A body that is posted to a route and reads is handled by it. -/
  serve : ∀ {endpoint : Route → Endpoint} {route : Route} {fields : List (Field WideText)}
    {handle : Record WideText fields → Ending} {data : List (String × Datum WideText)}
    {r : Record WideText fields} {response : Response β ε},
    endpoint route = .posted fields handle → route.method = "POST" →
      w.validator.record fields data = .ok r →
        Response.ofEnding? w.write (handle r) = some response →
          w.serve endpoint "POST" route.path (some (.object data)) = response

end Predictive.Service
