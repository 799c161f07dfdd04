import RttHttp.Executor.Machine
import RttHttp.Executor.Prepare
import RttHttp.Http.Message
import RttHttp.Server.Machine
import RttHttp.Text.Number

/-! # Handling a request

`Server::Impl::preflight` and `Server::Impl::handle`. Everything up to the
admission boundary is a pure function of the request and of what is published;
live RTT state is passed along only from there on. Each call that may change live
state leaves an effect.

A published model may grow between the two lookups of one request, and the state
of the server may change between its two checkpoints.
-/

namespace RttHttp.Server

open Codec (Code CodecContext CodecError TypeCodec Value)
open Executor (OperationExecutor AdmitFault AdmitResult Prepared prepareInvocation requestLimits
  responseLimits)
open Http (Request Response Library Thrown Point problem methodAllowed jsonMediaType
  responseOverflow)
open Model (DataSource ObjectModel OperationPart Port PortBridge Resource)
open Route (canonicalRequestPath)

/-! ## The surroundings of a request -/

/-- `RTT::WriteStatus`. -/
inductive WriteStatus where
  | writeSuccess
  | notConnected
  | writeFailure
  | other
  deriving DecidableEq, Repr

/-- What `portValue` finds in a port before it is encoded. -/
inductive Sample where
  | error (error : CodecError)
  | waiting
  | value (value : Value)

/-- The value that every data source holds, by address. -/
abbrev Values := Nat → Value

/-- What the handler asks of RTT. `store` is `target->set() = value` and then
`target->updated()`; `update` is `destination->update(staged)`. Both are given the
live values and give them back. -/
structure Rtt where
  caller : OperationPart → List Value → Executor.Caller
  castsTo : DataSource → Code → Bool
  store : DataSource → Value → Values → Option Thrown × Values
  update : DataSource → Value → Values → Except Thrown Bool × Values
  evaluate : DataSource → Except Thrown Bool
  sample : Option Port → TypeCodec → Except Thrown Sample
  peerWrites : PortBridge → Bool
  write : PortBridge → Option Value → Except Thrown WriteStatus

/-- RTT's assignment contract: an assignment that completes replaces the value of
its destination and nothing else, and one that does not complete changes nothing. -/
structure Rtt.Lawful (rtt : Rtt) : Prop where
  store : ∀ source value values, (rtt.store source value values).2 =
    if (rtt.store source value values).1 = none then Function.update values source.address value
    else values
  update : ∀ source value values, (rtt.update source value values).2 =
    if (rtt.update source value values).1 = .ok true then
      Function.update values source.address value
    else values

/-- `state` and `finalShutdown` as one checkpoint finds them. -/
structure Checkpoint where
  state : State
  finalShutdown : Bool
  deriving DecidableEq, Repr

def Checkpoint.running (checkpoint : Checkpoint) : Bool :=
  checkpoint.state == .running && !checkpoint.finalShutdown

/-- One round of the wait for a result. -/
structure Poll where
  complete : Bool
  graceExpired : Bool
  pastDeadline : Bool
  connectionClosed : Bool

/-- What one request meets on its way. `status` and `values` are what the finished
invocation holds, its values by position. -/
structure Circumstances where
  first : Checkpoint
  second : Checkpoint
  before : ObjectModel TypeCodec
  after : ObjectModel TypeCodec
  invocation : Nat
  fault : Option AdmitFault
  polls : List Poll
  status : Nat
  values : Nat → Value

/-- Live RTT state. -/
structure Live where
  values : Values
  executor : OperationExecutor

/-- A call into live RTT state, with what it returned. -/
inductive Effect where
  | assign (destination : Option DataSource) (value : Option Value) (result : Except Thrown Bool)
  | write (bridge : PortBridge) (value : Option Value) (result : Except Thrown WriteStatus)
  | admission (invocation : Nat) (result : AdmitResult)

/-- How the handler is left: with a response, or by an exception while the
response looked as it did. Following a null pointer is undefined. -/
inductive Exit where
  | returned (response : Response)
  | threw (thrown : Thrown) (response : Response)
  | undefined

/-- The status of the response, if one was returned. -/
def Exit.status : Exit → Option Nat
  | .returned response => response.status
  | _ => none

/-! ## Up to the admission boundary -/

section Deciding

variable {α : Type} (library : Library) (rtt : Rtt) (options : ServerOptions) (request : Request)

/-- An allocation that may fail at this point. -/
def attempt (point : Point) : Except Exit Unit :=
  match library.throws point with
  | some thrown => .error (.threw thrown {})
  | none => .ok ()

/-- A problem response, or the exception that building it ended in. -/
def refusal (status : Nat) (suffix : Option String) (response : Response) : Exit :=
  match problem library request response status suffix with
  | .ok response => .returned response
  | .error thrown => .threw thrown { response with status := some status }

/-- `problem(request, response, status, suffix); return;`. -/
def refuse (status : Nat) (suffix : Option String) (response : Response) : Except Exit α :=
  .error (refusal library request status suffix response)

def isMutation : Bool := request.method == bytes "PUT" || request.method == bytes "POST"

def preflight (checkpoint : Checkpoint) (model : ObjectModel TypeCodec) : Except Exit Unit := do
  attempt library .preflight
  match canonicalRequestPath request.target with
  | none => refuse library request 400 none {}
  | some path =>
      if !checkpoint.running then refuse library request 503 none {}
      else match model.resolve path with
        | none => refuse library request 404 none {}
        | some resource =>
            if !methodAllowed resource request.method then
              refuse library request 405 none { allow := some resource.allow }
            else if request.method = bytes "OPTIONS" then
              .error (.returned { status := some 204, allow := some resource.allow })
            else if request.hasHeader (bytes "Content-Encoding") ||
                (isMutation request && !jsonMediaType request) then
              refuse library request 415 none {}
            else if request.hasHeader (bytes "Content-Length") then
              match fromChars 0 (2 ^ 64 - 1) (request.headerValue (bytes "Content-Length")) with
              | some (declared, []) =>
                  if options.maxRequestBodyBytes.toNat < declared then
                    refuse library request 413 none {}
                  else .ok ()
              | _ => refuse library request 400 none {}
            else .ok ()

/-- The status for a body that `parseJson` rejects. -/
def parseStatus (failure : CodecError) : Nat :=
  if responseOverflow failure then 413 else if failure.code = .duplicateKey then 422 else 400

/-- The member that the body must hold. -/
def bodyField (resource : Resource TypeCodec) : Bytes :=
  if resource.kind = .operation then bytes "arguments" else bytes "value"

/-- The body of a mutation in its envelope; other methods have a null body. -/
def readBody (resource : Resource TypeCodec) : Except Exit Json :=
  if isMutation request then
    match library.parseJson request.body (requestLimits options) with
    | .error thrown => .error (.threw thrown {})
    | .ok (.error failure) => refuse library request (parseStatus failure) none {}
    | .ok (.ok body) =>
        match body with
        | .object members =>
            if members.length ≠ 1 ∨ JsonObject.contains members (bodyField resource) = false then
              refuse library request 422 none {}
            else if resource.kind = .operation then
              match JsonObject.find? members (bytes "arguments") with
              | some (.array arguments) =>
                  match resource.operation with
                  | none => .error .undefined
                  | some operation =>
                      if arguments.length ≠ operation.arguments.length then
                        refuse library request 422 none {}
                      else .ok body
              | _ => refuse library request 422 none {}
            else .ok body
        | _ => refuse library request 422 none {}
  else .ok .null

/-- What is staged for the live access: a value, an invocation, or nothing. -/
inductive Staged where
  | nothing
  | value (value : Value)
  | invocation (prepared : Prepared)

/-- The pointer to the staged value. -/
def Staged.value? : Staged → Option Value
  | .value held => some held
  | _ => none

/-- The status for an invocation that is not prepared. -/
def prepareStatus (error : Option CodecError) : Nat :=
  if error.map (·.code) = some .unavailable then 503 else 422

/-- `body.at(name)`, which throws unless the body is an object with that member. -/
def bodyAt (body : Json) (name : Bytes) : Except Exit Json :=
  match body with
  | .object members =>
      match JsonObject.find? members name with
      | some value => .ok value
      | none => .error (.threw .other {})
  | _ => .error (.threw .other {})

def stageInput (resource : Resource TypeCodec) (body : Json) : Except Exit Staged :=
  if isMutation request && resource.kind ≠ .operation then do
    attempt library .decode
    let value ← bodyAt body (bytes "value")
    match resource.binding with
    | none => .error .undefined
    | some binding =>
        match (Codec.makeDataSource binding.codec value (.fresh (requestLimits options))).output with
        | none => refuse library request 422 none {}
        | some staged => .ok (.value staged)
  else if resource.kind = .operation then do
    attempt library .prepare
    match ← bodyAt body (bytes "arguments") with
    | .array arguments =>
        match resource.operation with
        | none => .error .undefined
        | some operation =>
            match prepareInvocation rtt.caller operation arguments options with
            | .error (.refused error) => refuse library request (prepareStatus error) none {}
            | .error .undefined => .error .undefined
            | .ok prepared => .ok (.invocation prepared)
    | _ => .error (.threw .other {})
  else .ok .nothing

/-- Everything in `handle` before the admission boundary. -/
def decideRequest (circumstances : Circumstances) : Except Exit (Resource TypeCodec × Staged) := do
  preflight library options request circumstances.first circumstances.before
  attempt library .lookup
  match (canonicalRequestPath request.target).bind circumstances.after.resolve with
  | none => refuse library request 404 none {}
  | some resource =>
      let body ← readBody library options request resource
      if !resource.supported then refuse library request 501 none {}
      else
        let staged ← stageInput library rtt options request resource body
        return (resource, staged)

end Deciding

/-! ## From the admission boundary on -/

/-- What a request leaves behind: its result or how it was left, live state, and
the effects it had. -/
structure Handled (α : Type) where
  result : Except Exit α
  live : Live
  effects : List Effect

section Access

variable (library : Library) (rtt : Rtt) (options : ServerOptions) (request : Request)
  (circumstances : Circumstances)

/-- The checkpoint in front of live access, where an invocation is admitted. -/
def boundary (staged : Staged) (live : Live) : Handled Unit :=
  if !circumstances.second.running then ⟨refuse library request 503 none {}, live, []⟩
  else match staged with
    | .invocation _ =>
        let (result, executor) := Executor.admitInvocation live.executor circumstances.invocation
          options.maxPendingOperations.toNat circumstances.fault
        { result := match result with
            | .admitted => .ok ()
            | .refused => refuse library request 503 (some "operation-capacity-exhausted") {}
            | .threw => .error (.threw .badAlloc {})
          live := { live with executor := executor }
          effects := [.admission circumstances.invocation result] }
    | _ => ⟨.ok (), live, []⟩

/-- `TypedTypeCodec::assign` and `ReflectedCodec::assign`. -/
def assign (codec : TypeCodec) (staged : Option Value) (destination : Option DataSource)
    (values : Values) : Except Thrown Bool × Values :=
  match staged, destination with
  | some staged, some destination =>
      match codec with
      | .typed code =>
          if staged.identity = .typed code ∧ rtt.castsTo destination code then
            match rtt.store destination staged values with
            | (none, values) => (.ok true, values)
            | (some thrown, values) => (.error thrown, values)
          else (.ok false, values)
      | .record type _ | .sequence type _ _ =>
          if destination.assignable ∧ staged.identity = .reflected type ∧
              destination.typeInfo.map (·.address) = some type then
            rtt.update destination staged values
          else (.ok false, values)
  | _, _ => (.ok false, values)

/-- The suffix for a value that cannot be encoded. -/
def encodeSuffix (error : Option CodecError) : String :=
  if error.any responseOverflow then "response-too-large" else "value-not-json-representable"

/-- `toJson` of a live source. -/
def readSource (codec : TypeCodec) (source : Option DataSource) (values : Values)
    (context : CodecContext) : Except Exit Json :=
  match source with
  | none => refuse library request 500 (some (encodeSuffix none)) {}
  | some source =>
      match rtt.evaluate source with
      | .error thrown => .error (.threw thrown {})
      | .ok false => refuse library request 500 (some (encodeSuffix none)) {}
      | .ok true =>
          let encoded := Codec.toJson codec (values source.address) .null context
          match encoded.status with
          | .converted => .ok encoded.output
          | .failed error => refuse library request 500 (some (encodeSuffix error)) {}

/-- The document of a retained sample. -/
def sampleDocument (hasSample : Bool) (value : Json) : Json :=
  .object [(bytes "hasSample", .bool hasSample), (bytes "value", value)]

/-- `portValue` and the document it is answered with. -/
def readSample (codec : TypeCodec) (output : Option Port) (context : CodecContext) :
    Except Exit Json :=
  match rtt.sample output codec with
  | .error thrown => .error (.threw thrown {})
  | .ok (.error error) => refuse library request 500 (some (encodeSuffix (some error))) {}
  | .ok .waiting => .ok (sampleDocument false .null)
  | .ok (.value value) =>
      let encoded := Codec.toJson codec value .null context
      match encoded.status with
      | .converted => .ok (sampleDocument true encoded.output)
      | .failed error => refuse library request 500 (some (encodeSuffix error)) {}

/-- The wait for the invocation; whether it finished. The deadline ends it. -/
def waitLoop : List Poll → Bool
  | [] => false
  | poll :: rest =>
      if poll.complete then true
      else if poll.graceExpired || poll.pastDeadline || poll.connectionClosed then false
      else waitLoop rest

/-- The loop over the collected values from position `i` on: the result and the
outputs. -/
def collectValues (operation : Model.Operation TypeCodec) :
    List Value → (i : Nat) → (result : Json) → (outputs : List Json) → CodecContext →
      Except Exit (Json × List Json)
  | [], _, result, outputs, _ => .ok (result, outputs)
  | value :: rest, i, result, outputs, context =>
      match operation.collectBindings[i]? with
      | some (some binding) =>
          let encoded := Codec.toJson binding.codec value .null context
          match encoded.status with
          | .failed error => refuse library request 500 (some (encodeSuffix error)) {}
          | .converted =>
              if i = 0 ∧ operation.hasResult then
                collectValues operation rest (i + 1) encoded.output outputs encoded.context
              else
                collectValues operation rest (i + 1) result (outputs ++ [encoded.output])
                  encoded.context
      | _ => .error .undefined

/-- The answer to an admitted invocation. -/
def operationResult (prepared : Prepared) (context : CodecContext) : Except Exit Json :=
  if waitLoop circumstances.polls then
    if circumstances.status ≠ 200 then refuse library request circumstances.status none {}
    else do
      let values := (List.range prepared.values.length).map circumstances.values
      let (result, outputs) ← collectValues library request prepared.operation values 0 .null []
        context
      return .object [(bytes "result", result), (bytes "outputs", .array outputs)]
  else refuse library request 504 none {}

/-- The answer to an assignment. -/
def assignAnswer : Except Thrown Bool → Except Exit Json
  | .ok true => .error (.returned { status := some 204 })
  | .ok false => refuse library request 500 none {}
  | .error thrown => .error (.threw thrown {})

/-- The answer to a port write. -/
def writeAnswer : Except Thrown WriteStatus → Except Exit Json
  | .ok .writeSuccess => .error (.returned { status := some 204 })
  | .ok .notConnected => refuse library request 503 (some "port-not-connected") {}
  | .ok .writeFailure => refuse library request 503 (some "port-write-failed") {}
  | .ok .other => refuse library request 500 none {}
  | .error thrown => .error (.threw thrown {})

/-- The access to live RTT state; a result that is returned is still to be serialized. -/
def access (resource : Resource TypeCodec) (staged : Staged) (live : Live) : Handled Json :=
  let context := CodecContext.fresh (responseLimits options)
  match attempt library .respond with
  | .error exit => ⟨.error exit, live, []⟩
  | .ok () =>
      match resource.kind with
      | .description => ⟨.ok resource.description, live, []⟩
      | .value =>
          match resource.binding with
          | none => ⟨.error .undefined, live, []⟩
          | some binding =>
              if isMutation request then
                let (result, values) :=
                  assign rtt binding.codec staged.value? resource.source live.values
                { result := assignAnswer library request result
                  live := { live with values := values }
                  effects := [.assign resource.source staged.value? result] }
              else
                { result := (readSource library rtt request binding.codec resource.source live.values
                    context).map fun value => .object [(bytes "value", value)]
                  live := live
                  effects := [] }
      | .latest =>
          match resource.binding with
          | none => ⟨.error .undefined, live, []⟩
          | some binding =>
              ⟨readSample library rtt request binding.codec resource.output context, live, []⟩
      | .samples =>
          match resource.bridge with
          | none => ⟨.error .undefined, live, []⟩
          | some bridge =>
              if rtt.peerWrites bridge then
                let result := rtt.write bridge staged.value?
                { result := writeAnswer library request result
                  live := live
                  effects := [.write bridge staged.value? result] }
              else ⟨refuse library request 500 none {}, live, []⟩
      | .operation =>
          match staged with
          | .invocation prepared =>
              ⟨operationResult library request circumstances prepared context, live, []⟩
          | _ => ⟨.error .undefined, live, []⟩

/-- The last step: the result as a response. -/
def respond (result : Json) : Exit :=
  match library.serializeJson result (responseLimits options) with
  | .error thrown => .threw thrown {}
  | .ok (.error failure) => refusal library request 500 (some (encodeSuffix (some failure))) {}
  | .ok (.ok encoded) =>
      .returned { status := some 200, content := some (encoded, bytes "application/json") }

/-- The two catch blocks. An exception out of them leaves the handler. -/
def caught : Exit → Exit
  | .threw thrown response =>
      let suffix := if thrown = .badAlloc then some "response-too-large" else none
      match problem library request response 500 suffix with
      | .ok response => .returned response
      | .error thrown => .threw thrown { response with status := some 500 }
  | exit => exit

/-- The body of the `try` block. -/
def serve (live : Live) : Handled Json :=
  match decideRequest library rtt options request circumstances with
  | .error exit => ⟨.error exit, live, []⟩
  | .ok (resource, staged) =>
      let admitted := boundary library options request circumstances staged live
      match admitted.result with
      | .error exit => ⟨.error exit, admitted.live, admitted.effects⟩
      | .ok () =>
          let accessed := access library rtt options request circumstances resource staged admitted.live
          { accessed with effects := admitted.effects ++ accessed.effects }

/-- `Server::Impl::handle`. -/
def handle (live : Live) : Exit × Live × List Effect :=
  let served := serve library rtt options request circumstances live
  (caught library request (match served.result with
    | .error exit => exit
    | .ok result => respond library options request result), served.live, served.effects)

end Access

end RttHttp.Server
