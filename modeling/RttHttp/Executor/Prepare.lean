import RttHttp.Codec.Reflected
import RttHttp.Model.Describe

/-! # Preparing an invocation

`prepareInvocation` decodes the arguments on one context, asks RTT whether the
operation can be called, and builds the storage its results are collected in.
What RTT answers is a parameter. A pointer that the code follows without a check
is an `Option` here, and following null is `undefined`.
-/

namespace RttHttp.Executor

open Codec (CodecContext CodecError CodecErrorCode JsonLimits TypeCodec Value)
open Model (Operation OperationPart TypeBinding TypeInfo)
open Server (ServerOptions)

/-- What RTT answers about one call: whether its caller is ready, the send data
source with its assignability, fresh values, and whether the collector is ready. -/
structure Caller where
  ready : Bool
  send : Option Bool
  buildValue : TypeInfo → Option Value
  collectorReady : Bool

/-- Why an invocation is not prepared. `refused` returns null, with the error that
was reported, if any. -/
inductive PrepareFault where
  | refused (error : Option CodecError)
  | undefined

/-- The parts of an invocation that later code reads. -/
structure Prepared where
  operation : Operation TypeCodec
  arguments : List Value
  send : Bool
  values : List Value

def requestLimits (options : ServerOptions) : JsonLimits where
  maxDocumentBytes := options.maxRequestBodyBytes.toNat
  maxDepth := options.maxJsonDepth.toNat

def responseLimits (options : ServerOptions) : JsonLimits where
  maxDocumentBytes := options.maxResponseBodyBytes.toNat
  maxDepth := options.maxJsonDepth.toNat

/-- The error in a status. -/
def reported : Codec.Status → Option CodecError
  | .converted => none
  | .failed error => error

/-- The loop over the arguments. -/
def prepareArguments : List (Option (TypeBinding TypeCodec) × Json) → List Value → CodecContext →
    Except PrepareFault (List Value)
  | [], values, _ => .ok values
  | (none, _) :: _, _, _ => .error .undefined
  | (some binding, argument) :: rest, values, context =>
      let result := Codec.makeDataSource binding.codec argument context
      match result.output with
      | none => .error (.refused (reported result.status))
      | some value => prepareArguments rest (values ++ [value]) result.context

/-- Fresh storage for one result, made by its codec from the encoded default. -/
def outputStorage (caller : Caller) (type : Option TypeInfo)
    (binding : Option (TypeBinding TypeCodec)) (context : CodecContext) :
    Except PrepareFault (Value × CodecContext) :=
  match type with
  | none => .error .undefined
  | some type =>
      match caller.buildValue type with
      | none => .error (.refused none)
      | some prototype =>
          match binding with
          | none => .error .undefined
          | some binding =>
              let encoded := Codec.toJson binding.codec prototype .null context
              match encoded.status with
              | .failed error => .error (.refused error)
              | .converted =>
                  let decoded := Codec.makeDataSource binding.codec encoded.output encoded.context
                  match decoded.output with
                  | none => .error (.refused (reported decoded.status))
                  | some value => .ok (value, decoded.context)

/-- The loop over the collected values. A direct call gives its mutable arguments
back in the storage they were decoded to. -/
def prepareOutputs (caller : Caller) (operation : Operation TypeCodec) (arguments : List Value)
    (send : Bool) : (types : List (Option TypeInfo)) → (i : Nat) → List Value → CodecContext →
    Except PrepareFault (List Value)
  | [], _, values, _ => .ok values
  | type :: rest, i, values, context =>
      if !send && !(operation.hasResult && i == 0) then
        match operation.outputs[i - if operation.hasResult then 1 else 0]? with
        | none => .error .undefined
        | some index =>
            match arguments[index]? with
            | none => .error .undefined
            | some value =>
                prepareOutputs caller operation arguments send rest (i + 1) (values ++ [value]) context
      else
        match operation.collectBindings[i]? with
        | none => .error .undefined
        | some binding =>
            match outputStorage caller type binding context with
            | .error fault => .error fault
            | .ok (value, context) =>
                prepareOutputs caller operation arguments send rest (i + 1) (values ++ [value]) context

def prepareInvocation (callers : OperationPart → List Value → Caller) (operation : Operation TypeCodec)
    (arguments : List Json) (options : ServerOptions) : Except PrepareFault Prepared :=
  if arguments.length ≠ operation.arguments.length then
    .error (.refused (some (Codec.codecFailure .typeMismatch)))
  else do
    let values ← prepareArguments (operation.arguments.zip arguments) [] (.fresh (requestLimits options))
    let caller := callers operation.part values
    let unavailable := PrepareFault.refused (some (Codec.codecFailure .unavailable))
    if !caller.ready then .error unavailable
    else
      let send := if operation.ownThread then caller.send else none
      if send = some false then .error unavailable
      else do
        let outputs ← prepareOutputs caller operation values send.isSome operation.collectTypes 0 []
          (.fresh (responseLimits options))
        if send.isSome && !caller.collectorReady then .error unavailable
        else .ok { operation := operation, arguments := values, send := send.isSome, values := outputs }

end RttHttp.Executor
