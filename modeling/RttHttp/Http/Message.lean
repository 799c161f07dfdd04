import RttHttp.Codec.Context
import RttHttp.Model.Describe

/-! # Requests and problem responses

What the server reads from a request, the media type it accepts, and the problem
document it answers with. Boost.JSON, the rest of the codec layer and the HTTP
library come in as `Library`: any of its calls may throw.
-/

namespace RttHttp.Http

open Codec (CodecError CodecErrorCode JsonLimits)
open Model (Resource)

structure Request where
  method : Bytes
  target : Bytes
  headers : List (Bytes × Bytes)
  body : Bytes

/-- A response under construction; `content` is a body with its content type. -/
structure Response where
  status : Option Nat := none
  allow : Option Bytes := none
  content : Option (Bytes × Bytes) := none

/-! ## Headers -/

def lowerByte (c : UInt8) : UInt8 := if 0x41 ≤ c ∧ c ≤ 0x5a then c + 0x20 else c

/-- The values of a header; its name is compared without regard to case. -/
def Request.headerValues (request : Request) (name : Bytes) : List Bytes :=
  (request.headers.filter fun header => header.1.map lowerByte = name.map lowerByte).map Prod.snd

def Request.hasHeader (request : Request) (name : Bytes) : Bool :=
  !(request.headerValues name).isEmpty

/-- The first value, or the empty string. -/
def Request.headerValue (request : Request) (name : Bytes) : Bytes :=
  (request.headerValues name).head?.getD []

def isBlank (c : UInt8) : Bool := c == 0x20 || c == 0x09

def lowerTrim (text : Bytes) : Bytes :=
  ((text.dropWhile isBlank).reverse.dropWhile isBlank).reverse.map lowerByte

def semicolon : UInt8 := 0x3b

def equalSign : UInt8 := 0x3d

def jsonMediaType (request : Request) : Bool :=
  if (request.headerValues (bytes "Content-Type")).length ≠ 1 ∨
      request.hasHeader (bytes "Content-Encoding") then false
  else
    let raw := request.headerValue (bytes "Content-Type")
    let separator := findFrom raw semicolon 0
    if lowerTrim (raw.take (separator.getD raw.length)) ≠ bytes "application/json" then false
    else match separator with
      | none => true
      | some separator =>
          let parameter := lowerTrim (raw.drop (separator + 1))
          match findFrom parameter equalSign 0 with
          | none => false
          | some equal =>
              if lowerTrim (parameter.take equal) ≠ bytes "charset" then false
              else
                let value := lowerTrim (parameter.drop (equal + 1))
                value == bytes "utf-8" || value == bytes "\"utf-8\""

/-! ## Problem responses -/

/-- An exception that a library call lets out. -/
inductive Thrown where
  | badAlloc
  | other
  deriving DecidableEq, Repr

/-- Places between two library calls at which an allocation may fail. -/
inductive Point where
  | preflight
  | lookup
  | decode
  | prepare
  | respond
  deriving DecidableEq, Repr

/-- What the handler calls outside its own file. -/
structure Library where
  statusMessage : Nat → Bytes
  parseJson : Bytes → JsonLimits → Except Thrown (Except CodecError Json)
  serializeJson : Json → JsonLimits → Except Thrown (Except CodecError Bytes)
  throws : Point → Option Thrown

def suffixFor : Nat → String
  | 400 => "invalid-request"
  | 404 => "not-found"
  | 405 => "method-not-allowed"
  | 413 => "request-too-large"
  | 415 => "unsupported-media-type"
  | 422 => "type-mismatch"
  | 501 => "json-unsupported"
  | 503 => "dispatch-unavailable"
  | 504 => "operation-timeout"
  | _ => "internal-error"

/-- The target without its query. -/
def Request.path (request : Request) : Bytes :=
  request.target.take ((findFrom request.target Route.question 0).getD request.target.length)

def problemBody (library : Library) (request : Request) (status : Nat) (suffix : Option String) :
    JsonObject :=
  let body : JsonObject :=
    [(bytes "type", .string (bytes "urn:rtt-http:error:" ++ bytes (suffix.getD (suffixFor status)))),
      (bytes "title", .string (library.statusMessage status)),
      (bytes "status", .int64 (Int64.ofNat status))]
  if request.path.length ≤ 512 ∧ validUtf8 request.path then
    JsonObject.set body (bytes "instance") (.string request.path)
  else body

/-- The reserve of a problem document. -/
def problemLimits : JsonLimits := { maxDocumentBytes := 4096, maxDepth := 8 }

def problemFallback : Bytes :=
  bytes ("\x7b\"type\":\"urn:rtt-http:error:internal-error\",\"title\":" ++
    "\"Internal Server Error\",\"status\":500\x7d")

/-- `problem`: the response, or an exception after the status was set. -/
def problem (library : Library) (request : Request) (response : Response) (status : Nat)
    (suffix : Option String) : Except Thrown Response :=
  match library.serializeJson (.object (problemBody library request status suffix)) problemLimits with
  | .error thrown => .error thrown
  | .ok (.ok encoded) =>
      .ok { response with
        status := some status, content := some (encoded, bytes "application/problem+json") }
  | .ok (.error _) =>
      .ok { response with
        status := some 500, content := some (problemFallback, bytes "application/problem+json") }

/-! ## Methods -/

def methodAllowed {Codec : Type} (resource : Resource Codec) (method : Bytes) : Bool :=
  if method = bytes "OPTIONS" then true
  else if method = bytes "GET" ∨ method = bytes "HEAD" then (bytes "GET").isPrefixOf resource.allow
  else if method = bytes "PUT" then decide (bytes "PUT" <:+: resource.allow)
  else method == bytes "POST" && (bytes "POST").isPrefixOf resource.allow

def responseOverflow (error : CodecError) : Bool :=
  error.code == .documentLimit || error.code == .allocationLimit

end RttHttp.Http
