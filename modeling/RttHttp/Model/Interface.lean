import RttHttp.Json.Value
import RttHttp.Text.Utf8

/-! # What the object model reads from RTT

RTT objects are identified by their addresses. A service answers the queries
that publication makes; every query may also come back empty.
-/

namespace RttHttp.Model

structure TypeInfo where
  address : Nat
  typeName : Bytes
  deriving DecidableEq, Repr

structure DataSource where
  address : Nat
  typeInfo : Option TypeInfo
  assignable : Bool
  deriving DecidableEq, Repr

structure Property where
  source : Option DataSource
  description : Bytes

structure Attribute where
  source : Option DataSource

structure ArgumentDescription where
  name : Bytes
  description : Bytes
  type : Bytes

/-- `RTT::OperationInterfacePart`. Argument 0 is the result; arguments and
collected values count from 1. `ownThread` is the thread of its implementation. -/
structure OperationPart where
  address : Nat
  description : Bytes
  argumentList : List ArgumentDescription
  arity : Nat
  argumentType : Nat → Option TypeInfo
  collectArity : Nat
  collectType : Nat → Option TypeInfo
  ownThread : Bool

/-- A port with the outcome of its two casts. `connects` tells whether its
anti-clone has the opposite direction and can be connected to it. -/
structure Port where
  address : Nat
  description : Bytes
  output : Bool
  input : Bool
  typeInfo : Option TypeInfo
  keepsLastWrittenValue : Bool
  connects : Bool
  deriving DecidableEq, Repr

structure Service where
  doc : Bytes
  providerNames : List Bytes
  getService : Bytes → Option Nat
  propertyNames : List Bytes
  getProperty : Bytes → Option Property
  attributeNames : List Bytes
  getValue : Bytes → Option Attribute
  operationNames : List Bytes
  getOperation : Bytes → Option OperationPart
  portNames : List Bytes
  getPort : Bytes → Option Port

/-- `RTT::TaskContext`: its identity, its name and its root service. -/
structure TaskContext where
  address : Nat
  name : Bytes
  provides : Option Nat

structure TypeRegistration where
  providerId : Bytes
  providerVersion : Bytes
  codecId : Bytes
  codecVersion : Bytes
  rttType : Bytes
  descriptor : JsonObject
  dependencies : List Bytes

variable {Codec : Type}

structure TypeBinding (Codec : Type) where
  registration : TypeRegistration
  codec : Codec

/-- `TypeCodec::supportsPortValue`. -/
class PortReader (Codec : Type) where
  supportsPortValue : Codec → Bool

structure TypeCatalog (Codec : Type) where
  types : List (Bytes × TypeBinding Codec)
  identities : List (Nat × Bytes)

namespace TypeCatalog

def findName (catalog : TypeCatalog Codec) (name : Bytes) : Option (TypeBinding Codec) :=
  catalog.types.lookup name

/-- Look a type up by its identity; no type has the null identity. -/
def find (catalog : TypeCatalog Codec) : Option TypeInfo → Option (TypeBinding Codec)
  | none => none
  | some type => (catalog.identities.lookup type.address).bind catalog.findName

end TypeCatalog

def typeName : Option TypeInfo → Bytes
  | some type => type.typeName
  | none => bytes "unknown_t"

/-- `std::isspace` in the C locale. -/
def isSpace (c : UInt8) : Bool := c == 0x20 || (0x09 ≤ c && c ≤ 0x0d)

def isMutableReference (type : Bytes) : Bool :=
  let type := (type.reverse.dropWhile isSpace).reverse.dropWhile isSpace
  type.getLast? == some 0x26 && !(bytes "const ").isPrefixOf type

end RttHttp.Model
