import RttHttp.Codec.Measure
import RttHttp.Server.Options

/-! # Reflected codecs

A `ReflectedCodec` converts a structure member by member, or a sequence element by
element, through the codecs of its parts. RTT values are finite trees; `getMember`
looks a part up. Building, resizing and assigning fresh storage is taken to
succeed, as the registration probe found it to.
-/

namespace RttHttp.Codec

open Server (intMax)

/-- The codec of a type: a typed conversion, or the members RTT reports. A
sequence may have a fixed length. -/
inductive TypeCodec where
  | typed (code : Code)
  | record (type : Nat) (members : List (Bytes × TypeCodec))
  | sequence (type : Nat) (length : Option Nat) (element : TypeCodec)

/-- A value of an RTT type. -/
inductive Value where
  | typed (code : Code) (value : code.Value)
  | record (type : Nat) (members : List (Bytes × Value))
  | sequence (type : Nat) (items : List Value)

/-- What identifies a type: `getTypeInfo()`. -/
inductive TypeIdentity where
  | typed (code : Code)
  | reflected (type : Nat)
  deriving DecidableEq, Repr

def TypeCodec.identity : TypeCodec → TypeIdentity
  | .typed code => .typed code
  | .record type _ | .sequence type _ _ => .reflected type

def Value.identity : Value → TypeIdentity
  | .typed code _ => .typed code
  | .record type _ | .sequence type _ => .reflected type

/-- Leave `false` to the caller without a reported error. -/
def silent {α : Type} (output : α) (context : CodecContext) : Result α :=
  ⟨.failed none, output, context⟩

/-- A part that is there and has the expected type. -/
def typedPart (part : Option Value) (type : TypeIdentity) : Option Value :=
  part.filter fun value => value.identity = type

/-- Go on with a part of the expected type. -/
def withPart {α : Type} (part : Option Value) (type : TypeIdentity) (output : α)
    (context : CodecContext) (rest : Value → CodecContext → Result α) : Result α :=
  match typedPart part type with
  | some value => rest value context
  | none => silent output context

/-! ## Encoding -/

mutual

/-- `TypedTypeCodec::toJson` and `ReflectedCodec::toJson`. -/
def toJson : TypeCodec → Value → Json → CodecContext → Result Json
  | .typed code, .typed found value, result, context =>
      if h : found = code then staged (encode code (h ▸ value) .null context) result id
      else fail .invalidDataSource result context
  | .typed _, _, result, context => fail .invalidDataSource result context
  | .record type members, source, result, context =>
      withScope result context fun context =>
        match source with
        | .record found parts =>
            if found = type then
              charged 2 result context fun context =>
                staged (toJsonMembers members parts [] context) result .object
            else fail .invalidDataSource result context
        | _ => fail .invalidDataSource result context
  | .sequence type length element, source, result, context =>
      withScope result context fun context =>
        match source with
        | .sequence found items =>
            if found = type then
              charged 2 result context fun context =>
                if intMax < items.length ∨ length.any (· ≠ items.length) then
                  fail .invalidDataSource result context
                else
                  charged items.length result context fun context =>
                    staged (convertAll (fun item result context =>
                      withPart (some item) element.identity result context fun item context =>
                        toJson element item result context) .null items [] context) result .array
            else fail .invalidDataSource result context
        | _ => fail .invalidDataSource result context

/-- The loop over the members of a structure. -/
def toJsonMembers : List (Bytes × TypeCodec) → List (Bytes × Value) → JsonObject → CodecContext →
    Result JsonObject
  | [], _, object, context => ⟨.converted, object, context⟩
  | (name, codec) :: rest, parts, object, context =>
      chargedString name object context fun context =>
        charged 2 object context fun context =>
          withPart (parts.lookup name) codec.identity object context fun part context =>
            andThen (toJson codec part .null context) object fun value context =>
              toJsonMembers rest parts (JsonObject.emplace object name value) context

end

/-! ## Decoding -/

mutual

/-- `makeDataSource`; the output is the returned pointer. -/
def makeDataSource : TypeCodec → Json → CodecContext → Result (Option Value)
  | .typed code, value, context =>
      staged (decode code value code.initial context) none fun value => some (.typed code value)
  | .record type members, value, context =>
      withScope none context fun context =>
        match value with
        | .object object =>
            if object.length ≠ members.length then fail .typeMismatch none context
            else match members.find? fun member => !JsonObject.contains object member.1 with
              | some missing => ⟨.failure .typeMismatch missing.1, none, context⟩
              | none =>
                  staged (makeMembers members object [] context) none fun parts =>
                    some (.record type parts)
        | _ => fail .typeMismatch none context
  | .sequence type length element, value, context =>
      withScope none context fun context =>
        match value with
        | .array items =>
            if length.any (· ≠ items.length) ∨ intMax < items.length then
              fail .typeMismatch none context
            else
              charged items.length none context fun context =>
                staged (convertAll (fun item _ context => makeDataSource element item context) none
                  items [] context) none fun parts => some (.sequence type parts.reduceOption)
        | _ => fail .typeMismatch none context

/-- The loop over the members of a structure. -/
def makeMembers : List (Bytes × TypeCodec) → JsonObject → List (Bytes × Value) → CodecContext →
    Result (List (Bytes × Value))
  | [], _, parts, context => ⟨.converted, parts, context⟩
  | (name, codec) :: rest, object, parts, context =>
      andThen (makeDataSource codec ((JsonObject.find? object name).getD .null) context) parts
        fun part context =>
          makeMembers rest object (parts ++ (part.map fun part => (name, part)).toList) context

end

/-- The arguments that `prepareInvocation` decodes, all on one context. -/
def makeArguments (codecs : List TypeCodec) (arguments : List Json) (context : CodecContext) :
    Result (List Value) :=
  if arguments.length ≠ codecs.length then fail .typeMismatch [] context
  else
    staged (convertAll (fun input _ context => makeDataSource input.1 input.2 context) none
      (codecs.zip arguments) [] context) [] List.reduceOption

end RttHttp.Codec
