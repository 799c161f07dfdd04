import RttHttp.Registry.History

/-! # Automatic reflection

`makeReflectedTypeProtocol` probes a fresh value of a type: the elements of a
sequence, or the named members of a structure. `registerReflectedTypeProtocols`
tries the types that have no codec yet again and again, until a whole pass over
them registers nothing.
-/

namespace RttHttp.Registry

open Model (TypeRegistration bytesLt setInsert)

variable {formatter : Formatter} {Codec : Type}

/-! ## Probes -/

/-- An exception out of RTT: one that has a message, or anything else. -/
inductive ProbeFault where
  | standard (what : Bytes)
  | foreign
  deriving DecidableEq, Repr

abbrev Probed (α : Type) := Except ProbeFault α

/-- A part of a prototype. -/
structure Part where
  type : Option TypeId
  assignable : Bool
  deriving DecidableEq, Repr

/-- What RTT answers about a type. Building a prototype tells whether it is
assignable; the size of a sequence is read before and after it was resized. -/
structure Probe where
  memberFactory : Probed Bool
  buildValue : Probed (Option Bool)
  element : Probed (Option Part)
  size : Probed (Option Int)
  resize : Probed Bool
  sizeAgain : Probed Int
  memberNames : Probed (List Bytes)
  member : Bytes → Probed (Option Part)

/-- Why no protocol was made: a diagnostic, or an exception that escaped. -/
inductive Refusal where
  | unsupported (text : Bytes)
  | escaped
  deriving DecidableEq, Repr

/-- The handler around the whole function: exceptions with a message become diagnostics. -/
def caught {α : Type} : Probed α → Except Refusal α
  | .ok value => .ok value
  | .error (.standard what) => .error (.unsupported (bytes "RTT reflection failed: " ++ what))
  | .error .foreign => .error .escaped

def unsupported {α : Type} (text : String) : Except Refusal α := .error (.unsupported (bytes text))

/-! ## One type -/

structure Member (Codec : Type) where
  name : Bytes
  type : TypeId
  codec : Codec

/-- The state of a `ReflectedCodec`. -/
structure ReflectedCodec (Codec : Type) where
  type : TypeId
  sequence : Bool
  length : Option Int
  members : List (Member Codec)

/-- What reflection works with: the names and probes of the types, the conversion
of a reflected codec to a codec, the allocator and the outcome of `addProtocol`. -/
structure World (Codec : Type) where
  typeName : TypeId → Bytes
  probe : TypeId → Probe
  codec : ReflectedCodec Codec → Codec
  allocate : TypeId → Nat
  addProtocol : TypeId → AddOutcome

section Probing

variable (typeName : TypeId → Bytes) (codecOf : Option TypeId → Option Codec)

/-- `addMember`: a part that is assignable and whose type has a codec. -/
def addMember (name : Bytes) (value : Option Part) : Option (Member Codec) :=
  match value with
  | none => none
  | some part =>
      match part.type, codecOf part.type with
      | some type, some codec =>
          if part.assignable ∧ typeName type ≠ bytes "Void" then some ⟨name, type, codec⟩ else none
      | _, _ => none

/-- The element and the fixed length, if there is one, of a sequence. -/
def reflectSequence (probe : Probe) (element : Part) :
    Except Refusal (Member Codec × Option Int) :=
  match addMember typeName codecOf [] (some element) with
  | none => unsupported "missing HTTP sequence element codec or assignable element metadata"
  | some member => do
      let size ← caught probe.size
      match size with
      | none => unsupported "RTT sequence has no valid size metadata"
      | some size =>
          if size < 0 then unsupported "RTT sequence has no valid size metadata"
          else do
            let resized ← caught probe.resize
            if resized then return (member, none)
            else do
              let length ← caught probe.sizeAgain
              return (member, some length)

/-- The loop over the names of a structure. -/
def reflectFields (probe : Probe) :
    List Bytes → (seen : List Bytes) → List (Member Codec) → Except Refusal (List (Member Codec))
  | [], _, members => .ok members
  | name :: rest, seen, members =>
      if name.isEmpty ∨ validUtf8 name = false ∨ name ∈ seen then
        unsupported "RTT structure has invalid or duplicate field metadata"
      else do
        let value ← caught (probe.member name)
        match addMember typeName codecOf name value with
        | none =>
            .error (.unsupported
              (bytes "missing HTTP field codec or assignable metadata: " ++ name))
        | some member => reflectFields probe rest (name :: seen) (members ++ [member])

/-- What the probes found out. -/
inductive Shape (Codec : Type) where
  | sequence (element : Member Codec) (length : Option Int)
  | record (members : List (Member Codec))

/-- The shape of a structure. -/
def reflectRecord (probe : Probe) : Except Refusal (Shape Codec) := do
  let names ← caught probe.memberNames
  if names.isEmpty then unsupported "RTT type has no complete structure or sequence metadata"
  else do
    let members ← reflectFields typeName codecOf probe names [] []
    return .record members

def reflectShape (probe : Probe) : Except Refusal (Shape Codec) := do
  let factory ← caught probe.memberFactory
  if factory = false then unsupported "RTT type has no structural member metadata"
  else do
    let prototype ← caught probe.buildValue
    if prototype ≠ some true then unsupported "RTT type cannot construct owned assignable storage"
    else do
      let element ← caught probe.element
      match element with
      | some element => do
          let (member, length) ← reflectSequence typeName codecOf probe element
          return .sequence member length
      | none => reflectRecord typeName codecOf probe

end Probing

/-! ## Registrations of shapes -/

def sequenceDescriptor (elementType : Bytes) (length : Option Int) : JsonObject :=
  [(bytes "kind", .string (bytes "array")), (bytes "elementType", .string elementType),
    (bytes "length", match length with
      | some length => .int64 (Int64.ofInt length)
      | none => .null)]

/-- The descriptor of a structure, from the names and type names of its fields. -/
def recordDescriptor (fields : List (Bytes × Bytes)) : JsonObject :=
  [(bytes "kind", .string (bytes "object")),
    (bytes "fields", .array (fields.map fun field => .object
      [(bytes "name", .string field.1), (bytes "rttType", .string field.2)]))]

/-- The identity under which reflected types are registered. -/
def reflectionIdentity (name : Bytes) : TypeRegistration where
  providerId := bytes "orocos.rtt.http.reflection"
  providerVersion := bytes "1"
  codecId := name
  codecVersion := bytes "1"
  rttType := []
  descriptor := []
  dependencies := []

/-- An identity completed with what the probes found out. -/
def reflectedRegistration (identity : TypeRegistration) (name : Bytes) (descriptor : JsonObject)
    (dependencies : List Bytes) : TypeRegistration :=
  { identity with
    rttType := name, descriptor := descriptor, dependencies := dependencies.foldl setInsert [] }

namespace Shape

def members {Codec : Type} : Shape Codec → List (Member Codec)
  | .sequence element _ => [element]
  | .record members => members

def descriptor (typeName : TypeId → Bytes) : Shape Codec → JsonObject
  | .sequence element length => sequenceDescriptor (typeName element.type) length
  | .record members =>
      recordDescriptor (members.map fun member => (member.name, typeName member.type))

def registration (typeName : TypeId → Bytes) (shape : Shape Codec) (type : TypeId)
    (identity : TypeRegistration) : TypeRegistration :=
  reflectedRegistration identity (typeName type) (shape.descriptor typeName)
    (shape.members.map fun member => typeName member.type)

/-- The arguments of the codec's constructor. -/
def codec (shape : Shape Codec) (type : TypeId) : ReflectedCodec Codec :=
  match shape with
  | .sequence element length => ⟨type, true, length, [element]⟩
  | .record members => ⟨type, false, none, members⟩

end Shape

variable (world : World Codec) (state : State formatter Codec)

def makeReflectedTypeProtocol (type : TypeId) (identity : TypeRegistration) :
    Except Refusal (TypeProtocol formatter (Option Codec)) := do
  let shape ← reflectShape world.typeName (registeredTypeCodec state) (world.probe type)
  match TypeProtocol.make formatter (world.allocate type)
      (shape.registration world.typeName type identity) (some (world.codec (shape.codec type))) with
  | .error what => caught (.error (.standard what))
  | .ok protocol => return protocol

/-! ## All types -/

/-- `unresolved[name] = text`. -/
def noteUnresolved (unresolved : List (Bytes × Bytes)) (name text : Bytes) : List (Bytes × Bytes) :=
  OrderedMap.emplace bytesLt (unresolved.filter fun entry => entry.1 ≠ name) name text

/-- The outcome for one pending type. -/
inductive Attempt (formatter : Formatter) (Codec : Type) where
  | registered (state : State formatter Codec)
  | unresolved (text : Bytes)
  | escaped

def attempt (type : TypeId) : Attempt formatter Codec :=
  match makeReflectedTypeProtocol world state type (reflectionIdentity (world.typeName type)) with
  | .error (.unsupported text) => .unresolved text
  | .error .escaped => .escaped
  | .ok protocol =>
      match registerTypeProtocol world.typeName state (some type) (some protocol)
          (world.addProtocol type) with
      | (.accepted, state) => .registered state
      | (.refused text, _) => .unresolved text
      | (.threw, _) => .escaped

/-- The variables of the loop; `kept` are the types that stay pending. -/
structure Reflection (formatter : Formatter) (Codec : Type) where
  state : State formatter Codec
  unresolved : List (Bytes × Bytes)
  kept : List TypeId := []
  progress : Bool := false

/-- A type was registered: its diagnostic is erased. -/
def Reflection.resolve (loop : Reflection formatter Codec) (name : Bytes)
    (state : State formatter Codec) : Reflection formatter Codec :=
  { loop with
    state := state
    unresolved := loop.unresolved.filter fun entry => entry.1 ≠ name
    progress := true }

/-- A type stays pending, with a diagnostic. -/
def Reflection.keep (loop : Reflection formatter Codec) (type : TypeId) (name text : Bytes) :
    Reflection formatter Codec :=
  { loop with
    unresolved := noteUnresolved loop.unresolved name text
    kept := loop.kept ++ [type] }

/-- One pass over the pending types; an exception leaves the registry as it is then. -/
def reflectPass : List TypeId → Reflection formatter Codec →
    Except (State formatter Codec) (Reflection formatter Codec)
  | [], loop => .ok loop
  | type :: rest, loop =>
      match attempt world loop.state type with
      | .registered state => reflectPass rest (loop.resolve (world.typeName type) state)
      | .unresolved text => reflectPass rest (loop.keep type (world.typeName type) text)
      | .escaped => .error loop.state

/-- How the whole loop ends. -/
inductive Outcome (formatter : Formatter) (Codec : Type) where
  | returned (state : State formatter Codec) (unresolved : List (Bytes × Bytes))
  | escaped (state : State formatter Codec)
  | outOfFuel

/-- The passes, until one registers nothing. -/
def reflectLoop : (fuel : Nat) → List TypeId → State formatter Codec → List (Bytes × Bytes) →
    Outcome formatter Codec
  | 0, _, _, _ => .outOfFuel
  | fuel + 1, pending, state, unresolved =>
      match reflectPass world pending { state := state, unresolved := unresolved } with
      | .error state => .escaped state
      | .ok loop =>
          if loop.progress then reflectLoop fuel loop.kept loop.state loop.unresolved
          else .returned loop.state loop.unresolved

/-- A type that is tried: it has no codec, and it is not the unknown type. -/
def isPending (type : TypeId) : Bool :=
  (registeredTypeCodec state (some type)).isNone && world.typeName type ≠ bytes "unknown_t"

/-- The pending set, in the order of iteration. -/
def pendingTypes (types : List (Option TypeId)) : List TypeId :=
  ((types.reduceOption.filter (isPending world state)).dedup).insertionSort (· ≤ ·)

/-- `registerReflectedTypeProtocols`; `types` is what the repository finds under its names. -/
def registerReflectedTypeProtocols (types : List (Option TypeId)) : Outcome formatter Codec :=
  reflectLoop world ((pendingTypes world state types).length + 1) (pendingTypes world state types)
    state []

end RttHttp.Registry
