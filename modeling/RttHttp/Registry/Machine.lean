import RttHttp.Graph.Search
import RttHttp.Registry.Protocol

/-! # The type registry

The registry records which protocol it stored in slot 1043 of which type. Types
are identified by their addresses, and RTT gives every type one name. The slots
belong to RTT: `addProtocol` may refuse a protocol or throw, and then the slot
stays as it was.
-/

namespace RttHttp.Registry

open Model (TypeBinding TypeCatalog TypeRegistration bytesLt)

variable {formatter : Formatter} {Codec : Type}

/-- The address of a type. -/
abbrev TypeId := Nat

/-- What a slot holds: a protocol of this transport, or something else. -/
inductive Occupant (formatter : Formatter) (Codec : Type) where
  | foreign
  | protocol (protocol : TypeProtocol formatter Codec)

/-- The registry, with its entries in the order of iteration, and the slots of all types. -/
structure State (formatter : Formatter) (Codec : Type) where
  frozen : Bool := false
  registrations : List (TypeId × TypeProtocol formatter Codec) := []
  catalog : Option (TypeCatalog Codec) := none
  freezeError : Bytes := []
  slots : TypeId → Option (Occupant formatter Codec)

/-- The order in which `registrations` is iterated. -/
def addressLt (first second : TypeId) : Bool := first < second

/-- How `TypeInfo::addProtocol` ends. -/
inductive AddOutcome where
  | stored
  | rejected
  | threw
  deriving DecidableEq, Repr

/-- How a registration ends. -/
inductive Reply where
  | accepted
  | refused (error : Bytes)
  | threw
  deriving DecidableEq, Repr

section Calls

variable (typeName : TypeId → Bytes)

/-- A type whose slot is taken: only the recorded protocol may come again. -/
def registerTaken (state : State formatter Codec) (type : TypeId)
    (occupant : Occupant formatter Codec) (protocol : TypeProtocol formatter Codec) : Reply :=
  let conflict := Reply.refused
    (bytes "conflicting HTTP type protocol registration: " ++ typeName type)
  match occupant, state.registrations.lookup type with
  | .protocol existing, some known =>
      if existing.fingerprint = protocol.fingerprint ∧ known.address = existing.address then
        .accepted
      else conflict
  | _, _ => conflict

/-- A type whose slot is free. The entry is made first, and erased again when RTT
does not take the protocol. -/
def registerFree (state : State formatter Codec) (type : TypeId)
    (protocol : TypeProtocol formatter Codec) (outcome : AddOutcome) :
    Reply × State formatter Codec :=
  if state.frozen then
    (.refused (bytes "HTTP type catalog is frozen: " ++ typeName type), state)
  else if (state.registrations.lookup type).isSome then
    (.refused (bytes "HTTP protocol slot changed outside the registration API"), state)
  else match outcome with
    | .rejected => (.refused (bytes "RTT rejected HTTP type protocol registration"), state)
    | .threw => (.threw, state)
    | .stored =>
        (.accepted, { state with
          registrations := OrderedMap.emplace addressLt state.registrations type protocol
          slots := Function.update state.slots type (some (.protocol protocol)) })

def registerTypeProtocol (state : State formatter Codec) (type : Option TypeId)
    (protocol : Option (TypeProtocol formatter (Option Codec))) (outcome : AddOutcome) :
    Reply × State formatter Codec :=
  let invalid := (Reply.refused (bytes "invalid HTTP type protocol registration"), state)
  match type, protocol with
  | some type, some protocol =>
      match protocol.codec with
      | none => invalid
      | some codec =>
          if typeName type ≠ protocol.registration.rttType then invalid
          else match validateRegistration protocol.registration with
            | .error message => (.refused (bytes message), state)
            | .ok _ =>
                match state.slots type with
                | some occupant =>
                    (registerTaken typeName state type occupant (protocol.withCodec codec), state)
                | none => registerFree typeName state type (protocol.withCodec codec) outcome
  | _, _ => invalid

def registeredTypeCodec (state : State formatter Codec) : Option TypeId → Option Codec
  | none => none
  | some type =>
      match state.registrations.lookup type, state.slots type with
      | some known, some (.protocol current) =>
          if current.address = known.address then some known.codec else none
      | _, _ => none

/-! ## Freezing -/

/-- `descriptor.at("kind")`, which throws when it is not there. -/
def descriptorKind (registration : TypeRegistration) : Option Json :=
  JsonObject.find? registration.descriptor (bytes "kind")

def isText (value : Json) (text : String) : Bool :=
  match value with
  | .string found => found == bytes text
  | _ => false

/-- The slot still holds the recorded protocol. -/
def slotKept (state : State formatter Codec)
    (entry : TypeId × TypeProtocol formatter Codec) : Bool :=
  match state.slots entry.1 with
  | some (.protocol current) => current.address = entry.2.address
  | _ => false

def bindingOf (protocol : TypeProtocol formatter Codec) : TypeBinding Codec :=
  ⟨protocol.registration, protocol.codec⟩

/-- The catalog that the first loop builds. -/
def stagedCatalog (registrations : List (TypeId × TypeProtocol formatter Codec)) :
    TypeCatalog Codec where
  types := OrderedMap.emplaceAll bytesLt []
    (registrations.map fun entry => (typeName entry.1, bindingOf entry.2))
  identities := OrderedMap.emplaceAll addressLt []
    (registrations.map fun entry => (entry.1, typeName entry.1))

/-- What the search refuses about a dependency; `noKind` when `at` throws. -/
inductive Reason where
  | missing (dependency : Bytes)
  | notInteger
  | noKind
  deriving DecidableEq, Repr

/-- The dependencies of a type that is in the catalog. -/
def dependenciesOf (catalog : TypeCatalog Codec) (name : Bytes) : Option (List Bytes) :=
  (catalog.findName name).map fun binding => binding.registration.dependencies

/-- The underlying type of an enum must be an integer. -/
def inspectKinds (definition referenced : TypeRegistration) : Option Reason :=
  match descriptorKind definition with
  | none => some .noKind
  | some kind =>
      if isText kind "enum" then
        match descriptorKind referenced with
        | none => some .noKind
        | some underlying => if isText underlying "integer" then none else some .notInteger
      else none

/-- The checks of one dependency before the marks are looked at. -/
def inspectDependency (catalog : TypeCatalog Codec) (current dependency : Bytes) : Option Reason :=
  match catalog.findName dependency with
  | none => some (.missing dependency)
  | some referenced =>
      (catalog.findName current).bind fun definition =>
        inspectKinds definition.registration referenced.registration

/-- The depth-first search over a catalog. -/
def searchCatalog (catalog : TypeCatalog Codec) :
    Except (Graph.Stop Bytes Reason) (Bytes → Graph.Mark) :=
  let names := catalog.types.map Prod.fst
  Graph.exploreAll (dependenciesOf catalog) (inspectDependency catalog)
    (Graph.totalWork (dependenciesOf catalog) names) names fun _ => .fresh

/-- The error text of a search that stopped; `none` for a fault of the search itself. -/
def stopText : Graph.Stop Bytes Reason → Option Bytes
  | .refused (.missing dependency) => some (bytes "missing HTTP type dependency: " ++ dependency)
  | .refused .notInteger => some (bytes "HTTP enum underlying type is not an integer")
  | .cycle dependency => some (bytes "recursive HTTP type definition: " ++ dependency)
  | .refused .noKind | .absent _ | .outOfFuel => none

/-- How a freeze ends: with a catalog or a null pointer, and the error text. -/
inductive FreezeReply (Codec : Type) where
  | returned (catalog : Option (TypeCatalog Codec)) (error : Bytes)
  | threw

def notFrozen : Bytes := bytes "HTTP type catalog could not be frozen"

def slotChanged : Bytes := bytes "HTTP type protocol slot changed outside the registration API"

/-- The state that every first freeze starts with, and keeps when it throws. -/
def State.marked (state : State formatter Codec) : State formatter Codec :=
  { state with frozen := true, freezeError := notFrozen }

/-- A freeze that ends with a null pointer. -/
def freezeFailed (state : State formatter Codec) (text : Bytes) :
    FreezeReply Codec × State formatter Codec :=
  (.returned none text, { state.marked with freezeError := text })

/-- The search over the catalog, after every slot was found as it was left. -/
def freezeStaged (state : State formatter Codec) : FreezeReply Codec × State formatter Codec :=
  match searchCatalog (stagedCatalog typeName state.registrations) with
  | .ok _ =>
      (.returned (some (stagedCatalog typeName state.registrations)) [],
        { state.marked with
          catalog := some (stagedCatalog typeName state.registrations), freezeError := [] })
  | .error stop =>
      match stopText stop with
      | some text => freezeFailed state text
      | none => (.threw, state.marked)

/-- `freezeTypeCatalog`; `exhausted` when memory runs out while it builds the catalog. -/
def freezeTypeCatalog (state : State formatter Codec) (exhausted : Bool) :
    FreezeReply Codec × State formatter Codec :=
  if state.frozen then (.returned state.catalog state.freezeError, state)
  else if exhausted then (.threw, state.marked)
  else if state.registrations.all (slotKept state) then freezeStaged typeName state
  else freezeFailed state slotChanged

end Calls

end RttHttp.Registry
