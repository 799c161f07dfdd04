import RttHttp.Json.Output
import RttHttp.Machine.OrderedMap
import RttHttp.Model.Describe
import Mathlib.Data.List.Dedup

/-! # Type protocols

A `TypeProtocol` carries the registration of a codec in canonical form together
with its fingerprint: the serialized identity of the registration.
-/

namespace RttHttp.Registry

open Codec (JsonLimits)
open Model (TypeRegistration bytesLt)

/-- What a fingerprint needs from Boost.JSON: how a `double` is written, and the
exception for a registration whose canonical form does not fit into memory. -/
structure Formatter where
  double : Double → Bytes
  exhausted : TypeRegistration → Option Bytes

/-! ## Fingerprints -/

mutual

def canonicalJson : Json → Json
  | .object members => .object (canonicalMembers members [])
  | .array items => .array (canonicalItems items)
  | value => value

def canonicalItems : List Json → List Json
  | [] => []
  | item :: rest => canonicalJson item :: canonicalItems rest

/-- The members of an object, sorted by name. -/
def canonicalMembers : List (Bytes × Json) → (sorted : JsonObject) → JsonObject
  | [], sorted => sorted
  | (key, item) :: rest, sorted =>
      canonicalMembers rest (OrderedMap.emplace bytesLt sorted key (canonicalJson item))

end

def fingerprintLimits : JsonLimits := { maxDocumentBytes := 65536, maxDepth := 32 }

def identity (registration : TypeRegistration) : Json :=
  .array [.string registration.providerId, .string registration.providerVersion,
    .string registration.codecId, .string registration.codecVersion,
    .string registration.rttType, canonicalJson (.object registration.descriptor),
    .array (registration.dependencies.map .string)]

/-- The fingerprint, or what the exception says. -/
def fingerprint (formatter : Formatter) (registration : TypeRegistration) : Except Bytes Bytes :=
  match serializeJson formatter.double (.object registration.descriptor) fingerprintLimits with
  | .error _ => .error (bytes "invalid HTTP codec descriptor")
  | .ok _ =>
      match formatter.exhausted registration with
      | some what => .error what
      | none =>
          match serializeJson formatter.double (identity registration) fingerprintLimits with
          | .error _ => .error (bytes "invalid HTTP codec registration")
          | .ok text => .ok text

/-- Sorted dependencies without repetitions, and the two members that every
supported descriptor has. -/
def normalize (registration : TypeRegistration) : TypeRegistration :=
  { registration with
    dependencies :=
      (registration.dependencies.insertionSort fun a b => bytesLt b a = false).dedup
    descriptor := JsonObject.set
      (JsonObject.set registration.descriptor (bytes "jsonSupported") (.bool true))
      (bytes "reason") .null }

theorem mem_normalize_dependencies {registration : TypeRegistration} {name : Bytes} :
    name ∈ (normalize registration).dependencies ↔ name ∈ registration.dependencies := by
  simp only [normalize, List.mem_dedup]
  exact (List.perm_insertionSort ..).mem_iff

/-- A constructed protocol; `address` is where the object lives. Its codec may be
a null pointer, which `Pointer` then allows for. -/
structure TypeProtocol (formatter : Formatter) (Pointer : Type) where
  address : Nat
  registration : TypeRegistration
  codec : Pointer
  fingerprint : Bytes
  fingerprint_eq : Registry.fingerprint formatter registration = .ok fingerprint

variable {Pointer : Type}

/-- The constructor, which throws when the registration has no fingerprint. -/
def TypeProtocol.make (formatter : Formatter) (address : Nat) (registration : TypeRegistration)
    (codec : Pointer) : Except Bytes (TypeProtocol formatter Pointer) :=
  match h : Registry.fingerprint formatter (normalize registration) with
  | .error what => .error what
  | .ok text => .ok ⟨address, normalize registration, codec, text, h⟩

/-- The protocol with a codec in place of the pointer to it. -/
def TypeProtocol.withCodec {formatter : Formatter} {Codec : Type}
    (protocol : TypeProtocol formatter Pointer) (codec : Codec) : TypeProtocol formatter Codec where
  address := protocol.address
  registration := protocol.registration
  codec := codec
  fingerprint := protocol.fingerprint
  fingerprint_eq := protocol.fingerprint_eq

/-! ## Validation -/

def validName (value : Bytes) : Bool :=
  !value.isEmpty && value.length ≤ 1024 && validUtf8 value && !value.contains 0

/-- `hasString`, with the string: the member, when it is a valid name. -/
def nameMember (object : JsonObject) (key : Bytes) : Option Bytes :=
  match JsonObject.find? object key with
  | some (.string text) => if validName text then some text else none
  | _ => none

/-- The width of a numeric descriptor. -/
def descriptorBits (descriptor : JsonObject) : Option Int :=
  match JsonObject.find? descriptor (bytes "bits") with
  | some (.int64 bits) =>
      if bits.toInt ∈ [8, 16, 32, 64] then some bits.toInt else none
  | _ => none

def validInteger (descriptor : JsonObject) (bits : Int) : Bool :=
  (match JsonObject.find? descriptor (bytes "signed") with
    | some (.bool _) => true
    | _ => false) &&
  match JsonObject.find? descriptor (bytes "encoding") with
  | some (.string encoding) =>
      encoding == if bits = 64 then bytes "decimalString" else bytes "number"
  | _ => false

def validFloat (descriptor : JsonObject) (bits : Int) : Bool :=
  (bits == 32 || bits == 64) &&
  match JsonObject.find? descriptor (bytes "nonFinite") with
  | some (.array [.string nan, .string positive, .string negative]) =>
      nan == bytes "NaN" && positive == bytes "Infinity" && negative == bytes "-Infinity"
  | _ => false

def validLength (descriptor : JsonObject) : Bool :=
  match JsonObject.find? descriptor (bytes "length") with
  | some .null => true
  | some (.int64 length) => 0 ≤ length.toInt
  | _ => false

/-- The loop over the fields of an object descriptor. -/
def fieldReferences : List Json → (names references : List Bytes) → Option (List Bytes)
  | [], _, references => some references
  | .object field :: rest, names, references =>
      match nameMember field (bytes "name"), nameMember field (bytes "rttType") with
      | some name, some type =>
          if name ∈ names then none else fieldReferences rest (name :: names) (type :: references)
      | _, _ => none
  | _ :: _, _, _ => none

/-- The type names that a descriptor of the given kind refers to. -/
def descriptorReferences (descriptor : JsonObject) (kind : Bytes) : Except String (List Bytes) :=
  if kind = bytes "integer" ∨ kind = bytes "float" then
    match descriptorBits descriptor with
    | none => .error "invalid HTTP numeric descriptor width"
    | some bits =>
        if kind = bytes "integer" then
          if validInteger descriptor bits then .ok [] else .error "invalid HTTP integer descriptor"
        else if validFloat descriptor bits then .ok []
        else .error "invalid HTTP floating-point descriptor"
  else if kind = bytes "string" then
    match JsonObject.find? descriptor (bytes "encoding") with
    | some (.string encoding) =>
        if encoding = bytes "utf8" then .ok [] else .error "invalid HTTP string descriptor"
    | _ => .error "invalid HTTP string descriptor"
  else if kind = bytes "enum" then
    match nameMember descriptor (bytes "underlyingType") with
    | some type => .ok [type]
    | none => .error "invalid HTTP enum descriptor"
  else if kind = bytes "array" then
    match nameMember descriptor (bytes "elementType") with
    | some type =>
        if validLength descriptor then .ok [type] else .error "invalid HTTP array descriptor"
    | none => .error "invalid HTTP array descriptor"
  else if kind = bytes "object" then
    match JsonObject.find? descriptor (bytes "fields") with
    | some (.array fields) =>
        match fieldReferences fields [] [] with
        | some references => .ok references
        | none => .error "invalid HTTP object field descriptor"
    | _ => .error "invalid HTTP object descriptor"
  else if kind = bytes "boolean" ∨ kind = bytes "void" then .ok []
  else .error "unsupported HTTP descriptor kind"

/-- The parts of a registration that must be valid names. -/
def identityParts (registration : TypeRegistration) : List Bytes :=
  [registration.providerId, registration.providerVersion, registration.codecId,
    registration.codecVersion, registration.rttType]

def validateRegistration (registration : TypeRegistration) : Except String Unit :=
  if (identityParts registration).all validName then
    match nameMember registration.descriptor (bytes "kind") with
    | none => .error "missing HTTP descriptor kind"
    | some kind =>
        match descriptorReferences registration.descriptor kind with
        | .error message => .error message
        | .ok references =>
            if references ⊆ registration.dependencies ∧ registration.dependencies ⊆ references then
              .ok ()
            else .error "HTTP descriptor dependencies do not match references"
  else .error "invalid HTTP codec identity"

theorem kind_of_valid {registration : TypeRegistration}
    (h : validateRegistration registration = .ok ()) :
    ∃ kind, JsonObject.find? registration.descriptor (bytes "kind") = some (.string kind) := by
  unfold validateRegistration at h
  split at h
  next =>
    split at h
    next => cases h
    next kind hkind =>
      unfold nameMember at hkind
      split at hkind
      next text hfound => exact ⟨text, hfound⟩
      next => cases hkind
  next => cases h

/-! ## What a fingerprint determines -/

theorem fingerprint_ok {formatter : Formatter} {registration : TypeRegistration} {text : Bytes}
    (h : fingerprint formatter registration = .ok text) :
    text = serialize formatter.double (identity registration) ∧ text.length ≤ 65536 := by
  unfold fingerprint at h
  split at h
  next => cases h
  next =>
    split at h
    next => cases h
    next =>
      split at h
      next => cases h
      next found hfound =>
        cases h
        exact serializeJson_ok hfound

/-- Equal fingerprints belong to one type name. -/
theorem rttType_eq_of_fingerprint {formatter : Formatter} {first second : TypeRegistration}
    {text : Bytes} (hfirst : fingerprint formatter first = .ok text)
    (hsecond : fingerprint formatter second = .ok text) : first.rttType = second.rttType := by
  have h := (fingerprint_ok hfirst).1.symm.trans (fingerprint_ok hsecond).1
  simp only [identity, serialize, serializeItems, List.isEmpty_cons, Bool.false_eq_true, if_false,
    List.append_assoc, List.cons_append] at h
  -- The identity starts with five strings, each ended by its closing quote.
  have hcancel : ∀ {a b x y : Bytes}, quoted a ++ comma :: x = quoted b ++ comma :: y →
      a = b ∧ x = y := by
    intro a b x y hquoted
    obtain ⟨hname, hrest⟩ := quoted_cancel hquoted
    exact ⟨hname, (List.cons.inj hrest).2⟩
  obtain ⟨-, h⟩ := hcancel (List.cons.inj h).2
  obtain ⟨-, h⟩ := hcancel h
  obtain ⟨-, h⟩ := hcancel h
  obtain ⟨-, h⟩ := hcancel h
  exact (hcancel h).1

end RttHttp.Registry
