import RttHttp.Codec.Described
import RttHttp.Registry.Schemas

/-! # Truthful schemas

The descriptor of a registered type is what clients learn about it. The codecs of the
canonical types and of the reflected types read exactly the JSON values that the
descriptors admit, and write no others.
-/

namespace RttHttp.Registry

open Codec (Code FloatType IntType TypeCodec Width makeDataSource toJson)
open Model (TypeCatalog)
open Server (intMax)

variable {formatter : Formatter}

/-! ## Reading descriptors -/

def textMember (object : JsonObject) (key : Bytes) : Option Bytes :=
  match JsonObject.find? object key with
  | some (.string text) => some text
  | _ => none

/-- The width and the sign that a numeric descriptor states. -/
def readInteger (descriptor : JsonObject) : Option (Schema Bytes) :=
  match JsonObject.find? descriptor (bytes "bits"), JsonObject.find? descriptor (bytes "signed"),
    textMember descriptor (bytes "encoding") with
  | some (.int64 bits), some (.bool signed), some encoding =>
      let low := if signed then -2 ^ (bits.toInt.toNat - 1) else 0
      let high := if signed then 2 ^ (bits.toInt.toNat - 1) - 1 else 2 ^ bits.toInt.toNat - 1
      some (.integer low high (encoding = bytes "decimalString"))
  | _, _, _ => none

def readFloat (descriptor : JsonObject) : Option (Schema Bytes) :=
  match JsonObject.find? descriptor (bytes "bits") with
  | some (.int64 bits) =>
      if bits.toInt = 32 then some (.float .w32)
      else if bits.toInt = 64 then some (.float .w64)
      else none
  | _ => none

def readArray (descriptor : JsonObject) : Option (Schema Bytes) :=
  match textMember descriptor (bytes "elementType"), JsonObject.find? descriptor (bytes "length") with
  | some element, some .null => some (.array element none)
  | some element, some (.int64 length) => some (.array element (some length.toInt.toNat))
  | _, _ => none

def readField : Json → Option (Bytes × Bytes)
  | .object field =>
      match textMember field (bytes "name"), textMember field (bytes "rttType") with
      | some name, some type => some (name, type)
      | _, _ => none
  | _ => none

def readObject (descriptor : JsonObject) : Option (Schema Bytes) :=
  match JsonObject.find? descriptor (bytes "fields") with
  | some (.array fields) => (fields.mapM readField).map .object
  | _ => none

/-- What a client makes of a descriptor; `Void` has no values. -/
def readSchema (descriptor : JsonObject) : Option (Schema Bytes) :=
  match textMember descriptor (bytes "kind") with
  | none => none
  | some kind =>
      if kind = bytes "boolean" then some .boolean
      else if kind = bytes "integer" then readInteger descriptor
      else if kind = bytes "float" then readFloat descriptor
      else if kind = bytes "string" then some .string
      else if kind = bytes "enum" then (textMember descriptor (bytes "underlyingType")).map .enum
      else if kind = bytes "array" then readArray descriptor
      else if kind = bytes "object" then readObject descriptor
      else none

/-- The members that are added to every descriptor say nothing about values. -/
theorem readSchema_normalize (registration : Model.TypeRegistration) :
    readSchema (normalize registration).descriptor = readSchema registration.descriptor := by
  have hfind : ∀ key : String, bytes key ≠ bytes "jsonSupported" → bytes key ≠ bytes "reason" →
      JsonObject.find? (normalize registration).descriptor (bytes key) =
        JsonObject.find? registration.descriptor (bytes key) := by
    intro key hsupported hreason
    rw [normalize, JsonObject.find?_set_ne _ hreason, JsonObject.find?_set_ne _ hsupported]
  unfold readSchema readInteger readFloat readArray readObject textMember
  rw [hfind "kind" (by decide) (by decide), hfind "bits" (by decide) (by decide),
    hfind "signed" (by decide) (by decide), hfind "encoding" (by decide) (by decide),
    hfind "underlyingType" (by decide) (by decide), hfind "elementType" (by decide) (by decide),
    hfind "length" (by decide) (by decide), hfind "fields" (by decide) (by decide)]

/-! ## The codecs of the protocols -/

/-- The codec of a protocol. There are no values of `Void`, and `VoidCodec`, which
decodes nothing, is `none`. -/
abbrev ProtocolCodec := Option TypeCodec

/-- The conversions that `canonicalProtocol` names. -/
def canonicalCodes (platform : Platform) : List (String × Code) :=
  [("Bool", .bool),
    ("Int8", .int ⟨true, .w8⟩), ("UInt8", .int ⟨false, .w8⟩),
    ("Int16", .int ⟨true, .w16⟩), ("UInt16", .int ⟨false, .w16⟩),
    ("Int32", .int ⟨true, .w32⟩), ("UInt32", .int ⟨false, .w32⟩),
    ("Int64", .int ⟨true, .w64⟩), ("UInt64", .int ⟨false, .w64⟩),
    ("Char", .int ⟨platform.charSigned, .w8⟩),
    ("Float32", .float .w32), ("Float64", .float .w64),
    ("String", .string),
    ("Float64Array", .vector (.float .w64)),
    ("Int32Array", .vector (.int ⟨true, .w32⟩)),
    ("StringArray", .vector .string),
    ("FlowStatus", .enum ⟨true, .w32⟩), ("WriteStatus", .enum ⟨true, .w32⟩),
    ("TaskState", .enum ⟨true, .w32⟩)] ++
  if platform.rtMalloc then [("RtString", .string)] else []

def canonicalCodec (platform : Platform) (name : String) : ProtocolCodec :=
  ((canonicalCodes platform).lookup name).map .typed

/-- `static_cast<std::size_t>` of an `int`. -/
def sizeOfInt (length : Int) : Nat := (length % 2 ^ 64).toNat

/-- A `ReflectedCodec` and the codecs of its members. -/
def reflectedCodec (codec : ReflectedCodec ProtocolCodec) : ProtocolCodec :=
  (codec.members.mapM fun member : Member ProtocolCodec =>
      member.codec.map fun found => (member.name, found)).bind fun members =>
    if codec.sequence then
      members.head?.map fun element => .sequence codec.type (codec.length.map sizeOfInt) element.2
    else some (.record codec.type members)

/-! ## Registries that tell the truth -/

/-- The schemas that the registered descriptors state. -/
def Published (typeName : TypeId → Bytes) (entries : Entries formatter ProtocolCodec)
    (name : Bytes) (schema : Schema Bytes) : Prop :=
  ∃ entry ∈ entries, typeName entry.1 = name ∧
    readSchema entry.2.registration.descriptor = some schema

/-- The codec of a name goes by the given schemas. -/
def GoesBy (schemas : Bytes → Schema Bytes → Prop) (name : Bytes) : ProtocolCodec → Prop
  | none => name = bytes "Void"
  | some codec => codec.Described schemas name

def Truthful (typeName : TypeId → Bytes) (entries : Entries formatter ProtocolCodec) : Prop :=
  ∀ entry ∈ entries, GoesBy (Published typeName entries) (typeName entry.1) entry.2.codec

section Registries

variable {typeName : TypeId → Bytes} {state after : State formatter ProtocolCodec} {type : TypeId}
  {protocol : TypeProtocol formatter ProtocolCodec}

theorem GoesBy.mono {schemas more : Bytes → Schema Bytes → Prop}
    (hmore : ∀ name schema, schemas name schema → more name schema) {name : Bytes}
    {codec : ProtocolCodec} (h : GoesBy schemas name codec) : GoesBy more name codec := by
  cases codec with
  | none => exact h
  | some codec => exact TypeCodec.Described.mono hmore h

/-- What is published stays published. -/
theorem published_of_adds (hadds : Adds typeName state type protocol after) {name : Bytes}
    {schema : Schema Bytes} (h : Published typeName state.registrations name schema) :
    Published typeName after.registrations name schema := by
  obtain ⟨entry, hentry, hname, hread⟩ := h
  exact ⟨entry, hadds.mem_iff.mpr (.inr hentry), hname, hread⟩

/-- The step lemma of truthful registries. -/
theorem Truthful.adds (h : Truthful typeName state.registrations)
    (hadds : Adds typeName state type protocol after)
    (hcodec : GoesBy (Published typeName after.registrations) (typeName type) protocol.codec) :
    Truthful typeName after.registrations := by
  intro entry hentry
  rcases hadds.mem_iff.mp hentry with rfl | hold
  · exact hcodec
  · exact (h entry hold).mono fun name schema => published_of_adds hadds

end Registries

/-! ## Canonical types -/

/-- The table's schema for a row, or for a type that the row depends on. -/
def rowSchema (platform : Platform) (row : CanonicalType) (name : Bytes) : Option (Schema Bytes) :=
  ((canonicalTypes platform).find? fun other =>
    bytes other.1 = name && (other.1 = row.1 || row.2.2.contains other.1)).bind
      fun other => readSchema other.2.1

/-- The codec of a row goes by the schemas of the row and of its dependencies. -/
theorem goesBy_canonical {platform : Platform} {row : CanonicalType}
    (hrow : row ∈ canonicalTypes platform) {schemas : Bytes → Schema Bytes → Prop}
    (hschemas : ∀ other ∈ canonicalTypes platform, other.1 = row.1 ∨ other.1 ∈ row.2.2 →
      ∀ schema, readSchema other.2.1 = some schema → schemas (bytes other.1) schema) :
    GoesBy schemas (bytes row.1) (canonicalCodec platform row.1) := by
  have hall : ((canonicalTypes platform).all fun row =>
      match (canonicalCodes platform).lookup row.1 with
      | none => decide (bytes row.1 = bytes "Void")
      | some code => code.describedIn (rowSchema platform row) (bytes row.1)) = true := by
    obtain ⟨rtMalloc, charSigned⟩ := platform
    cases rtMalloc
    all_goals
      cases charSigned
      all_goals decide +kernel
  have hcheck := List.all_eq_true.mp hall row hrow
  have hread : ∀ name schema, rowSchema platform row name = some schema → schemas name schema := by
    intro name schema hschema
    obtain ⟨other, hfound, hother⟩ := Option.bind_eq_some_iff.mp hschema
    have hkept := List.find?_some hfound
    simp only [Bool.and_eq_true, Bool.or_eq_true, decide_eq_true_eq, List.contains_eq_mem] at hkept
    rw [← hkept.1]
    exact hschemas other (List.mem_of_find?_eq_some hfound) hkept.2 schema hother
  unfold canonicalCodec
  cases hcode : (canonicalCodes platform).lookup row.1 with
  | none =>
      simp only [hcode] at hcheck
      have hvoid : bytes row.1 = bytes "Void" := of_decide_eq_true hcheck
      exact hvoid
  | some code =>
      simp only [hcode] at hcheck
      exact Code.described_of_describedIn hread hcheck

/-! ## Reflected types -/

section Reflected

variable {typeName : TypeId → Bytes}

theorem readSchema_sequenceDescriptor (element : Bytes) (length : Option Int) :
    readSchema (sequenceDescriptor element length) =
      some (.array element (length.map fun length => (Int64.ofInt length).toInt.toNat)) := by
  cases length <;> rfl

theorem mapM_readField (fields : List (Bytes × Bytes)) :
    (fields.map fun field => Json.object
      [(bytes "name", .string field.1), (bytes "rttType", .string field.2)]).mapM readField =
        some fields := by
  induction fields with
  | nil => rfl
  | cons field rest ih =>
      have hfield : readField (.object
          [(bytes "name", .string field.1), (bytes "rttType", .string field.2)]) = some field := rfl
      rw [List.map_cons, List.mapM_cons, hfield, ih]
      rfl

theorem readSchema_recordDescriptor (fields : List (Bytes × Bytes)) :
    readSchema (recordDescriptor fields) = some (.object fields) := by
  have hread : readSchema (recordDescriptor fields) = ((fields.map fun field => Json.object
      [(bytes "name", .string field.1), (bytes "rttType", .string field.2)]).mapM readField).map
        .object := rfl
  rw [hread, mapM_readField]
  rfl

/-- A fixed length that passed validation is the size that the codec compares with. -/
theorem toNat_ofInt {length : Int} (h : 0 ≤ (Int64.ofInt length).toInt) :
    (Int64.ofInt length).toInt.toNat = sizeOfInt length := by
  have hsize : ((Int64.size : Nat) : Int) = 2 ^ 64 := rfl
  have hless : length % 2 ^ 64 < 2 ^ 64 := Int.emod_lt_of_pos _ (by decide)
  unfold sizeOfInt
  rw [Int64.toInt_ofInt, Int.bmod, hsize] at h ⊢
  split
  · rfl
  · next hlarge =>
    rw [if_neg hlarge] at h
    omega

theorem length_of_valid {element : Bytes} {length : Int} {registration : Model.TypeRegistration}
    (hdescriptor : registration.descriptor = sequenceDescriptor element (some length))
    (h : validateRegistration (normalize registration) = .ok ()) :
    0 ≤ (Int64.ofInt length).toInt := by
  obtain ⟨kind, references, hkind, hreferences, -⟩ := referencesMatch_of_valid h
  have hfind : ∀ key, key ≠ bytes "reason" → key ≠ bytes "jsonSupported" →
      JsonObject.find? (normalize registration).descriptor key =
        JsonObject.find? (sequenceDescriptor element (some length)) key := by
    intro key hreason hsupported
    rw [normalize, JsonObject.find?_set_ne _ hreason, JsonObject.find?_set_ne _ hsupported,
      hdescriptor]
  have harray := find?_of_nameMember hkind
  rw [hfind _ (by decide) (by decide)] at harray
  cases harray
  unfold descriptorReferences at hreferences
  rw [if_neg (by decide), if_neg (by decide), if_neg (by decide), if_pos rfl] at hreferences
  split at hreferences
  next =>
    split at hreferences
    next hlength =>
      unfold validLength at hlength
      rw [hfind _ (by decide) (by decide)] at hlength
      exact of_decide_eq_true hlength
    next => cases hreferences
  next => cases hreferences

/-- The names of the fields of a structure are distinct. -/
theorem nodup_fieldLayout {probe : Probe} {names seen : List Bytes} {fields : List (Bytes × Part)}
    (h : fieldLayout probe names seen = some fields) :
    (fields.map Prod.fst).Nodup ∧ ∀ name ∈ fields.map Prod.fst, name ∉ seen := by
  induction names generalizing seen fields with
  | nil =>
      cases h
      exact ⟨.nil, by simp⟩
  | cons name rest ih =>
      unfold fieldLayout at h
      split at h
      next => cases h
      next hname =>
        split at h
        next part hpart =>
          obtain ⟨others, hothers, rfl⟩ := Option.map_eq_some_iff.mp h
          obtain ⟨hnodup, hnew⟩ := ih hothers
          refine ⟨List.nodup_cons.mpr ⟨fun hmem => hnew name hmem List.mem_cons_self, hnodup⟩, ?_⟩
          intro found hfound
          rcases List.mem_cons.mp hfound with rfl | hrest
          · exact fun hseen => hname (.inr (.inr hseen))
          · exact fun hseen => hnew found hrest (List.mem_cons_of_mem _ hseen)
        next => cases h

theorem nodup_of_layout {probe : Probe} {fields : List (Bytes × Part)}
    (h : layoutOf probe = some (.record fields)) : (fields.map Prod.fst).Nodup := by
  unfold layoutOf at h
  split at h
  next =>
    obtain ⟨length, -, hsame⟩ := Option.map_eq_some_iff.mp h
    cases hsame
  next =>
    unfold recordLayout at h
    split at h
    next names hnames =>
      split at h
      next => cases h
      next =>
        obtain ⟨found, hfound, hsame⟩ := Option.map_eq_some_iff.mp h
        cases hsame
        exact (nodup_fieldLayout hfound).1
    next => cases h
  next => cases h

theorem names_of_represents {Codec : Type} {codecOf : Option TypeId → Option Codec}
    {members : List (Member Codec)} {fields : List (Bytes × Part)}
    (h : List.Forall₂ (Represents codecOf) members fields) :
    members.map Member.name = fields.map Prod.fst := by
  induction h with
  | nil => rfl
  | cons hmember _ ih => rw [List.map_cons, List.map_cons, hmember.name, ih]

variable {state : State formatter ProtocolCodec}

/-- The codec of a member converts values, and goes by what is published. -/
theorem Truthful.member (h : Truthful typeName state.registrations) {member : Member ProtocolCodec}
    {field : Bytes × Part} {known : Set TypeId}
    (hmember : Represents (registeredTypeCodec state) member field)
    (husable : Usable typeName known field.2) :
    ∃ codec, member.codec = some codec ∧
      codec.Described (Published typeName state.registrations) (typeName member.type) := by
  obtain ⟨type, -, htype, hvoid⟩ := husable.type
  obtain rfl : type = member.type := Option.some.inj (htype.symm.trans hmember.type)
  have hcodec := hmember.codec
  simp only [registeredTypeCodec] at hcodec
  split at hcodec
  next protocol current hprotocol hcurrent =>
    split at hcodec
    next =>
      obtain ⟨before, rest, hsplit, -⟩ := List.lookup_eq_some_iff.mp hprotocol
      have htold := h (member.type, protocol) (by rw [hsplit]; simp)
      rw [Option.some.inj hcodec] at htold
      cases hfound : member.codec with
      | none =>
          rw [hfound] at htold
          exact absurd htold hvoid
      | some codec =>
          rw [hfound] at htold
          exact ⟨codec, rfl, htold⟩
    next => cases hcodec
  next => cases hcodec

/-- All members of a structure have codecs that go by what is published. -/
theorem Truthful.members (h : Truthful typeName state.registrations)
    {members : List (Member ProtocolCodec)} {fields : List (Bytes × Part)} {known : Set TypeId}
    (hmembers : List.Forall₂ (Represents (registeredTypeCodec state)) members fields)
    (husable : ∀ field ∈ fields, Usable typeName known field.2) :
    ∃ parts, (members.mapM fun member : Member ProtocolCodec =>
        member.codec.map fun found => (member.name, found)) = some parts ∧
      Codec.DescribedMembers (Published typeName state.registrations) parts
        (members.map fun member => (member.name, typeName member.type)) := by
  induction hmembers with
  | nil => exact ⟨[], rfl, trivial⟩
  | @cons member field members fields hmember _ ih =>
      obtain ⟨hfirst, hrest⟩ := List.forall_mem_cons.mp husable
      obtain ⟨codec, hcodec, hdescribed⟩ := h.member hmember hfirst
      obtain ⟨parts, hparts, hall⟩ := ih hrest
      refine ⟨(member.name, codec) :: parts, ?_, rfl, hdescribed, hall⟩
      rw [List.mapM_cons, hcodec, hparts]
      rfl

/-- The codec of a type that was just reflected goes by its descriptor. -/
theorem Truthful.goesBy_reflected (h : Truthful typeName state.registrations) {type : TypeId}
    {probe : Probe} {shape : Shape ProtocolCodec}
    (hshape : reflectShape typeName (registeredTypeCodec state) probe = .ok shape)
    {schemas : Bytes → Schema Bytes → Prop}
    (hmore : ∀ name schema, Published typeName state.registrations name schema → schemas name schema)
    (hvalid : validateRegistration (normalize (shape.registration typeName type
      (reflectionIdentity (typeName type)))) = .ok ())
    (hown : ∀ schema, readSchema (shape.descriptor typeName) = some schema →
      schemas (typeName type) schema) :
    GoesBy schemas (typeName type) (reflectedCodec (shape.codec type)) := by
  obtain ⟨layout, hlayout, hrepresents, husable⟩ := reflectShape_eq_ok hshape
  cases shape with
  | sequence member length =>
      cases layout with
      | record fields => exact hrepresents.elim
      | sequence element found =>
          obtain ⟨hmember, rfl⟩ := hrepresents
          obtain ⟨codec, hcodec, hdescribed⟩ :=
            h.member hmember (husable element List.mem_cons_self)
          have hread := hown _ (readSchema_sequenceDescriptor (typeName member.type) length)
          have hlength : (length.map fun length => (Int64.ofInt length).toInt.toNat) =
              length.map sizeOfInt := by
            cases length with
            | none => rfl
            | some length => exact congrArg some (toNat_ofInt (length_of_valid rfl hvalid))
          rw [hlength] at hread
          have hsequence : reflectedCodec ((Shape.sequence member length).codec type) =
              some (.sequence type (length.map sizeOfInt) codec) := by
            simp [reflectedCodec, Shape.codec, hcodec]
          rw [hsequence]
          exact ⟨_, hread, hdescribed.mono hmore⟩
  | record members =>
      cases layout with
      | sequence element found => exact hrepresents.elim
      | record fields =>
          obtain ⟨parts, hparts, hdescribed⟩ :=
            h.members hrepresents (List.forall_mem_map.mp husable)
          have hread := hown _ (readSchema_recordDescriptor
            (members.map fun member : Member ProtocolCodec => (member.name, typeName member.type)))
          have hrecord : reflectedCodec ((Shape.record members).codec type) =
              some (.record type parts) := by
            simp [reflectedCodec, Shape.codec, hparts]
          rw [hrecord]
          refine ⟨_, hread, ?_, hdescribed.mono hmore⟩
          have hnames := names_of_represents hrepresents
          have hnodup := nodup_of_layout hlayout
          rw [← hnames] at hnodup
          rw [List.map_map]
          exact hnodup

end Reflected

end RttHttp.Registry
