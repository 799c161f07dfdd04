import RttHttp.Codec.Reflected
import Mathlib.Data.List.ReduceOption

/-! # What the reflected codecs compute and need

The JSON value of an RTT value, the bytes that encoding it charges and the levels
it enters; and the same for decoding. Both conversions end exactly so.
-/

namespace RttHttp.Codec

open Server (intMax)

/-- A length that the codec of a sequence accepts. -/
def FitsLength (length : Option Nat) (count : Nat) : Prop :=
  count ≤ intMax ∧ ∀ fixed, length = some fixed → count = fixed

theorem fitsLength_iff {length : Option Nat} {count : Nat} :
    FitsLength length count ↔ ¬ (intMax < count ∨ length.any (· ≠ count)) := by
  cases length <;> simp [FitsLength]
  tauto

instance (length : Option Nat) (count : Nat) : Decidable (FitsLength length count) :=
  decidable_of_iff _ fitsLength_iff.symm

/-! ## Encoding -/

mutual

/-- The JSON value of an RTT value, if it has one. -/
def written : TypeCodec → Value → Option Json
  | .typed code, .typed found value => if h : found = code then encoded code (h ▸ value) else none
  | .record type members, .record found parts =>
      if found = type then (writtenMembers members parts []).map .object else none
  | .sequence type length element, .sequence found items =>
      if found = type then
        if FitsLength length items.length then
          (items.mapM fun item => (typedPart (some item) element.identity).bind
            fun item => written element item).map .array
        else none
      else none
  | _, _ => none

def writtenMembers : List (Bytes × TypeCodec) → List (Bytes × Value) → JsonObject → Option JsonObject
  | [], _, object => some object
  | (name, codec) :: rest, parts, object =>
      if validUtf8 name then
        (typedPart (parts.lookup name) codec.identity).bind fun part =>
          (written codec part).bind fun value =>
            writtenMembers rest parts (JsonObject.emplace object name value)
      else none

end

mutual

/-- The bytes charged while encoding. -/
def writeCost : TypeCodec → Value → Nat
  | .typed code, .typed found value => if h : found = code then encodeCost code (h ▸ value) else 0
  | .record type members, .record found parts =>
      if found = type then 2 + membersCost members parts else 0
  | .sequence type length element, .sequence found items =>
      if found = type then
        2 + if FitsLength length items.length then
          items.length + (items.map fun item =>
            ((typedPart (some item) element.identity).map fun item => writeCost element item).getD 0).sum
        else 0
      else 0
  | _, _ => 0

def membersCost : List (Bytes × TypeCodec) → List (Bytes × Value) → Nat
  | [], _ => 0
  | (name, codec) :: rest, parts =>
      stringCost name + (2 +
        match typedPart (parts.lookup name) codec.identity with
        | some part => writeCost codec part + membersCost rest parts
        | none => 0)

end

mutual

/-- The levels entered while encoding. -/
def writeNesting : TypeCodec → Value → Nat
  | .typed code, .typed found value => if h : found = code then encodeNesting code (h ▸ value) else 0
  | .record type members, .record found parts =>
      (if found = type then membersNesting members parts else 0) + 1
  | .sequence type length element, .sequence found items =>
      (if found = type ∧ FitsLength length items.length then
        deepest (items.map fun item =>
          ((typedPart (some item) element.identity).map fun item => writeNesting element item).getD 0)
      else 0) + 1
  | .record _ _, _ => 1
  | .sequence _ _ _, _ => 1
  | .typed _, _ => 0

def membersNesting : List (Bytes × TypeCodec) → List (Bytes × Value) → Nat
  | [], _ => 0
  | (name, codec) :: rest, parts =>
      match typedPart (parts.lookup name) codec.identity with
      | some part => max (writeNesting codec part) (membersNesting rest parts)
      | none => 0

end

/-! No value is encoded as null. -/

theorem intJson_ne_null (t : IntType) (value : t.Value) : intJson t value ≠ .null := by
  unfold intJson
  split
  next => nofun
  next => split <;> nofun

theorem floatJson_ne_null (t : FloatType) (value : Binary t.format) : floatJson t value ≠ .null := by
  cases value <;> nofun

theorem encoded_ne_null {code : Code} {value : code.Value} {json : Json}
    (h : encoded code value = some json) : json ≠ .null := by
  cases code with
  | bool =>
      cases h
      nofun
  | int t =>
      cases h
      exact intJson_ne_null t value
  | enum wire =>
      cases h
      exact intJson_ne_null wire value
  | float t =>
      cases h
      exact floatJson_ne_null t value
  | string =>
      obtain ⟨-, h⟩ := Option.ite_none_right_eq_some.mp h
      cases h
      nofun
  | vector element =>
      obtain ⟨items, -, rfl⟩ := Option.map_eq_some_iff.mp h
      nofun
  | array element size =>
      obtain ⟨items, -, rfl⟩ := Option.map_eq_some_iff.mp h
      nofun

theorem written_ne_null {codec : TypeCodec} {value : Value} {json : Json}
    (h : written codec value = some json) : json ≠ .null := by
  cases codec with
  | typed code =>
      cases value with
      | typed found value =>
          rw [written] at h
          split at h
          next hcode =>
            subst hcode
            exact encoded_ne_null h
          next => cases h
      | record | sequence => simp [written] at h
  | record type members =>
      cases value with
      | record found parts =>
          obtain ⟨-, h⟩ := Option.ite_none_right_eq_some.mp h
          obtain ⟨object, -, rfl⟩ := Option.map_eq_some_iff.mp h
          nofun
      | typed | sequence => simp [written] at h
  | sequence type length element =>
      cases value with
      | sequence found items =>
          obtain ⟨-, h⟩ := Option.ite_none_right_eq_some.mp h
          obtain ⟨-, h⟩ := Option.ite_none_right_eq_some.mp h
          obtain ⟨array, -, rfl⟩ := Option.map_eq_some_iff.mp h
          nofun
      | typed | record => simp [written] at h

section Encoding

variable {α β : Type} {context : CodecContext} {output : α}

theorem andThen_withPart (part : Option Value) (type : TypeIdentity) (initial : β) (output : α)
    (context : CodecContext) (rest : Value → CodecContext → Result β)
    (last : β → CodecContext → Result α) :
    andThen (withPart part type initial context rest) output last =
      withPart part type output context fun value context =>
        andThen (rest value context) output last := by
  unfold withPart
  cases typedPart part type <;> rfl

theorem Ends.silent {cost nesting : Nat} :
    Ends context output none cost nesting (Codec.silent output context) :=
  .rejected rfl (fun reported h => by cases h) (.refl context)

end Encoding

mutual

/-- Every encoding ends as its measures say. -/
theorem toJson_ends (codec : TypeCodec) (value : Value) (result : Json) (context : CodecContext) :
    Ends context result (written codec value) (writeCost codec value) (writeNesting codec value)
      (toJson codec value result context) := by
  cases codec with
  | typed code =>
      cases value with
      | typed found value =>
          unfold written writeCost writeNesting toJson
          by_cases h : found = code
          · subst h
            simp only [dif_pos]
            have hends : Ends context result ((encoded found value).map id) _ _ _ :=
              Ends.staged (encode_ends found value .null context)
            rwa [Option.map_id] at hends
          · simp only [dif_neg h]
            exact Ends.fail ⟨by decide, by decide⟩
      | _ => exact Ends.fail ⟨by decide, by decide⟩
  | record type members =>
      cases value with
      | record found parts =>
          unfold written writeCost writeNesting toJson
          refine Ends.withScope fun inner => ?_
          by_cases h : found = type
          · simp only [if_pos h]
            exact Ends.charged fun _ => toJsonMembers_ends members parts [] _
          · simp only [if_neg h]
            exact Ends.fail ⟨by decide, by decide⟩
      | _ => exact Ends.withScope fun inner => Ends.fail ⟨by decide, by decide⟩
  | sequence type length element =>
      cases value with
      | sequence found items =>
          unfold written writeCost writeNesting toJson
          refine Ends.withScope fun inner => ?_
          by_cases h : found = type
          · simp only [true_and, h]
            refine Ends.charged fun _ => ?_
            by_cases hlength : FitsLength length items.length
            · simp only [if_pos hlength, if_neg (fitsLength_iff.mp hlength)]
              refine Ends.charged fun _ => Ends.convertAll (fun item _ context => ?_) []
              unfold withPart
              cases typedPart (some item) element.identity with
              | none => exact Ends.silent
              | some item => exact toJson_ends element item _ context
            · simp only [if_neg hlength, if_pos (not_not.mp (mt fitsLength_iff.mpr hlength))]
              exact Ends.fail ⟨by decide, by decide⟩
          · simp only [h, false_and]
            exact Ends.fail ⟨by decide, by decide⟩
      | _ => exact Ends.withScope fun inner => Ends.fail ⟨by decide, by decide⟩

theorem toJsonMembers_ends (members : List (Bytes × TypeCodec)) (parts : List (Bytes × Value))
    (object : JsonObject) (context : CodecContext) {output : Json} {write : JsonObject → Json} :
    Ends context output ((writtenMembers members parts object).map write) (membersCost members parts)
      (membersNesting members parts)
      (staged (toJsonMembers members parts object context) output write) := by
  match members with
  | [] => exact Ends.done
  | (name, codec) :: rest =>
      have hvalue : (writtenMembers ((name, codec) :: rest) parts object).map write =
          if validUtf8 name then
            (typedPart (parts.lookup name) codec.identity).bind fun part =>
              (written codec part).bind fun value =>
                (writtenMembers rest parts (JsonObject.emplace object name value)).map write
          else none := by
        rw [writtenMembers, apply_ite (Option.map write), Option.map_none]
        simp only [Option.map_bind, Function.comp_def]
      rw [hvalue, membersCost, membersNesting, toJsonMembers, staged, andThen_chargedString]
      refine Ends.chargedString fun _ => ?_
      rw [andThen_charged]
      refine Ends.charged fun _ => ?_
      rw [andThen_withPart]
      unfold withPart
      cases typedPart (parts.lookup name) codec.identity with
      | none => exact Ends.silent
      | some part =>
          simp only [andThen_andThen]
          exact Ends.andThen (toJson_ends codec part .null _) fun value after _ =>
            toJsonMembers_ends rest parts (JsonObject.emplace object name value) after

end

/-! ## Decoding -/

/-- An object with as many members as the structure, and all of its names. -/
def HasMembers (members : List (Bytes × TypeCodec)) (object : JsonObject) : Prop :=
  object.length = members.length ∧ ∀ member ∈ members, JsonObject.contains object member.1 = true

instance (members : List (Bytes × TypeCodec)) (object : JsonObject) :
    Decidable (HasMembers members object) := inferInstanceAs (Decidable (_ ∧ _))

/-- The value of a member. -/
def memberValue (object : JsonObject) (name : Bytes) : Json :=
  (JsonObject.find? object name).getD .null

mutual

/-- The RTT value that a JSON value is decoded to. -/
def accepted : TypeCodec → Json → Option Value
  | .typed code, value => (decoded code value).map fun value => .typed code value
  | .record type members, .object object =>
      if HasMembers members object then (acceptedMembers members object).map (.record type) else none
  | .sequence type length element, .array items =>
      if FitsLength length items.length then
        (items.mapM fun item => accepted element item).map (.sequence type)
      else none
  | _, _ => none

def acceptedMembers : List (Bytes × TypeCodec) → JsonObject → Option (List (Bytes × Value))
  | [], _ => some []
  | (name, codec) :: rest, object =>
      (accepted codec (memberValue object name)).bind fun part =>
        (acceptedMembers rest object).map ((name, part) :: ·)

end

mutual

/-- The bytes charged while decoding. -/
def readCost : TypeCodec → Json → Nat
  | .typed code, value => decodeCost code value
  | .record _ members, .object object =>
      if HasMembers members object then readMembersCost members object else 0
  | .sequence _ length element, .array items =>
      if FitsLength length items.length then
        items.length + (items.map fun item => readCost element item).sum
      else 0
  | _, _ => 0

def readMembersCost : List (Bytes × TypeCodec) → JsonObject → Nat
  | [], _ => 0
  | (name, codec) :: rest, object =>
      readCost codec (memberValue object name) + readMembersCost rest object

end

mutual

/-- The levels entered while decoding. -/
def readNesting : TypeCodec → Json → Nat
  | .typed code, value => decodeNesting code value
  | .record _ members, .object object =>
      (if HasMembers members object then readMembersNesting members object else 0) + 1
  | .sequence _ length element, .array items =>
      (if FitsLength length items.length then
        deepest (items.map fun item => readNesting element item) else 0) + 1
  | .record _ _, _ => 1
  | .sequence _ _ _, _ => 1

def readMembersNesting : List (Bytes × TypeCodec) → JsonObject → Nat
  | [], _ => 0
  | (name, codec) :: rest, object =>
      max (readNesting codec (memberValue object name)) (readMembersNesting rest object)

end

theorem hasMembers_iff {members : List (Bytes × TypeCodec)} {object : JsonObject} :
    HasMembers members object ↔ object.length = members.length ∧
      members.find? (fun member => !JsonObject.contains object member.1) = none := by
  simp [HasMembers]

/-- The elements of a sequence come back as the pointers to them. -/
theorem mapM_map_some {α β : Type} {items : List α} {accept : α → Option β} :
    (items.mapM fun item => (accept item).map some).map List.reduceOption = items.mapM accept := by
  have hmap : (items.mapM fun item => (accept item).map some) =
      (items.mapM accept).map fun values => values.map some := by
    induction items with
    | nil => rfl
    | cons item rest ih =>
        rw [List.mapM_cons, List.mapM_cons, ih]
        cases accept item <;> cases rest.mapM accept <;> rfl
  rw [hmap]
  cases items.mapM accept with
  | none => rfl
  | some values =>
      have hreduce : (values.map some).reduceOption = values := by
        induction values with
        | nil => exact List.reduceOption_nil
        | cons value rest ih => rw [List.map_cons, List.reduceOption_cons_of_some, ih]
      simp [hreduce]

mutual

/-- Every decoding ends as its measures say. -/
theorem makeDataSource_ends (codec : TypeCodec) (value : Json) (context : CodecContext) :
    Ends context none ((accepted codec value).map some) (readCost codec value)
      (readNesting codec value) (makeDataSource codec value context) := by
  cases codec with
  | typed code =>
      unfold accepted readCost readNesting makeDataSource
      rw [Option.map_map]
      exact Ends.staged (decode_ends code value code.initial context)
  | record type members =>
      cases value with
      | object object =>
          unfold accepted readCost readNesting makeDataSource
          refine Ends.withScope fun inner => ?_
          simp only
          by_cases hlength : object.length = members.length
          · cases hfind : members.find? fun member => !JsonObject.contains object member.1 with
            | some missing =>
                have hmembers : ¬ HasMembers members object := fun h => by
                  have hnone := (hasMembers_iff.mp h).2
                  rw [hfind] at hnone
                  cases hnone
                simp only [if_neg hmembers, ne_eq, hlength, not_true_eq_false, if_false]
                refine .rejected rfl ?_ (.refl inner)
                rintro reported ⟨⟩
                exact ⟨CodecErrorCode.noConfusion, CodecErrorCode.noConfusion⟩
            | none =>
                have hmembers : HasMembers members object := hasMembers_iff.mpr ⟨hlength, hfind⟩
                simp only [if_pos hmembers, ne_eq, hlength, not_true_eq_false, if_false,
                  Option.map_map]
                exact makeMembers_ends members object [] inner
          · have hmembers : ¬ HasMembers members object := fun h => hlength h.1
            simp only [if_neg hmembers, ne_eq, hlength, not_false_eq_true, if_true]
            exact Ends.mismatch
      | _ => exact Ends.withScope fun _ => Ends.mismatch
  | sequence type length element =>
      cases value with
      | array items =>
          unfold accepted readCost readNesting makeDataSource
          refine Ends.withScope fun inner => ?_
          simp only
          by_cases hlength : FitsLength length items.length
          · have hguard := fitsLength_iff.mp hlength
            rw [or_comm] at hguard
            simp only [if_pos hlength, if_neg hguard]
            rw [← mapM_map_some, Option.map_map, Option.map_map]
            refine Ends.charged fun _ => ?_
            have hitems : Ends (inner.spend items.length) none _ _ _
                (staged (convertAll (fun item _ context => makeDataSource element item context) none
                  items [] _) none fun parts => some (Value.sequence type parts.reduceOption)) :=
              Ends.convertAll (fun item _ context => makeDataSource_ends element item context) []
            exact hitems
          · have hguard := not_not.mp (mt fitsLength_iff.mpr hlength)
            rw [or_comm] at hguard
            simp only [if_neg hlength, if_pos hguard]
            exact Ends.mismatch
      | _ => exact Ends.withScope fun _ => Ends.mismatch

theorem makeMembers_ends (members : List (Bytes × TypeCodec)) (object : JsonObject)
    (parts : List (Bytes × Value)) (context : CodecContext) {α : Type} {output : α}
    {write : List (Bytes × Value) → α} :
    Ends context output ((acceptedMembers members object).map fun more => write (parts ++ more))
      (readMembersCost members object) (readMembersNesting members object)
      (staged (makeMembers members object parts context) output write) := by
  match members with
  | [] =>
      refine .converted ?_ (Nat.zero_le _) context.depth_le
      simp [acceptedMembers]
  | (name, codec) :: rest =>
      have hvalue : (acceptedMembers ((name, codec) :: rest) object).map
            (fun more => write (parts ++ more)) =
          ((accepted codec (memberValue object name)).map some).bind fun part =>
            (acceptedMembers rest object).map fun more =>
              write (parts ++ (part.map fun part => (name, part)).toList ++ more) := by
        rw [acceptedMembers]
        cases accepted codec (memberValue object name) <;>
          cases acceptedMembers rest object <;> simp
      rw [hvalue, readMembersCost, readMembersNesting, makeMembers, staged, andThen_andThen]
      exact Ends.andThen (makeDataSource_ends codec (memberValue object name) context)
        fun part after _ => makeMembers_ends rest object _ after

end

/-! ## Argument lists -/

/-- The values that a list of arguments is decoded to. -/
def acceptedArguments (codecs : List TypeCodec) (arguments : List Json) : Option (List Value) :=
  if arguments.length ≠ codecs.length then none
  else (codecs.zip arguments).mapM fun input => accepted input.1 input.2

/-- The bytes charged for a list of arguments. -/
def argumentsCost (codecs : List TypeCodec) (arguments : List Json) : Nat :=
  ((codecs.zip arguments).map fun input => readCost input.1 input.2).sum

/-- The levels entered for a list of arguments. -/
def argumentsNesting (codecs : List TypeCodec) (arguments : List Json) : Nat :=
  deepest ((codecs.zip arguments).map fun input => readNesting input.1 input.2)

theorem makeArguments_ends (codecs : List TypeCodec) (arguments : List Json)
    (context : CodecContext) :
    Ends context [] (acceptedArguments codecs arguments) (argumentsCost codecs arguments)
      (argumentsNesting codecs arguments) (makeArguments codecs arguments context) := by
  unfold acceptedArguments makeArguments
  by_cases hlength : arguments.length ≠ codecs.length
  · rw [if_pos hlength, if_pos hlength]
    exact Ends.mismatch
  · rw [if_neg hlength, if_neg hlength]
    rw [← mapM_map_some]
    exact Ends.convertAll (fun input _ context => makeDataSource_ends input.1 input.2 context) []

end RttHttp.Codec
