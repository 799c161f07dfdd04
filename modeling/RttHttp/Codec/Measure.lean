import RttHttp.Codec.Typed

/-! # What the typed conversions compute and need

For each type, the value a conversion yields when no limit stands in its way, the
bytes it charges and the levels it enters. The conversions end exactly so.
-/

namespace RttHttp.Codec

/-! ## Encoding -/

/-- The JSON value that encodes a value; invalid UTF-8 has none. -/
def encoded : (code : Code) → code.Value → Option Json
  | .bool => fun value : Bool => some (.bool value)
  | .int t => fun value : t.Value => some (intJson t value)
  | .float t => fun value : Binary t.format => some (floatJson t value)
  | .string => fun value : Bytes => if validUtf8 value then some (.string value) else none
  | .enum wire => fun value : wire.Value => some (intJson wire value)
  | .vector element => fun values : List element.Value => (values.mapM (encoded element)).map .array
  | .array element size => fun values : StdArray element.Value size =>
      (values.1.mapM (encoded element)).map .array

def intCost (t : IntType) (value : t.Value) : Nat :=
  (toChars value.1).length + if t.width = .w64 then 2 else 0

/-- The bytes charged while encoding. -/
def encodeCost : (code : Code) → code.Value → Nat
  | .bool => fun value : Bool => if value then 4 else 5
  | .int t => intCost t
  | .float _ => fun _ => 1
  | .string => stringCost
  | .enum wire => intCost wire
  | .vector element => fun values : List element.Value =>
      2 + ((if values.isEmpty then 0 else values.length - 1) + (values.map (encodeCost element)).sum)
  | .array element size => fun values : StdArray element.Value size =>
      (if size = 0 then 2 else size + 1) + (values.1.map (encodeCost element)).sum

/-- The levels entered while encoding. -/
def encodeNesting : (code : Code) → code.Value → Nat
  | .bool => fun _ => 0
  | .int _ => fun _ => 0
  | .float _ => fun _ => 0
  | .string => fun _ => 0
  | .enum _ => fun _ => 0
  | .vector element => fun values : List element.Value =>
      deepest (values.map (encodeNesting element)) + 1
  | .array element size => fun values : StdArray element.Value size =>
      deepest (values.1.map (encodeNesting element)) + 1

section Encoding

variable {context : CodecContext}

theorem encodeBool_ends (value : Bool) (output : Json) :
    Ends context output (encoded .bool value) (encodeCost .bool value) 0
      (encodeBool value output context) :=
  Ends.charged_done

theorem encodeInt_ends (t : IntType) (value : t.Value) (output : Json) :
    Ends context output (some (intJson t value)) (intCost t value) 0
      (encodeInt t value output context) :=
  Ends.charged_done

theorem encodeFloat_ends (t : FloatType) (value : Binary t.format) (output : Json) :
    Ends context output (encoded (.float t) value) (encodeCost (.float t) value) 0
      (encodeFloat t value output context) :=
  Ends.charged_done

theorem encodeString_ends (value : Bytes) (output : Json) :
    Ends context output (encoded .string value) (encodeCost .string value) 0
      (encodeString value output context) :=
  Ends.chargedString_done

variable {α : Type} {convert : α → Json → CodecContext → Result Json} {value : α → Option Json}
  {cost nesting : α → Nat}
  (hconvert : ∀ (input : α) (output : Json) (context : CodecContext),
    Ends context output (value input) (cost input) (nesting input) (convert input output context))

include hconvert

theorem encodeVector_ends (values : List α) (output : Json) :
    Ends context output ((values.mapM value).map .array)
      (2 + ((if values.isEmpty then 0 else values.length - 1) + (values.map cost).sum))
      (deepest (values.map nesting) + 1) (encodeVector convert values output context) := by
  refine Ends.withScope fun inner => ?_
  refine Ends.charged fun htwo => Ends.charged fun hcommas => ?_
  have hspend : (inner.spend 2).remaining = inner.remaining - 2 := rfl
  have hlimits : ((inner.spend 2).spend (if values.isEmpty then 0 else values.length - 1)).limits =
    inner.limits := rfl
  -- The charged brackets and commas already exceed the number of elements.
  have hfits : ¬ inner.limits.maxDocumentBytes < values.length := by
    have hbytes := inner.remaining_le
    cases values with
    | nil => exact Nat.not_lt_zero _
    | cons first rest =>
        simp only [List.isEmpty_cons, Bool.false_eq_true, if_false, List.length_cons] at hcommas ⊢
        omega
  rw [hlimits, if_neg hfits]
  exact Ends.convertAll (fun input _ context => hconvert input _ context) []

theorem encodeArray_ends {size : Nat} (values : StdArray α size) (output : Json) :
    Ends context output ((values.1.mapM value).map .array)
      ((if size = 0 then 2 else size + 1) + (values.1.map cost).sum)
      (deepest (values.1.map nesting) + 1) (encodeArray convert size values output context) := by
  refine Ends.withScope fun inner => ?_
  refine Ends.charged fun _ => ?_
  exact Ends.convertAll (fun input _ context => hconvert input _ context) []

end Encoding

/-- Every typed encoding ends as its measures say. -/
theorem encode_ends (code : Code) (value : code.Value) (output : Json) (context : CodecContext) :
    Ends context output (encoded code value) (encodeCost code value) (encodeNesting code value)
      (encode code value output context) := by
  induction code generalizing output context with
  | bool => exact encodeBool_ends value output
  | int t => exact encodeInt_ends t value output
  | float t => exact encodeFloat_ends t value output
  | string => exact encodeString_ends value output
  | enum wire => exact encodeInt_ends wire value output
  | vector element ih => exact encodeVector_ends (fun input => ih input) value output
  | array element size ih => exact encodeArray_ends (fun input => ih input) value output

/-! ## Decoding -/

/-- The integer in a JSON value. -/
def intNumber (t : IntType) (input : Json) : Option Int :=
  if t.width = .w64 then wideNumber t input else narrowNumber t input

/-- The value a JSON value is decoded to. -/
def decoded : (code : Code) → Json → Option code.Value
  | .bool => fun input => match input with
      | .bool value => some value
      | _ => none
  | .int t => fun input => (intNumber t input).map t.cast
  | .float t => fun input => floatNumber t input
  | .string => fun input => match input with
      | .string text => if validUtf8 text then some text else none
      | _ => none
  | .enum wire => fun input => (intNumber wire input).map wire.cast
  | .vector element => fun input => match input with
      | .array items => items.mapM (decoded element)
      | _ => none
  | .array element size => fun input => match input with
      | .array items =>
          if items.length = size then
            (items.mapM (decoded element)).map (fixed size element.initial)
          else none
      | _ => none

/-- The bytes charged while decoding. -/
def decodeCost : Code → Json → Nat
  | .string, .string text => stringCost text
  | .vector element, .array items => items.length + (items.map (decodeCost element)).sum
  | .array element size, .array items =>
      if items.length = size then size + (items.map (decodeCost element)).sum else 0
  | _, _ => 0

/-- The levels entered while decoding. -/
def decodeNesting : Code → Json → Nat
  | .vector element, .array items => deepest (items.map (decodeNesting element)) + 1
  | .array element size, .array items =>
      if items.length = size then deepest (items.map (decodeNesting element)) + 1 else 1
  | .vector _, _ => 1
  | .array _ _, _ => 1
  | _, _ => 0

section Decoding

variable {context : CodecContext}

theorem Ends.mismatch {α : Type} {output : α} {cost nesting : Nat} :
    Ends context output none cost nesting (Codec.fail .typeMismatch output context) :=
  Ends.fail ⟨by decide, by decide⟩

theorem decodeBool_ends (input : Json) (output : Bool) :
    Ends context output (decoded .bool input) (decodeCost .bool input) (decodeNesting .bool input)
      (decodeBool input output context) := by
  cases input with
  | bool value => exact Ends.done
  | _ => exact Ends.mismatch

theorem decodeInt_ends (t : IntType) (input : Json) (output : t.Value) :
    Ends context output ((intNumber t input).map t.cast) 0 0 (decodeInt t input output context) := by
  unfold decodeInt
  rw [← intNumber]
  cases intNumber t input with
  | some value => exact Ends.done
  | none => exact Ends.mismatch

theorem decodeFloat_ends (t : FloatType) (input : Json) (output : Binary t.format) :
    Ends context output (floatNumber t input) 0 0 (decodeFloat t input output context) := by
  unfold decodeFloat
  cases floatNumber t input with
  | some value => exact Ends.done
  | none => exact Ends.mismatch

theorem decodeString_ends (input : Json) (output : Bytes) :
    Ends context output (decoded .string input) (decodeCost .string input)
      (decodeNesting .string input) (decodeString input output context) := by
  cases input with
  | string text => exact Ends.chargedString_done
  | _ => exact Ends.mismatch

theorem decodeEnum_ends (wire : IntType) (input : Json) (output : wire.Value) :
    Ends context output ((intNumber wire input).map wire.cast) 0 0
      (decodeEnum wire input output context) := by
  have h : Ends context output (((intNumber wire input).map wire.cast).map id) 0 0 _ :=
    Ends.staged (decodeInt_ends wire input (wire.cast 0))
  rwa [Option.map_id] at h

variable {α : Type} {convert : Json → α → CodecContext → Result α} {value : Json → Option α}
  {cost nesting : Json → Nat}
  (hconvert : ∀ (input : Json) (output : α) (context : CodecContext),
    Ends context output (value input) (cost input) (nesting input) (convert input output context))

include hconvert

/-- The elements of an array are decoded into fresh storage. -/
theorem decodeItems_ends {β : Type} (items : List Json) (initial : α) (output : β)
    (write : List α → β) :
    Ends context output ((items.mapM value).map write) (items.map cost).sum
      (deepest (items.map nesting))
      (staged (convertAll convert initial items [] context) output write) :=
  Ends.convertAll (fun input _ context => hconvert input _ context) []

theorem decodeVector_ends (initial : α) (items : List Json) (output : List α) :
    Ends context output (items.mapM value) (items.length + (items.map cost).sum)
      (deepest (items.map nesting) + 1)
      (decodeVector convert initial (.array items) output context) := by
  refine Ends.withScope fun inner => Ends.charged fun _ => ?_
  have h : Ends (inner.spend items.length) output ((items.mapM value).map id) _ _ _ :=
    decodeItems_ends hconvert items initial output id
  rwa [Option.map_id] at h

theorem decodeArray_ends {size : Nat} (initial : α) (items : List Json)
    (output : StdArray α size) (hsize : items.length = size) :
    Ends context output ((items.mapM value).map (fixed size initial))
      (size + (items.map cost).sum) (deepest (items.map nesting) + 1)
      (decodeArray convert initial size (.array items) output context) := by
  refine Ends.withScope fun inner => ?_
  simp only [hsize, if_true]
  exact Ends.charged fun _ => decodeItems_ends hconvert items initial output _

end Decoding

/-- Every typed decoding ends as its measures say. -/
theorem decode_ends (code : Code) (input : Json) (output : code.Value) (context : CodecContext) :
    Ends context output (decoded code input) (decodeCost code input) (decodeNesting code input)
      (decode code input output context) := by
  induction code generalizing input context with
  | bool => exact decodeBool_ends input output
  | int t => exact decodeInt_ends t input output
  | float t => exact decodeFloat_ends t input output
  | string => exact decodeString_ends input output
  | enum wire => exact decodeEnum_ends wire input output
  | vector element ih =>
      cases input with
      | array items => exact decodeVector_ends (fun input output => ih input output) _ items output
      | _ => exact Ends.withScope fun _ => Ends.mismatch
  | array element size ih =>
      cases input with
      | array items =>
          by_cases hsize : items.length = size
          · simp only [decoded, decodeCost, decodeNesting, if_pos hsize]
            exact decodeArray_ends (fun input output => ih input output) _ items output hsize
          · simp only [decoded, decodeCost, decodeNesting, if_neg hsize]
            refine Ends.withScope fun _ => ?_
            simp only [if_neg hsize]
            exact Ends.mismatch
      | _ => exact Ends.withScope fun _ => Ends.mismatch

end RttHttp.Codec
