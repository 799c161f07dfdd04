import RttHttp.Codec.Context
import RttHttp.Text.Number
import Mathlib.Tactic.NormNum

/-! # Typed conversions

`JsonConversion<T>` for the types generated by booleans, integers, floating-point
numbers, strings, enumerations, vectors and fixed arrays. Template specialisation becomes
recursion over a code for the type.
-/

namespace RttHttp.Codec

inductive Width where
  | w8
  | w16
  | w32
  | w64
  deriving DecidableEq, Repr

def Width.bits : Width → Nat
  | .w8 => 8
  | .w16 => 16
  | .w32 => 32
  | .w64 => 64

/-- An integer type other than `bool`. -/
structure IntType where
  signed : Bool
  width : Width
  deriving DecidableEq, Repr

namespace IntType

/-- `std::numeric_limits<T>::min()`. -/
def low (t : IntType) : Int := if t.signed then -2 ^ (t.width.bits - 1) else 0

/-- `std::numeric_limits<T>::max()`. -/
def high (t : IntType) : Int := if t.signed then 2 ^ (t.width.bits - 1) - 1 else 2 ^ t.width.bits - 1

def Holds (t : IntType) (value : Int) : Prop := t.low ≤ value ∧ value ≤ t.high

instance (t : IntType) (value : Int) : Decidable (t.Holds value) := inferInstanceAs (Decidable (_ ∧ _))

abbrev Value (t : IntType) : Type := { value : Int // t.Holds value }

/-- The value `static_cast<T>` gives, modulo two to the width. -/
def wrap (t : IntType) (value : Int) : Int := (value - t.low) % 2 ^ t.width.bits + t.low

theorem wrap_holds (t : IntType) (value : Int) : t.Holds (t.wrap value) := by
  obtain ⟨signed, width⟩ := t
  unfold Holds wrap low high
  cases signed <;> cases width <;> simp only [Width.bits] <;> norm_num <;> omega

theorem wrap_of_holds {t : IntType} {value : Int} (h : t.Holds value) : t.wrap value = value := by
  obtain ⟨signed, width⟩ := t
  unfold Holds low high at h
  unfold wrap low
  cases signed <;> cases width <;> simp only [Width.bits] at h ⊢ <;> norm_num at h ⊢ <;> omega

/-- `static_cast<T>(value)`. -/
def cast (t : IntType) (value : Int) : t.Value := ⟨t.wrap value, t.wrap_holds value⟩

theorem cast_of_holds {t : IntType} {value : Int} (h : t.Holds value) : t.cast value = ⟨value, h⟩ :=
  Subtype.ext (wrap_of_holds h)

@[simp] theorem cast_val {t : IntType} (value : t.Value) : t.cast value.1 = value :=
  cast_of_holds value.2

end IntType

/-- A floating-point type. -/
inductive FloatType where
  | w32
  | w64
  deriving DecidableEq, Repr

namespace FloatType

def format : FloatType → Format
  | .w32 => .binary32
  | .w64 => .binary64

/-- Every number of the type is a `double`. -/
theorem includes (t : FloatType) : t.format.Includes .binary64 := by
  cases t with
  | w32 => exact ⟨by decide +kernel, by decide +kernel, by decide +kernel⟩
  | w64 => exact .refl _

/-- `std::abs(value) > static_cast<double>(std::numeric_limits<T>::max())`. -/
def exceeds (t : FloatType) (number : Finite .binary64) : Bool :=
  (Binary.cast .binary64 (.finite (.largest t.format))).less (.finite number.abs)

end FloatType

/-- `std::array<T, Size>`. -/
abbrev StdArray (α : Type) (size : Nat) : Type := { items : List α // items.length = size }

/-- The types of the typed conversions. -/
inductive Code where
  | bool
  | int (t : IntType)
  | float (t : FloatType)
  | string
  | enum (wire : IntType)
  | vector (element : Code)
  | array (element : Code) (size : Nat)
  deriving DecidableEq, Repr

/-- The values of a type. An enumeration has a fixed underlying type, so each of
its values is a value of that type. -/
def Code.Value : Code → Type
  | .bool => Bool
  | .int t => t.Value
  | .float t => Binary t.format
  | .string => Bytes
  | .enum wire => wire.Value
  | .vector element => List element.Value
  | .array element size => StdArray element.Value size

/-- The value-initialised `T{}`. -/
def Code.initial : (code : Code) → code.Value
  | .bool => false
  | .int t => t.cast 0
  | .float t => Binary.finite (.zero t.format false)
  | .string => []
  | .enum wire => wire.cast 0
  | .vector _ => []
  | .array element size => ⟨List.replicate size element.initial, List.length_replicate⟩

/-! ## Encoding -/

/-- The JSON value an integer is written as. -/
def intJson (t : IntType) (value : t.Value) : Json :=
  match t.width with
  | .w64 => .string (toChars value.1)
  | _ => if t.signed then .int64 (Int64.ofInt value.1) else .uint64 (UInt64.ofNat value.1.toNat)

def encodeInt (t : IntType) (value : t.Value) (output : Json) (context : CodecContext) :
    Result Json :=
  let length := (toChars value.1).length
  charged (length + if t.width = .w64 then 2 else 0) output context fun context =>
    ⟨.converted, intJson t value, context⟩

/-- The JSON value a floating-point number is written as. -/
def floatJson (t : FloatType) : Binary t.format → Json
  | .nan => .string (bytes "NaN")
  | .infinite negative => .string (if negative then bytes "-Infinity" else bytes "Infinity")
  | value => .double (value.cast .binary64)

theorem floatJson_finite {t : FloatType} (number : Finite t.format) :
    floatJson t (.finite number) = .double (.finite (number.widen t.includes)) :=
  congrArg Json.double (Binary.cast_finite_of_includes t.includes number)

def encodeFloat (t : FloatType) (value : Binary t.format) (output : Json) (context : CodecContext) :
    Result Json :=
  charged 1 output context fun context => ⟨.converted, floatJson t value, context⟩

def encodeBool (input : Bool) (output : Json) (context : CodecContext) : Result Json :=
  charged (if input then 4 else 5) output context fun context => ⟨.converted, .bool input, context⟩

def encodeString (input : Bytes) (output : Json) (context : CodecContext) : Result Json :=
  chargedString input output context fun context => ⟨.converted, .string input, context⟩

def encodeVector {α : Type} (encodeElement : α → Json → CodecContext → Result Json)
    (input : List α) (output : Json) (context : CodecContext) : Result Json :=
  withScope output context fun context =>
    charged 2 output context fun context =>
      charged (if input.isEmpty then 0 else input.length - 1) output context fun context =>
        if context.limits.maxDocumentBytes < input.length then fail .documentLimit output context
        else staged (convertAll encodeElement .null input [] context) output .array

def encodeArray {α : Type} (encodeElement : α → Json → CodecContext → Result Json) (size : Nat)
    (input : StdArray α size) (output : Json) (context : CodecContext) : Result Json :=
  withScope output context fun context =>
    charged (if size = 0 then 2 else size + 1) output context fun context =>
      staged (convertAll encodeElement .null input.1 [] context) output .array

def encode : (code : Code) → code.Value → Json → CodecContext → Result Json
  | .bool => encodeBool
  | .int t => encodeInt t
  | .float t => encodeFloat t
  | .string => encodeString
  | .enum wire => encodeInt wire
  | .vector element => encodeVector (encode element)
  | .array element size => encodeArray (encode element) size

/-! ## Decoding -/

/-- The number in a JSON value of a number kind, if it is an integer. -/
def narrowNumber (t : IntType) : Json → Option Int
  | .int64 value =>
      if t.signed then
        if value.toInt < t.low ∨ t.high < value.toInt then none else some value.toInt
      else if value < 0 ∨ t.high < value.toInt then none else some value.toInt
  | .uint64 value => if t.high < value.toNat then none else some value.toNat
  | .double value =>
      match value.toInt? with
      | some value => if value < t.low ∨ t.high < value then none else some value
      | none => none
  | _ => none

/-- The 64-bit integer spelled by a string. -/
def wideNumber (t : IntType) : Json → Option Int
  | .string text =>
      match fromChars t.low t.high text with
      | some (value, []) => if toChars value = text then some value else none
      | _ => none
  | _ => none

def decodeInt (t : IntType) (input : Json) (output : t.Value) (context : CodecContext) :
    Result t.Value :=
  match (if t.width = .w64 then wideNumber t input else narrowNumber t input) with
  | some value => ⟨.converted, t.cast value, context⟩
  | none => fail .typeMismatch output context

/-- The double that a JSON value holds; 64-bit integers are rounded. -/
def stagedDouble : Json → Option Double
  | .double value => some value
  | .int64 value => some (Format.binary64.ofInt value.toInt)
  | .uint64 value => some (Format.binary64.ofInt value.toNat)
  | _ => none

/-- `static_cast<T>` of a double within the range of the type. -/
def castInRange (t : FloatType) : Double → Option (Binary t.format)
  | .finite number =>
      if t.exceeds number then none else some (Binary.cast t.format (.finite number))
  | .infinite _ | .nan => none

/-- The floating-point number in a JSON value. -/
def floatNumber (t : FloatType) : Json → Option (Binary t.format)
  | .string text =>
      if text = bytes "NaN" then some .nan
      else if text = bytes "Infinity" then some (.infinite false)
      else if text = bytes "-Infinity" then some (.infinite true)
      else none
  | input => (stagedDouble input).bind (castInRange t)

def decodeFloat (t : FloatType) (input : Json) (output : Binary t.format)
    (context : CodecContext) : Result (Binary t.format) :=
  match floatNumber t input with
  | some value => ⟨.converted, value, context⟩
  | none => fail .typeMismatch output context

def decodeBool (input : Json) (output : Bool) (context : CodecContext) : Result Bool :=
  match input with
  | .bool value => ⟨.converted, value, context⟩
  | _ => fail .typeMismatch output context

def decodeString (input : Json) (output : Bytes) (context : CodecContext) : Result Bytes :=
  match input with
  | .string text => chargedString text output context fun context => ⟨.converted, text, context⟩
  | _ => fail .typeMismatch output context

/-- An enumeration is decoded through a local of its underlying type. -/
def decodeEnum (wire : IntType) (input : Json) (output : wire.Value) (context : CodecContext) :
    Result wire.Value :=
  staged (decodeInt wire input (wire.cast 0) context) output id

def decodeVector {α : Type} (decodeElement : Json → α → CodecContext → Result α) (initial : α)
    (input : Json) (output : List α) (context : CodecContext) : Result (List α) :=
  withScope output context fun context =>
    match input with
    | .array items =>
        charged items.length output context fun context =>
          staged (convertAll decodeElement initial items [] context) output id
    | _ => fail .typeMismatch output context

/-- A list of the right length as a fixed array. -/
def fixed {α : Type} (size : Nat) (initial : α) (items : List α) : StdArray α size :=
  if h : items.length = size then ⟨items, h⟩ else ⟨List.replicate size initial, List.length_replicate⟩

def decodeArray {α : Type} (decodeElement : Json → α → CodecContext → Result α) (initial : α)
    (size : Nat) (input : Json) (output : StdArray α size) (context : CodecContext) :
    Result (StdArray α size) :=
  withScope output context fun context =>
    match input with
    | .array items =>
        if items.length = size then
          charged size output context fun context =>
            staged (convertAll decodeElement initial items [] context) output (fixed size initial)
        else fail .typeMismatch output context
    | _ => fail .typeMismatch output context

def decode : (code : Code) → Json → code.Value → CodecContext → Result code.Value
  | .bool => decodeBool
  | .int t => decodeInt t
  | .float t => decodeFloat t
  | .string => decodeString
  | .enum wire => decodeEnum wire
  | .vector element => decodeVector (decode element) element.initial
  | .array element size => decodeArray (decode element) element.initial size

end RttHttp.Codec
