import RttHttp.Json.Value
import RttHttp.Text.Number

/-! # Compact serialization

The text the Boost.JSON serializer writes: no white space, and a backslash form
for quotes, backslashes and control characters. How it formats a `double` is left
open.
-/

namespace RttHttp

def quote : UInt8 := 0x22

def comma : UInt8 := 0x2c

def colon : UInt8 := 0x3a

/-- The letter of a two-byte escape for a control character. -/
def shortEscape (c : UInt8) : Option UInt8 :=
  if c = 0x08 then some 0x62
  else if c = 0x09 then some 0x74
  else if c = 0x0a then some 0x6e
  else if c = 0x0c then some 0x66
  else if c = 0x0d then some 0x72
  else none

def hexByte (digit : UInt8) : UInt8 := if digit < 10 then 0x30 + digit else 0x57 + digit

def escapeByte (c : UInt8) : Bytes :=
  if c = 0x22 ∨ c = 0x5c then [0x5c, c]
  else match shortEscape c with
    | some letter => [0x5c, letter]
    | none =>
        if c < 0x20 then bytes "\\u00" ++ [hexByte (c / 16), hexByte (c % 16)] else [c]

def quoted (text : Bytes) : Bytes := quote :: (text.flatMap escapeByte ++ [quote])

mutual

def serialize (double : Double → Bytes) : Json → Bytes
  | .null => bytes "null"
  | .bool value => if value then bytes "true" else bytes "false"
  | .int64 value => toChars value.toInt
  | .uint64 value => decimal value.toNat
  | .double value => double value
  | .string text => quoted text
  | .array items => 0x5b :: (serializeItems double items ++ [0x5d])
  | .object members => 0x7b :: (serializeMembers double members ++ [0x7d])

def serializeItems (double : Double → Bytes) : List Json → Bytes
  | [] => []
  | item :: rest =>
      serialize double item ++ if rest.isEmpty then [] else comma :: serializeItems double rest

def serializeMembers (double : Double → Bytes) : List (Bytes × Json) → Bytes
  | [] => []
  | (name, value) :: rest =>
      quoted name ++ colon :: serialize double value ++
        if rest.isEmpty then [] else comma :: serializeMembers double rest

end

/-! ## Lengths -/

/-- The number of control characters with a two-byte escape. -/
def shortEscapes (text : Bytes) : Nat := text.countP fun c => (shortEscape c).isSome

theorem length_quoted (text : Bytes) :
    (quoted text).length = 2 + (text.map fun c => (escapeByte c).length).sum := by
  simp [quoted, List.length_flatMap]
  omega

/-- A byte takes at most the six bytes of its escape. -/
theorem length_escapeByte_le (c : UInt8) : (escapeByte c).length ≤ 6 :=
  forall_byte (p := fun c => (escapeByte c).length ≤ 6) (by decide +kernel) c

theorem length_quoted_le (text : Bytes) : (quoted text).length ≤ 2 + 6 * text.length := by
  have hescapes : (text.map fun c => (escapeByte c).length).sum ≤ 6 * text.length := by
    induction text with
    | nil => exact Nat.le_refl _
    | cons c rest ih =>
        have hbyte := length_escapeByte_le c
        simp only [List.map_cons, List.sum_cons, List.length_cons]
        omega
  rw [length_quoted]
  omega

/-- Commas stand between the parts only. -/
def separators (count : Nat) : Nat := count - 1

theorem length_serializeItems (double : Double → Bytes) (items : List Json) :
    (serializeItems double items).length =
      (items.map fun item => (serialize double item).length).sum + separators items.length := by
  induction items with
  | nil => rfl
  | cons item rest ih =>
      cases rest with
      | nil => simp [serializeItems, separators]
      | cons next more =>
          rw [serializeItems, List.length_append, if_neg (by simp), List.length_cons, ih]
          simp only [separators, List.map_cons, List.sum_cons, List.length_cons]
          omega

/-- The length of a member with its colon. -/
def memberLength (double : Double → Bytes) (member : Bytes × Json) : Nat :=
  (quoted member.1).length + 1 + (serialize double member.2).length

theorem length_serializeMembers (double : Double → Bytes) (members : List (Bytes × Json)) :
    (serializeMembers double members).length =
      (members.map (memberLength double)).sum + separators members.length := by
  induction members with
  | nil => rfl
  | cons member rest ih =>
      obtain ⟨name, value⟩ := member
      cases rest with
      | nil =>
          simp [serializeMembers, separators, memberLength]
          omega
      | cons next more =>
          rw [serializeMembers, List.length_append, if_neg (by simp), List.length_cons, ih]
          simp only [separators, memberLength, List.map_cons, List.sum_cons, List.length_cons,
            List.length_append]
          omega

end RttHttp
