import RttHttp.Codec.RoundTrip

/-! # What a schema admits

A schema says which JSON values a type has, and refers to other types by name. The
values that conform to a type are the least ones that its schema admits, given those
of the types that it refers to.
-/

namespace RttHttp

open Codec (FloatType)

/-- The schema of a type. Integers have bounds, and are held in numbers or spelled by
strings; an array may have a fixed length. -/
inductive Schema (Name : Type) where
  | boolean
  | integer (low high : Int) (decimal : Bool)
  | float (t : FloatType)
  | string
  | enum (underlying : Name)
  | array (element : Name) (length : Option Nat)
  | object (fields : List (Bytes × Name))
  deriving DecidableEq, Repr

/-- A JSON number that is not beyond the range of a floating-point type. -/
def Json.Fits (t : FloatType) : Json → Prop
  | .int64 _ | .uint64 _ => True
  | .double (.finite number) => t.exceeds number = false
  | _ => False

def nonFiniteTexts : List Bytes := [bytes "NaN", bytes "Infinity", bytes "-Infinity"]

variable {Name : Type} {schemas : Name → Schema Name → Prop} {name : Name} {json : Json}

/-- The JSON values of a type. -/
inductive Conforms (schemas : Name → Schema Name → Prop) : Name → Json → Prop
  | boolean {name : Name} (hname : schemas name .boolean) (value : Bool) :
      Conforms schemas name (.bool value)
  | number {name : Name} {low high value : Int} {json : Json}
      (hname : schemas name (.integer low high false)) (hvalue : json.number? = some value)
      (hlow : low ≤ value) (hhigh : value ≤ high) : Conforms schemas name json
  | decimal {name : Name} {low high value : Int} (hname : schemas name (.integer low high true))
      (hlow : low ≤ value) (hhigh : value ≤ high) : Conforms schemas name (.string (toChars value))
  | float {name : Name} {t : FloatType} {json : Json} (hname : schemas name (.float t))
      (hfits : json.Fits t) : Conforms schemas name json
  | nonFinite {name : Name} {t : FloatType} {text : Bytes} (hname : schemas name (.float t))
      (htext : text ∈ nonFiniteTexts) : Conforms schemas name (.string text)
  | string {name : Name} {text : Bytes} (hname : schemas name .string)
      (hvalid : validUtf8 text = true) : Conforms schemas name (.string text)
  | enum {name underlying : Name} {json : Json} (hname : schemas name (.enum underlying))
      (hvalue : Conforms schemas underlying json) : Conforms schemas name json
  | array {name element : Name} {length : Option Nat} {items : List Json}
      (hname : schemas name (.array element length))
      (hlength : ∀ fixed, length = some fixed → items.length = fixed)
      (hitems : ∀ item ∈ items, Conforms schemas element item) :
      Conforms schemas name (.array items)
  | object {name : Name} {fields : List (Bytes × Name)} {members : JsonObject}
      (value : Bytes → Json) (hname : schemas name (.object fields))
      (hlength : members.length = fields.length)
      (hmembers : ∀ field ∈ fields, members.find? field.1 = some (value field.1))
      (hvalues : ∀ field ∈ fields, Conforms schemas field.2 (value field.1)) :
      Conforms schemas name (.object members)

/-- What one schema asks of a JSON value. -/
def Schema.Admits (schemas : Name → Schema Name → Prop) : Schema Name → Json → Prop
  | .boolean, json => ∃ value, json = .bool value
  | .integer low high false, json => ∃ value, json.number? = some value ∧ low ≤ value ∧ value ≤ high
  | .integer low high true, json =>
      ∃ value, json = .string (toChars value) ∧ low ≤ value ∧ value ≤ high
  | .float t, json => json.Fits t ∨ ∃ text ∈ nonFiniteTexts, json = .string text
  | .string, json => ∃ text, json = .string text ∧ validUtf8 text = true
  | .enum underlying, json => Conforms schemas underlying json
  | .array element length, json => ∃ items, json = .array items ∧
      (∀ fixed, length = some fixed → items.length = fixed) ∧
        ∀ item ∈ items, Conforms schemas element item
  | .object fields, json => ∃ members, json = .object members ∧ members.length = fields.length ∧
      ∀ field ∈ fields, ∃ value, JsonObject.find? members field.1 = some value ∧
        Conforms schemas field.2 value

theorem Conforms.of_admits {schema : Schema Name} (hname : schemas name schema)
    (h : schema.Admits schemas json) : Conforms schemas name json := by
  cases schema with
  | boolean =>
      obtain ⟨value, rfl⟩ := h
      exact .boolean hname value
  | integer low high decimal =>
      cases decimal with
      | false =>
          obtain ⟨value, hvalue, hlow, hhigh⟩ := h
          exact .number hname hvalue hlow hhigh
      | true =>
          obtain ⟨value, rfl, hlow, hhigh⟩ := h
          exact .decimal hname hlow hhigh
  | float t =>
      rcases h with hfits | ⟨text, htext, rfl⟩
      · exact .float hname hfits
      · exact .nonFinite hname htext
  | string =>
      obtain ⟨text, rfl, hvalid⟩ := h
      exact .string hname hvalid
  | enum underlying => exact .enum hname h
  | array element length =>
      obtain ⟨items, rfl, hlength, hitems⟩ := h
      exact .array hname hlength hitems
  | object fields =>
      obtain ⟨members, rfl, hlength, hfields⟩ := h
      refine .object (fun key => (JsonObject.find? members key).getD .null) hname hlength ?_ ?_
      · intro field hfield
        obtain ⟨value, hvalue, -⟩ := hfields field hfield
        simp [hvalue]
      · intro field hfield
        obtain ⟨value, hvalue, hconforms⟩ := hfields field hfield
        simpa [hvalue] using hconforms

/-- No name has two schemas. -/
def Unambiguous (schemas : Name → Schema Name → Prop) : Prop :=
  ∀ name first second, schemas name first → schemas name second → first = second

/-- With one schema a name, conforming is what that schema asks. -/
theorem Conforms.admits (hunique : Unambiguous schemas) {schema : Schema Name} (hname : schemas name schema)
    (h : Conforms schemas name json) : schema.Admits schemas json := by
  cases h with
  | boolean hother value =>
      cases hunique _ _ _ hname hother
      exact ⟨value, rfl⟩
  | number hother hvalue hlow hhigh =>
      cases hunique _ _ _ hname hother
      exact ⟨_, hvalue, hlow, hhigh⟩
  | decimal hother hlow hhigh =>
      cases hunique _ _ _ hname hother
      exact ⟨_, rfl, hlow, hhigh⟩
  | float hother hfits =>
      cases hunique _ _ _ hname hother
      exact .inl hfits
  | nonFinite hother htext =>
      cases hunique _ _ _ hname hother
      exact .inr ⟨_, htext, rfl⟩
  | string hother hvalid =>
      cases hunique _ _ _ hname hother
      exact ⟨_, rfl, hvalid⟩
  | enum hother hvalue =>
      cases hunique _ _ _ hname hother
      exact hvalue
  | array hother hlength hitems =>
      cases hunique _ _ _ hname hother
      exact ⟨_, rfl, hlength, hitems⟩
  | object value hother hlength hmembers hvalues =>
      cases hunique _ _ _ hname hother
      exact ⟨_, rfl, hlength, fun field hfield => ⟨_, hmembers field hfield, hvalues field hfield⟩⟩

/-! ## Values inside a value -/

/-- One JSON value is part of another, or is the other. -/
inductive Json.Inside (json : Json) : Json → Prop
  | refl : Inside json json
  | item {item : Json} {items : List Json} (hitem : item ∈ items) (h : Inside json item) :
      Inside json (.array items)
  | member {key : Bytes} {value : Json} {members : List (Bytes × Json)}
      (hmember : (key, value) ∈ members) (h : Inside json value) : Inside json (.object members)

/-- No array is longer than `limit`. -/
def Json.Short (limit : Nat) (json : Json) : Prop :=
  ∀ items, Json.Inside (.array items) json → items.length ≤ limit

theorem Json.Short.length {limit : Nat} {items : List Json} (h : Json.Short limit (.array items)) :
    items.length ≤ limit := h items .refl

theorem Json.Short.item {limit : Nat} {items : List Json} (h : Json.Short limit (.array items))
    {item : Json} (hitem : item ∈ items) : Json.Short limit item :=
  fun found hfound => h found (.item hitem hfound)

theorem Json.Short.member {limit : Nat} {members : List (Bytes × Json)}
    (h : Json.Short limit (.object members)) {key : Bytes} {value : Json}
    (hmember : JsonObject.find? members key = some value) : Json.Short limit value := by
  intro found hfound
  obtain ⟨before, after, hsplit, -⟩ := List.lookup_eq_some_iff.mp hmember
  have hmem : (key, value) ∈ members := by
    rw [hsplit]
    simp
  exact h found (.member hmem hfound)

end RttHttp
