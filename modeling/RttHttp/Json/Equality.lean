import RttHttp.Json.Output

/-! # Equality of JSON values

Boost.JSON compares integers by value, whatever kind they are held in, and objects
without regard to the order of their members. Of two doubles it takes zeros of either sign
to be equal, which a serialization tells apart; so equality is defined over a comparison
of doubles. `AlikeBy` also compares the order; it is what two values with one
serialization have in common.
-/

namespace RttHttp

namespace Json

def integer? : Json → Option Int
  | .int64 value => some value.toInt
  | .uint64 value => some value.toNat
  | _ => none

section Comparison

variable (same : Double → Double → Prop)

def SameScalar : Json → Json → Prop
  | .null, .null => True
  | .bool first, .bool second => first = second
  | .string first, .string second => first = second
  | .double first, .double second => same first second
  | first, second => ∃ value, first.integer? = some value ∧ second.integer? = some value

mutual

/-- Every member of one object has an equal one of its name in the other, and there are
no more of them. -/
def EqualBy : Json → Json → Prop
  | .array items, .array others => EqualItems items others
  | .object members, .object others =>
      members.length = others.length ∧ EqualMembers members others
  | first, second => SameScalar same first second

def EqualItems : List Json → List Json → Prop
  | [], [] => True
  | item :: rest, other :: others => EqualBy item other ∧ EqualItems rest others
  | _, _ => False

def EqualMembers : List (Bytes × Json) → JsonObject → Prop
  | [], _ => True
  | (name, item) :: rest, others =>
      (∃ other, JsonObject.find? others name = some other ∧ EqualBy item other) ∧
        EqualMembers rest others

end

mutual

/-- Equal with the members in the same order. -/
def AlikeBy : Json → Json → Prop
  | .array items, .array others => AlikeItems items others
  | .object members, .object others => AlikeMembers members others
  | first, second => SameScalar same first second

def AlikeItems : List Json → List Json → Prop
  | [], [] => True
  | item :: rest, other :: others => AlikeBy item other ∧ AlikeItems rest others
  | _, _ => False

def AlikeMembers : List (Bytes × Json) → List (Bytes × Json) → Prop
  | [], [] => True
  | (name, item) :: rest, (key, other) :: others =>
      name = key ∧ AlikeBy item other ∧ AlikeMembers rest others
  | _, _ => False

end

end Comparison

/-- `operator==`. -/
def Equal : Json → Json → Prop := EqualBy fun first second => first.equal second = true

/-- Equality that tells zeros apart by their signs. -/
def Same : Json → Json → Prop := EqualBy Eq

theorem same_double_iff {first second : Finite .binary64} :
    (Json.double (.finite first)).Same (.double (.finite second)) ↔
      (Json.double (.finite first)).Equal (.double (.finite second)) ∧
        first.negative = second.negative := by
  simp only [Same, Equal, EqualBy, SameScalar, Binary.finite.injEq]
  exact Binary.equal_and_negative_iff.symm

end Json

/-! ## The serialization determines a value -/

def isNumberByte (c : UInt8) : Bool :=
  isDigit c || c == minus || c == 0x2b || c == 0x2e || c == 0x45 || c == 0x65

/-- How finite numbers are written: not as integers, and no two of them alike. -/
structure WritesDoubles (double : Double → Bytes) : Prop where
  number : ∀ value, value.isFinite = true → ∀ c ∈ double value, isNumberByte c = true
  mark : ∀ value, value.isFinite = true → ∃ c ∈ double value, c ≠ minus ∧ isDigit c = false
  injective : ∀ first second, first.isFinite = true → second.isFinite = true →
    double first = double second → first = second

/-- What the first byte of a text says about its value. -/
inductive Lead where
  | null
  | bool (value : Bool)
  | number
  | string
  | array
  | object
  deriving DecidableEq

def byteLead (c : UInt8) : Option Lead :=
  if c = 0x6e then some .null
  else if c = 0x74 then some (.bool true)
  else if c = 0x66 then some (.bool false)
  else if c = quote then some .string
  else if c = 0x5b then some .array
  else if c = 0x7b then some .object
  else if isNumberByte c then some .number
  else none

def Json.lead : Json → Lead
  | .null => .null
  | .bool value => .bool value
  | .int64 _ | .uint64 _ | .double _ => .number
  | .string _ => .string
  | .array _ => .array
  | .object _ => .object

theorem byteLead_number {c : UInt8} (h : isNumberByte c = true) : byteLead c = some .number :=
  forall_byte (p := fun c => isNumberByte c = true → byteLead c = some .number)
    (by decide +kernel) c h

theorem isNumberByte_toChars {value : Int} : ∀ c ∈ toChars value, isNumberByte c = true := by
  intro c hc
  rcases mem_toChars hc with rfl | hdigit
  · rfl
  · simp [isNumberByte, hdigit]

theorem decimal_eq_toChars (magnitude : Nat) : decimal magnitude = toChars magnitude := by
  simp [toChars]

theorem toChars_ne_nil (value : Int) : toChars value ≠ [] := by
  unfold toChars
  split
  · simp
  · exact decimal_ne_nil _

/-- A printed integer says which it is. -/
theorem toChars_inj {first second : Int} (h : toChars first = toChars second) : first = second := by
  have hfirst : fromChars (-|first| - |second|) (|first| + |second|) (toChars first) =
      some (first, []) :=
    fromChars_toChars (by have := neg_abs_le first; have := abs_nonneg second; omega)
      (by have := le_abs_self first; have := abs_nonneg second; omega)
  have hsecond : fromChars (-|first| - |second|) (|first| + |second|) (toChars second) =
      some (second, []) :=
    fromChars_toChars (by have := neg_abs_le second; have := abs_nonneg first; omega)
      (by have := le_abs_self second; have := abs_nonneg first; omega)
  rw [h, hsecond] at hfirst
  exact (Prod.mk.inj (Option.some.inj hfirst)).1.symm

/-- What comes after a stretch of bytes of a kind: nothing, or a byte of another. -/
def Stops (p : UInt8 → Bool) (rest : Bytes) : Prop := ∀ c, rest.head? = some c → p c = false

theorem stops_cons {p : UInt8 → Bool} {c : UInt8} {rest : Bytes} (h : p c = false) :
    Stops p (c :: rest) := by
  rintro other ⟨⟩
  exact h

/-- A stretch of bytes of one kind ends in one place only. -/
theorem span_cancel {p : UInt8 → Bool} {first second rest others : Bytes}
    (hfirst : ∀ c ∈ first, p c = true) (hsecond : ∀ c ∈ second, p c = true)
    (hrest : Stops p rest) (hothers : Stops p others) (h : first ++ rest = second ++ others) :
    first = second ∧ rest = others := by
  have htake : ∀ {text after : Bytes}, (∀ c ∈ text, p c = true) → Stops p after →
      (text ++ after).takeWhile p = text := by
    intro text after htext hafter
    rw [List.takeWhile_append_of_pos htext]
    cases after with
    | nil => simp
    | cons c more => simp [hafter c rfl]
  have hequal : first = second := by
    rw [← htake hfirst hrest, h, htake hsecond hothers]
  subst hequal
  exact ⟨rfl, List.append_cancel_left h⟩

/-- What may follow a value: nothing, or a byte that ends a number. -/
abbrev Delimited (rest : Bytes) : Prop := Stops isNumberByte rest

section Cancel

variable {double : Double → Bytes} (hdouble : WritesDoubles double)

include hdouble

/-- The text of a number. -/
theorem serialize_number {json : Json} (hclean : json.Clean) (hlead : json.lead = .number) :
    (∀ c ∈ serialize double json, isNumberByte c = true) ∧ serialize double json ≠ [] := by
  cases json with
  | int64 value => exact ⟨isNumberByte_toChars, toChars_ne_nil _⟩
  | uint64 value =>
      rw [serialize, decimal_eq_toChars]
      exact ⟨isNumberByte_toChars, toChars_ne_nil _⟩
  | double value =>
      obtain ⟨c, hc, -⟩ := hdouble.mark value hclean
      exact ⟨hdouble.number value hclean, List.ne_nil_of_mem hc⟩
  | _ => cases hlead

theorem serialize_lead {json : Json} (hclean : json.Clean) :
    ∃ c text, serialize double json = c :: text ∧ byteLead c = some json.lead := by
  have hnumber : json.lead = .number →
      ∃ c text, serialize double json = c :: text ∧ byteLead c = some .number := by
    intro hlead
    obtain ⟨hbytes, hne⟩ := serialize_number hdouble hclean hlead
    obtain ⟨c, text, htext⟩ := List.exists_cons_of_ne_nil hne
    exact ⟨c, text, htext, byteLead_number (hbytes c (htext ▸ List.mem_cons_self))⟩
  cases json with
  | null => exact ⟨0x6e, bytes "ull", rfl, rfl⟩
  | bool value =>
      cases value with
      | true => exact ⟨0x74, bytes "rue", rfl, rfl⟩
      | false => exact ⟨0x66, bytes "alse", rfl, rfl⟩
  | int64 value => exact hnumber rfl
  | uint64 value => exact hnumber rfl
  | double value => exact hnumber rfl
  | string text => exact ⟨quote, _, rfl, rfl⟩
  | array items => exact ⟨0x5b, _, rfl, rfl⟩
  | object members => exact ⟨0x7b, _, rfl, rfl⟩

/-- Values with one text are of one kind. -/
theorem lead_eq {first second : Json} {rest others : Bytes} (hfirst : first.Clean)
    (hsecond : second.Clean) (h : serialize double first ++ rest = serialize double second ++ others) :
    first.lead = second.lead := by
  obtain ⟨c, text, htext, hlead⟩ := serialize_lead hdouble hfirst
  obtain ⟨d, more, hmore, hother⟩ := serialize_lead hdouble hsecond
  rw [htext, hmore] at h
  rw [(List.cons.inj h).1, hother] at hlead
  exact (Option.some.inj hlead).symm

/-- Two numbers with one text are equal. -/
theorem sameScalar_of_number {first second : Json} (hfirst : first.Clean) (hsecond : second.Clean)
    (hlead : first.lead = .number) (hother : second.lead = .number)
    (h : serialize double first = serialize double second) : first.SameScalar Eq second := by
  have hmark : ∀ {value : Double} {number : Int}, value.isFinite = true →
      double value ≠ toChars number := by
    intro value number hvalue hsame
    obtain ⟨c, hc, hminus, hdigit⟩ := hdouble.mark value hvalue
    rw [hsame] at hc
    rcases mem_toChars hc with hsign | hyes
    · exact hminus hsign
    · rw [hdigit] at hyes
      cases hyes
  cases first <;> cases second <;> first | cases hlead; done | cases hother; done | skip
  all_goals simp only [serialize, decimal_eq_toChars] at h
  · exact ⟨_, rfl, by rw [Json.integer?, toChars_inj h]⟩
  · exact ⟨_, rfl, by rw [Json.integer?, toChars_inj h]⟩
  · exact absurd h.symm (hmark hsecond)
  · exact ⟨_, rfl, by rw [Json.integer?, toChars_inj h]⟩
  · exact ⟨_, rfl, by rw [Json.integer?, toChars_inj h]⟩
  · exact absurd h.symm (hmark hsecond)
  · exact absurd h (hmark hfirst)
  · exact absurd h (hmark hfirst)
  · exact hdouble.injective _ _ hfirst hsecond h

/-- A bracket does not begin a value. -/
theorem serialize_ne_close {json : Json} (hclean : json.Clean) {rest others : Bytes} :
    0x5d :: rest ≠ serialize double json ++ others := by
  intro h
  obtain ⟨c, text, htext, hlead⟩ := serialize_lead hdouble hclean
  rw [htext] at h
  rw [← (List.cons.inj h).1] at hlead
  cases hlead

theorem numbers_cancel {first second : Json} {rest others : Bytes} (hfirst : first.Clean)
    (hsecond : second.Clean) (hlead : first.lead = .number) (hother : second.lead = .number)
    (hrest : Delimited rest) (hothers : Delimited others)
    (h : serialize double first ++ rest = serialize double second ++ others) :
    first.SameScalar Eq second ∧ rest = others := by
  have hone := (serialize_number hdouble hfirst hlead).1
  have htwo := (serialize_number hdouble hsecond hother).1
  obtain ⟨htext, htail⟩ := span_cancel hone htwo hrest hothers h
  exact ⟨sameScalar_of_number hdouble hfirst hsecond hlead hother htext, htail⟩

end Cancel

section Injective

variable {double : Double → Bytes}

mutual

/-- A text determines its value, and where it ends. -/
theorem serialize_cancel (hdouble : WritesDoubles double) {first second : Json}
    {rest others : Bytes} (hfirst : first.Clean) (hsecond : second.Clean) (hrest : Delimited rest)
    (hothers : Delimited others)
    (h : serialize double first ++ rest = serialize double second ++ others) :
    first.AlikeBy Eq second ∧ rest = others := by
  have hlead := lead_eq hdouble hfirst hsecond h
  match first, second with
  | .null, .null => exact ⟨trivial, List.append_cancel_left h⟩
  | .bool one, .bool two =>
      obtain rfl : one = two := by simpa [Json.lead] using hlead
      exact ⟨rfl, List.append_cancel_left h⟩
  | .string one, .string two => exact quoted_cancel h
  | .array items, .array more =>
      simp only [serialize, List.cons_append, List.append_assoc, List.nil_append] at h
      exact items_cancel hdouble hfirst hsecond (List.cons.inj h).2
  | .object members, .object more =>
      simp only [serialize, List.cons_append, List.append_assoc, List.nil_append] at h
      exact members_cancel hdouble hfirst hsecond (List.cons.inj h).2
  | .int64 _, .int64 _ => exact numbers_cancel hdouble hfirst hsecond rfl rfl hrest hothers h
  | .int64 _, .uint64 _ => exact numbers_cancel hdouble hfirst hsecond rfl rfl hrest hothers h
  | .int64 _, .double _ => exact numbers_cancel hdouble hfirst hsecond rfl rfl hrest hothers h
  | .uint64 _, .int64 _ => exact numbers_cancel hdouble hfirst hsecond rfl rfl hrest hothers h
  | .uint64 _, .uint64 _ => exact numbers_cancel hdouble hfirst hsecond rfl rfl hrest hothers h
  | .uint64 _, .double _ => exact numbers_cancel hdouble hfirst hsecond rfl rfl hrest hothers h
  | .double _, .int64 _ => exact numbers_cancel hdouble hfirst hsecond rfl rfl hrest hothers h
  | .double _, .uint64 _ => exact numbers_cancel hdouble hfirst hsecond rfl rfl hrest hothers h
  | .double _, .double _ => exact numbers_cancel hdouble hfirst hsecond rfl rfl hrest hothers h

theorem items_cancel (hdouble : WritesDoubles double) {items more : List Json}
    {rest others : Bytes} (hitems : CleanItems items) (hmore : CleanItems more)
    (h : serializeItems double items ++ 0x5d :: rest = serializeItems double more ++ 0x5d :: others) :
    Json.AlikeItems Eq items more ∧ rest = others := by
  match items, more with
  | [], [] => exact ⟨trivial, (List.cons.inj h).2⟩
  | [], other :: _ =>
      rw [serializeItems, serializeItems, List.nil_append, List.append_assoc] at h
      exact absurd h (serialize_ne_close hdouble hmore.1)
  | item :: _, [] =>
      rw [serializeItems, serializeItems, List.nil_append, List.append_assoc] at h
      exact absurd h.symm (serialize_ne_close hdouble hitems.1)
  | item :: tail, other :: back =>
      rw [serializeItems, serializeItems, List.append_assoc, List.append_assoc] at h
      have hends : ∀ (left : List Json) (after : Bytes), Delimited
          ((if left.isEmpty then [] else comma :: serializeItems double left) ++ 0x5d :: after) := by
        intro left after
        cases left <;> exact stops_cons rfl
      obtain ⟨halike, hnext⟩ := serialize_cancel hdouble hitems.1 hmore.1 (hends tail rest)
        (hends back others) h
      match tail, back with
      | [], [] => exact ⟨⟨halike, trivial⟩, (List.cons.inj hnext).2⟩
      | [], _ :: _ => cases (List.cons.inj hnext).1
      | _ :: _, [] => cases (List.cons.inj hnext).1
      | a :: as, b :: bs =>
          obtain ⟨htail, hrest⟩ := items_cancel hdouble hitems.2 hmore.2 (List.cons.inj hnext).2
          exact ⟨⟨halike, htail⟩, hrest⟩

theorem members_cancel (hdouble : WritesDoubles double) {members more : List (Bytes × Json)}
    {rest others : Bytes} (hmembers : CleanMembers members) (hmore : CleanMembers more)
    (h : serializeMembers double members ++ 0x7d :: rest =
      serializeMembers double more ++ 0x7d :: others) :
    Json.AlikeMembers Eq members more ∧ rest = others := by
  match members, more with
  | [], [] => exact ⟨trivial, (List.cons.inj h).2⟩
  | [], (key, other) :: _ =>
      rw [serializeMembers, serializeMembers, List.nil_append, quoted] at h
      cases (List.cons.inj h).1
  | (name, item) :: _, [] =>
      rw [serializeMembers, serializeMembers, List.nil_append, quoted] at h
      cases (List.cons.inj h).1
  | (name, item) :: tail, (key, other) :: back =>
      rw [serializeMembers, serializeMembers] at h
      simp only [List.append_assoc, List.cons_append] at h
      obtain ⟨hname, h⟩ := quoted_cancel h
      have hends : ∀ (left : List (Bytes × Json)) (after : Bytes), Delimited
          ((if left.isEmpty then [] else comma :: serializeMembers double left) ++ 0x7d :: after) := by
        intro left after
        cases left <;> exact stops_cons rfl
      obtain ⟨halike, hnext⟩ := serialize_cancel hdouble hmembers.2.1 hmore.2.1 (hends tail rest)
        (hends back others) (List.cons.inj h).2
      match tail, back with
      | [], [] => exact ⟨⟨hname, halike, trivial⟩, (List.cons.inj hnext).2⟩
      | [], _ :: _ => cases (List.cons.inj hnext).1
      | _ :: _, [] => cases (List.cons.inj hnext).1
      | a :: as, b :: bs =>
          obtain ⟨htail, hrest⟩ := members_cancel hdouble hmembers.2.2 hmore.2.2 (List.cons.inj hnext).2
          exact ⟨⟨hname, halike, htail⟩, hrest⟩

end

theorem serialize_of_sameScalar {first second : Json} (h : first.SameScalar Eq second) :
    serialize double first = serialize double second := by
  have hinteger : ∀ {json : Json} {value : Int}, json.integer? = some value →
      serialize double json = toChars value := by
    intro json value hvalue
    cases json with
    | int64 number =>
        obtain rfl := Option.some.inj hvalue
        rfl
    | uint64 number =>
        obtain rfl := Option.some.inj hvalue
        exact decimal_eq_toChars _
    | _ => cases hvalue
  unfold Json.SameScalar at h
  split at h
  next => rfl
  next => rw [h]
  next => rw [h]
  next => rw [h]
  next =>
    obtain ⟨value, hone, htwo⟩ := h
    rw [hinteger hone, hinteger htwo]

mutual

theorem serialize_of_alike {first second : Json} (h : first.AlikeBy Eq second) :
    serialize double first = serialize double second := by
  unfold Json.AlikeBy at h
  split at h
  next => rw [serialize, serialize, serializeItems_of_alike h]
  next => rw [serialize, serialize, serializeMembers_of_alike h]
  next => exact serialize_of_sameScalar h

theorem serializeItems_of_alike {items others : List Json} (h : Json.AlikeItems Eq items others) :
    serializeItems double items = serializeItems double others := by
  match items, others with
  | [], [] => rfl
  | item :: rest, other :: more =>
      rw [serializeItems, serializeItems, serialize_of_alike h.1,
        serializeItems_of_alike h.2]
      match rest, more, h.2 with
      | [], [], _ => rfl
      | _ :: _, _ :: _, _ => rfl

theorem serializeMembers_of_alike {members others : List (Bytes × Json)}
    (h : Json.AlikeMembers Eq members others) :
    serializeMembers double members = serializeMembers double others := by
  match members, others with
  | [], [] => rfl
  | (name, item) :: rest, (key, other) :: more =>
      obtain ⟨rfl, hitem, hrest⟩ := h
      rw [serializeMembers, serializeMembers,
        serialize_of_alike hitem,
        serializeMembers_of_alike hrest]
      match rest, more, hrest with
      | [], [], _ => rfl
      | _ :: _, _ :: _, _ => rfl

end

/-- Values are written alike exactly when they are. -/
theorem serialize_eq_iff (hdouble : WritesDoubles double) {first second : Json}
    (hfirst : first.Clean) (hsecond : second.Clean) :
    serialize double first = serialize double second ↔ first.AlikeBy Eq second := by
  constructor
  · intro h
    have hnone : Delimited [] := fun c hc => by cases hc
    have htext : serialize double first ++ [] = serialize double second ++ [] := by rw [h]
    exact (serialize_cancel hdouble hfirst hsecond hnone hnone htext).1
  · exact serialize_of_alike

end Injective

end RttHttp
